import KmallocKfree.Invariant

/-!
# `kalloc` keeps the invariant

From a state that holds a sound shape, `kalloc` returns a block and the state holds
the next shape, or it returns 0 and nothing has changed. The two cases in which the
source goes wrong are hypotheses here: a first page that cannot be had, and a node
that fits a large block but not its header.
-/
namespace KmallocKfree

open Prog Region Shape
open ByteMemory (Mem)

section Counting

variable {p : Platform} {sh : Shape} {live : List Block} {pg : Page} {cpu : ℕ}

theorem Shape.Sound.bases_nodup (h : Sound p sh live) : (sh.pages.map Page.base).Nodup := by
  have hd := (List.pairwise_append.mp (List.pairwise_append.mp h.spans).2.1).1
  rw [List.pairwise_map] at hd
  refine List.pairwise_map.mpr (hd.imp fun hd => ?_)
  exact hd.start_ne (Nat.zero_lt_succ _) (Nat.zero_lt_succ _)

/-- A walk over pages ends. -/
theorem Shape.Sound.pages_count (h : Sound p sh live) {l : List ℕ}
    (hl : l.Sublist (sh.pages.map Page.base)) : l.length < loopBound := by
  have hmem : ∀ x ∈ l, ∃ pg ∈ sh.pages, pg.base = x := fun x hx =>
    List.mem_map.mp (hl.subset hx)
  refine length_lt_loopBound (h.bases_nodup.sublist hl) (fun h0 => ?_) fun x hx => ?_
  · obtain ⟨pg, hpg, hb⟩ := hmem 0 h0
    have := (h.pages pg hpg).1.base_pos
    omega
  · obtain ⟨pg, hpg, rfl⟩ := hmem x hx
    have := (h.pages pg hpg).1.max
    omega

theorem pagesOf_sublist (sh : Shape) (cpu : ℕ) :
    ((sh.pagesOf cpu).map Page.base).Sublist (sh.pages.map Page.base) :=
  List.filter_sublist.map _

/-- The records of free nodes do not overlap. -/
theorem Shape.Sound.separated (h : Sound p sh live) : Separated sh.free := by
  have hd := h.free_pairwise
  rw [List.pairwise_map] at hd
  exact hd.imp fun hxy => hxy.apart (le_max_right _ _) (le_max_right _ _)

theorem Shape.Sound.free_pos (h : Sound p sh live) {r : Region} (hr : r ∈ sh.free) :
    0 < r.start := by
  have := (h.free r hr).2.1
  have := p.heapStart_pos
  omega

/-- A walk over the free list ends. -/
theorem Shape.Sound.free_count (h : Sound p sh live) : sh.free.length < loopBound := by
  rw [← List.length_map (f := Region.start)]
  refine length_lt_loopBound h.separated.nodup (fun h0 => ?_) fun x hx => ?_
  · obtain ⟨r, hr, hr0⟩ := List.mem_map.mp h0
    have := h.free_pos hr
    omega
  · obtain ⟨r, hr, rfl⟩ := List.mem_map.mp hx
    have h₁ := (h.free r hr).2.2
    have h₂ := p.limit_max
    unfold Region.stop at h₁
    omega

theorem callFoot_header {keep : List Block} {T : List ℕ} (h : Sound p sh live) {x : ℕ}
    (hx : x ∈ (sh.pagesOf cpu).map Page.base) : (callFoot sh keep T).Sees .pageheader x 16 := by
  obtain ⟨pg, hpg, rfl⟩ := List.mem_map.mp hx
  have hmem := (List.mem_filter.mp hpg).1
  refine ⟨?_, .inl ⟨pg, hmem, rfl⟩, fun _ _ _ => trivial⟩
  have := (h.pages pg hmem).1.base_pos
  omega

end Counting

section Clearing

variable {p : Platform} {sh : Shape} {live : List Block} {pg : Page} {P₁ P₂ : List Page}
  {b : Block} {r x : Region} {cpu : ℕ} {T : List ℕ}

/-- No live block overlaps a page header. -/
theorem Shape.Sound.header_clear (h : Sound p sh live) (hpages : sh.pages = P₁ ++ pg :: P₂) :
    ∀ b ∈ live, Disj ⟨pg.base, headerBytes⟩ b.region := by
  intro b hb
  refine h.disj_live hpages (page_record pg) (fun c hc hhouse => ?_) hb
  have hb := hhouse.bounds
  have hcls := hhouse.1
  have hv := (h.pages pg (by rw [hpages]; simp)).1
  left
  unfold Block.region Region.stop headerBytes
  simp only
  rcases hv.cls with h0 | hclass
  · by_cases hch : c.Huge
    · have := (roundSize_huge hch (h.huge c hc hch).1).1
      unfold Block.size at *
      omega
    · have := (Block.sizeClass hch).ge
      omega
  · have := hclass.ge
    omega

/-- No live block overlaps a free node of a page. -/
theorem Shape.Sound.run_clear (h : Sound p sh live) (hpages : sh.pages = P₁ ++ pg :: P₂)
    (hr : r ∈ pg.runs) (hx : x.Within r) : ∀ b ∈ live, x.Disj b.region := by
  intro b hb
  have hspan := (run_record (h.pages pg (by rw [hpages]; simp)).1 hr).2
  refine h.disj_live hpages ?_ (fun c _ hhouse => (hhouse.2.2 r hr).mono hx) hb
  exact ⟨le_trans hspan.1 hx.1, le_trans hx.2 hspan.2⟩

theorem small_of_le {a n : ℕ} (hn : n ≤ 16384) : ¬ (⟨a, n⟩ : Block).Huge := by
  unfold Block.Huge
  simp only
  omega

/-- Block 1 of a page without live blocks becomes live. -/
theorem Shape.Sound.fresh {l : List Region} {base n : ℕ} (hn : n ≤ 16384)
    (h : Sound p ⟨l, P₁ ++ Page.whole cpu base (roundSize n) :: P₂⟩ live) :
    Sound p ⟨l, P₁ ++ Page.fresh cpu base (roundSize n) :: P₂⟩
      (⟨base + roundSize n, n⟩ :: live) := by
  rw [← Page.pop_whole (sizeClass_roundSize hn)]
  exact h.pop rfl rfl (small_of_le hn) rfl rfl

/-- What an operation on a page of the shape touches, a call may touch. -/
theorem pageFoot_sub_of_mem (hmem : pg ∈ sh.pages) {keep : List Block} :
    (pageFoot pg cpu keep T).Sub (callFoot sh keep T) :=
  pageFoot_sub (.inl ⟨pg, hmem, rfl⟩) fun r hr _ hin => .inr ⟨pg, hmem, .inl ⟨r, hr, hin⟩⟩

end Clearing

/-- A test on the pages of a list finds the first page that passes, or none does. -/
theorem find_page (L : List Page) (t : ℕ → Bool) :
    (((L.map Page.base).find? t).getD 0 = 0 ∧ ∀ pg ∈ L, t pg.base = false) ∨
      ∃ pg ∈ L, t pg.base = true ∧ ((L.map Page.base).find? t).getD 0 = pg.base := by
  cases hf : (L.map Page.base).find? t with
  | none =>
    refine .inl ⟨rfl, fun pg hpg => ?_⟩
    simpa using List.find?_eq_none.mp hf pg.base (List.mem_map_of_mem hpg)
  | some a =>
    obtain ⟨pg, hpg, rfl⟩ := List.mem_map.mp (List.mem_of_find?_eq_some hf)
    exact .inr ⟨pg, hpg, List.find?_some hf, rfl⟩

section Tests

variable {pg : Page} {m : Mem} {c : ℕ}

/-- The fast path looks for a page of the class with a free node. -/
theorem sized_iff (hv : pg.Valid) (h : pg.Repr m) (hc : SizeClass c) :
    (toSize (sizeAt m pg.base) = c ∧ 0 < wordAt m pg.base) ↔ pg.cls = c ∧ pg.runs ≠ [] := by
  have hge := hc.ge
  have hle : pg.cls ≤ 16384 := hv.cls.elim (fun h0 => by omega) fun h => h.le
  rw [h.size, toSize_natCast (by omega)]
  constructor
  · rintro ⟨hcls, hword⟩
    refine ⟨hcls, fun hnil => ?_⟩
    rw [h.index, Page.index, if_neg (by omega), hnil] at hword
    exact lt_irrefl _ hword
  · rintro ⟨hcls, hne⟩
    refine ⟨hcls, ?_⟩
    cases hr : pg.runs with
    | nil => exact absurd hr hne
    | cons r rest => exact (h.first hv hr).2

/-- The slow path looks for an empty page. -/
theorem empty_iff (h : pg.Repr m) : (sizeAt m pg.base = 0 ∧ 0 < wordAt m pg.base) ↔ pg.cls = 0 := by
  rw [h.size]
  constructor
  · rintro ⟨hcls, -⟩
    exact_mod_cast hcls
  · intro hcls
    refine ⟨by exact_mod_cast hcls, ?_⟩
    rw [h.index, Page.index, if_pos hcls]
    exact one_pos

end Tests

/-- The successful small allocations. -/
inductive SmallStep (sh : Shape) (cpu c : ℕ) : ℕ → Shape → Prop
  | pop {P₁ P₂ : List Page} {pg : Page} {r : Region} {rest : List Region} :
      sh.pages = P₁ ++ pg :: P₂ → pg.owner = cpu → pg.cls = c → pg.runs = r :: rest →
      SmallStep sh cpu c r.start ⟨sh.free, P₁ ++ pg.pop :: P₂⟩
  | recycle {P₁ P₂ : List Page} {pg : Page} :
      sh.pages = P₁ ++ pg :: P₂ → pg.owner = cpu → pg.cls = 0 →
      SmallStep sh cpu c (pg.base + c) ⟨sh.free, P₁ ++ Page.fresh cpu pg.base c :: P₂⟩
  | extend {l₁ l₂ : List Region} {r : Region} :
      sh.free = l₁ ++ r :: l₂ → (∀ x ∈ l₁, x.len < pageBytes) → pageBytes ≤ r.len →
      SmallStep sh cpu c (r.start + c)
        ⟨l₁ ++ afterPage r ++ l₂, Page.fresh cpu r.start c :: sh.pages⟩

/-- No page of the CPU and no node of the heap can serve a small request. -/
def SmallRefused (sh : Shape) (cpu c : ℕ) : Prop :=
  (∀ pg ∈ sh.pagesOf cpu, (pg.cls = c → pg.runs = []) ∧ pg.cls ≠ 0) ∧
    ∀ r ∈ sh.free, r.len < pageBytes

/-- What is left of the first fitting node after a page was cut off is clear of
everything else. -/
def RoomAfterPage (sh : Shape) (live : List Block) : Prop :=
  ∀ l₁ r l₂, sh.free = l₁ ++ r :: l₂ → (∀ x ∈ l₁, x.len < pageBytes) → pageBytes ≤ r.len →
    ∀ q ∈ afterPage r, ∀ u ∈ sh.beside live (l₁ ++ l₂), q.node.Disj u

/-- A small allocation returned `a`, and the state holds the next shape. -/
def SmallDone (p : Platform) (sh : Shape) (live : List Block) (cpu n a : ℕ) (s : PmmState) :
    Prop :=
  ∃ sh', SmallStep sh cpu (roundSize n) a sh' ∧ Inv p ⟨s, ⟨a, n⟩ :: live⟩ sh'

section Small

variable {p : Platform} {sh : Shape} {live : List Block} {s : PmmState} {cpu n : ℕ}
  {pg : Page} {P₁ P₂ : List Page} {r : Region} {rest : List Region}

/-- The lock words after a lock that was free was taken and released. -/
theorem unlocked_restore (h : Unlocked p s) (hcpu : cpu < p.cpuCount) {s' : PmmState}
    (hl : s'.lock = ((s.setLock (.pagelist cpu) 1).setLock (.pagelist cpu) 0).lock) :
    Unlocked p s' := by
  rw [setLock_setLock (h.2 cpu hcpu)] at hl
  unfold Unlocked at *
  rw [hl]
  exact h

/-- A small block needs no header. -/
theorem Holds.add_small {m : Mem} {v : Global → ℕ} {a : ℕ} (hn : n ≤ 16384)
    (h : Holds p sh live m v) : Holds p sh (⟨a, n⟩ :: live) m v :=
  h.mono_live fun b hb hbh =>
    (List.mem_cons.mp hb).resolve_left (by rintro rfl; exact small_of_le hn hbh)

/-- The fast path stays in its page. -/
theorem wp_kallocFast_page (hs : Sound p sh live) (hpages : sh.pages = P₁ ++ pg :: P₂)
    (hrepr : pg.Repr s.mem) (hcls : pg.cls = roundSize n) (hruns : pg.runs = r :: rest) :
    wp (pageFoot pg cpu live []).Allows (kallocFast cpu pg.base (roundSize n)) s fun ret s' =>
      ret = r.start ∧ pg.pop.Repr s'.mem ∧ nextAt s'.mem pg.base = nextAt s.mem pg.base ∧
        s'.var = s.var ∧ s'.lock = (s.setLock (.pagelist cpu) 0).lock := by
  have hv := (hs.pages pg (by rw [hpages]; simp)).1
  have hr : r ∈ pg.runs := by rw [hruns]; simp
  have hge := (hv.sizeClass_of_mem hr).ge
  have hrb := (hv.run r hr).bounds
  obtain ⟨hrec, hspan⟩ := run_record hv hr
  have hpos := hv.base_pos
  have hin : ∀ q m, Within ⟨q, m⟩ r → Within ⟨q, m⟩ pg.span := fun q m hq =>
    ⟨le_trans hspan.1 hq.1, le_trans hq.2 hspan.2⟩
  have hnode : ∀ q, Within ⟨q, headerBytes⟩ r →
      (pageFoot pg cpu live []).Owns .pagefreenode q 16 := by
    intro q hq
    exact pageFoot_node hpos (hin _ _ hq) (hs.run_clear hpages hr hq) (.inr ⟨r, hr, hq⟩)
  have hbytes : Within ⟨r.start, pg.cls⟩ r := by
    unfold Within Region.stop
    simp only
    omega
  rw [← hcls]
  refine wp_kallocFast hv hrepr hruns
    (.of_owns (pageFoot_owns hpos (page_record pg) (hs.header_clear hpages) rfl)) (hnode _ hrec) ?_
    (pageFoot_owns hpos (hin _ _ hbytes) (hs.run_clear hpages hr hbytes) trivial) rfl
  intro hne
  refine hnode _ ?_
  have := ((hv.run r hr).rest hne).2
  unfold Within Region.stop headerBytes
  simp only
  omega

/-- The fast path on a page of the shape. -/
theorem wp_kallocFast_inv (h : Inv p ⟨s, live⟩ sh) (hcpu : cpu < p.cpuCount) (hn : n ≤ 16384)
    (hpages : sh.pages = P₁ ++ pg :: P₂) (howner : pg.owner = cpu)
    (hcls : pg.cls = roundSize n) (hruns : pg.runs = r :: rest) :
    wp (callFoot sh live []).Allows (kallocFast cpu pg.base (roundSize n))
      (s.setLock (.pagelist cpu) 1) (SmallDone p sh live cpu n) := by
  have hmem : pg ∈ sh.pages := by rw [hpages]; simp
  have hrepr : pg.Repr (s.setLock (.pagelist cpu) 1).mem := h.holds.pages pg hmem
  refine wp_post (wp_within (wp_kallocFast_page h.sound hpages hrepr hcls hruns)
    (pageFoot_sub_of_mem hmem)) ?_
  rintro a t ⟨⟨rfl, hpop, hnext, hvar, hlock⟩, hframe⟩
  refine ⟨_, .pop hpages howner hcls hruns,
    h.sound.pop hpages hruns (small_of_le hn) hcls.symm rfl, ?_,
    unlocked_restore h.unlocked hcpu hlock⟩
  rw [hvar]
  have hpage := h.holds.page h.sound hpages pg.pop rfl rfl hpop hnext
    fun y hy => hframe.mem y fun hw => hy hw.1
  exact hpage.add_small hn

/-- Setting up a page that is not set up yet. -/
theorem wp_initFirstPage_page {base : ℕ} (hs : Sound p sh live)
    (hpages : sh.pages = P₁ ++ Page.whole cpu base (roundSize n) :: P₂) (hn : n ≤ 16384) :
    wp (pageFoot (Page.whole cpu base (roundSize n)) cpu live []).Allows
      (initFirstPage base (roundSize n)) s fun _ s' =>
      (Page.whole cpu base (roundSize n)).Repr s'.mem ∧ nextAt s'.mem base = 0 ∧
        s'.var = s.var ∧ s'.lock = s.lock := by
  have hv := (hs.pages (Page.whole cpu base (roundSize n)) (by rw [hpages]; simp)).1
  have hrun : (⟨base + roundSize n, pageBytes - roundSize n⟩ : Region) ∈
      (Page.whole cpu base (roundSize n)).runs := List.mem_singleton_self _
  obtain ⟨hrec, hspan⟩ := run_record hv hrun
  exact wp_initFirstPage (sizeClass_roundSize hn) hv.max
    (pageFoot_owns hv.base_pos (page_record _) (hs.header_clear hpages) rfl)
    (pageFoot_node hv.base_pos ⟨le_trans hspan.1 hrec.1, le_trans hrec.2 hspan.2⟩
      (hs.run_clear hpages hrun hrec) (.inr ⟨_, hrun, hrec⟩))

/-- Taking block 1 of a page whose nodes are not set up yet; `t` is the state in
which the header already has the class. -/
theorem wp_takeFirstBlock_page {t : PmmState} {base : ℕ} (hs : Sound p sh live)
    (hpages : sh.pages = P₁ ++ Page.whole cpu base (roundSize n) :: P₂) (hn : n ≤ 16384)
    (hsize : sizeAt t.mem base = roundSize n) (hindex : wordAt t.mem base = 1) :
    wp (pageFoot (Page.whole cpu base (roundSize n)) cpu live []).Allows
      (takeFirstBlock cpu base (roundSize n)) t fun ret s' =>
      ret = base + roundSize n ∧ (Page.fresh cpu base (roundSize n)).Repr s'.mem ∧
        nextAt s'.mem base = nextAt t.mem base ∧ s'.var = t.var ∧
        s'.lock = (t.setLock (.pagelist cpu) 0).lock := by
  have hmem : Page.whole cpu base (roundSize n) ∈ sh.pages := by rw [hpages]; simp
  have hv := (hs.pages _ hmem).1
  have hclass := sizeClass_roundSize hn
  have hge := hclass.ge
  have hle := hclass.le
  have hpb : pageBytes = 65536 := rfl
  have hpos : 0 < base := hv.base_pos
  have hrun : (⟨base + roundSize n, pageBytes - roundSize n⟩ : Region) ∈
      (Page.whole cpu base (roundSize n)).runs := List.mem_singleton_self _
  have hspan := (run_record hv hrun).2
  have hin : ∀ q m, Within ⟨q, m⟩ ⟨base + roundSize n, pageBytes - roundSize n⟩ →
      Within ⟨q, m⟩ (Page.whole cpu base (roundSize n)).span := fun q m hq =>
    ⟨le_trans hspan.1 hq.1, le_trans hq.2 hspan.2⟩
  have hnode : Within ⟨base + 2 * roundSize n, headerBytes⟩
      ⟨base + roundSize n, pageBytes - roundSize n⟩ := by
    unfold Within Region.stop headerBytes
    simp only
    omega
  have hbytes : Within ⟨base + roundSize n, roundSize n⟩
      ⟨base + roundSize n, pageBytes - roundSize n⟩ := by
    unfold Within Region.stop
    simp only
    omega
  refine wp_takeFirstBlock hclass hv.max hsize hindex
    (.of_owns (pageFoot_owns hpos (page_record _) (hs.header_clear hpages) rfl)) ?_
    (pageFoot_owns hpos (hin _ _ hbytes) (hs.run_clear hpages hrun hbytes) trivial) rfl
  exact pageFoot_node hpos (hin _ _ hnode) (hs.run_clear hpages hrun hnode) (.inr ⟨_, hrun, hnode⟩)

end Small

section Heap

variable {p : Platform} {sh : Shape} {live : List Block} {s : PmmState} {l₁ l₂ : List Region}
  {r : Region} {T : List ℕ}

theorem mem_beside_page {pg : Page} (l : List Region) (hpg : pg ∈ sh.pages) :
    pg.span ∈ sh.beside live l :=
  List.mem_append_right _ (List.mem_append_left _ (List.mem_map_of_mem hpg))

theorem mem_beside_huge {b : Block} (l : List Region) (hb : b ∈ live) (hbh : b.Huge) :
    b.span ∈ sh.beside live l :=
  List.mem_append_right _ (List.mem_append_right _ (mem_huge_spans hb hbh))

/-- The first node that can hold a page gives one. -/
theorem wp_allockpage_inv (hs : Sound p sh live) (h : Holds p sh live s.mem s.var)
    (hlock : s.lock .heapLock = 0) (hfree : sh.free = l₁ ++ r :: l₂)
    (hsmall : ∀ x ∈ l₁, x.len < pageBytes) (hfit : pageBytes ≤ r.len)
    (hrest : ∀ q ∈ afterPage r, ∀ u ∈ sh.beside live (l₁ ++ l₂), q.node.Disj u) :
    wp (callFoot sh live T).Allows allockpage s fun page s' =>
      page = r.start ∧ Holds p ⟨l₁ ++ afterPage r ++ l₂, sh.pages⟩ live s'.mem s'.var ∧
        (∀ cpu, s'.var (.pagehead cpu) = s.var (.pagehead cpu)) ∧ s'.lock = s.lock := by
  have hr : r ∈ sh.free := by rw [hfree]; simp
  obtain ⟨-, hlo, hhi⟩ := hs.free r hr
  have hmax := p.limit_max
  have hstart := p.heapStart_pos
  -- the nodes keep clear of the pages and of the large blocks
  have hclear : ∀ x ∈ sh.free ++ afterPage r, (∀ pg ∈ sh.pages, x.node.Disj pg.span) ∧
      ∀ b ∈ live, b.Huge → x.node.Disj b.span := by
    intro x hx
    rcases List.mem_append.mp hx with hx | hx
    · exact ⟨fun pg hpg => hs.free_page hx hpg, fun b hb hbh => hs.free_huge hx hb hbh⟩
    · exact ⟨fun pg hpg => hrest x hx _ (mem_beside_page _ hpg),
        fun b hb hbh => hrest x hx _ (mem_beside_huge _ hb hbh)⟩
  have hsub : (heapFoot (sh.free ++ afterPage r) (fun _ => False) 0).Sub (callFoot sh live T) := by
    refine heapFoot_sub (fun x hx b hb => hs.disj_all (hclear x hx).1 (hclear x hx).2 hb) ?_ ?_
    · intro x hx
      rcases List.mem_append.mp hx with hx | hx
      · exact .inl hx
      · exact .inr (.inl ⟨r, hr, hx⟩)
    · exact fun _ h => h.elim
  have howns : ∀ x ∈ sh.free,
      (heapFoot (sh.free ++ afterPage r) (fun _ => False) 0).Owns .freenode x.start 16 :=
    fun x hx => heapFoot_node (hs.free_pos hx) (List.mem_append_left _ hx)
  have hnew : r.len ≠ pageBytes →
      (heapFoot (sh.free ++ afterPage r) (fun _ => False) 0).Owns .freenode
        (r.start + pageBytes) 16 ∧ ∀ x ∈ l₁ ++ l₂, Apart (r.start + pageBytes) x.start := by
    intro hne
    have hmem : (⟨r.start + pageBytes, r.len - pageBytes⟩ : Region) ∈ afterPage r := by
      unfold afterPage
      rw [if_neg hne]
      exact List.mem_singleton_self _
    refine ⟨heapFoot_node (Nat.add_pos_right _ (by decide)) (List.mem_append_right _ hmem), ?_⟩
    intro x hx
    have hd := hrest _ hmem x.node (List.mem_append_left _ (List.mem_map_of_mem hx))
    unfold Disj Region.node Region.stop headerBytes at hd
    unfold Apart
    simp only at hd
    omega
  have hcount := hs.free_count
  have hsep := hs.separated
  have hlist := h.heap
  rw [hfree] at hcount hsep hlist
  have hpage := wp_allockpage (F := heapFoot (sh.free ++ afterPage r) (fun _ => False) 0) hlist
    hlock (.inl rfl) (.of_owns (fun x hx => howns x (by rwa [hfree])) rfl rfl) hcount hsep hsmall
    hfit (by omega) hnew
  refine wp_post (wp_within hpage hsub) ?_
  rintro page t ⟨⟨rfl, hlist', hlock', -⟩, hframe⟩
  have hvar : ∀ cpu, t.var (.pagehead cpu) = s.var (.pagehead cpu) :=
    fun cpu => hframe.var _ (by rintro ⟨⟩)
  refine ⟨rfl, ?_, hvar, hlock'⟩
  refine h.heap_changed (sh.free ++ afterPage r) hlist' hvar ?_
    (fun pg hpg => (hs.pages pg hpg).1) (fun x hx => (hclear x hx).1) fun x hx => (hclear x hx).2
  exact fun y hy => hframe.mem y fun ⟨x, hx, hxy⟩ => hy x hx hxy

/-- Without a node that can hold a page, the caller gets 0. -/
theorem wp_allockpage_refused (hs : Sound p sh live) (h : Holds p sh live s.mem s.var)
    (hlock : s.lock .heapLock = 0) (hsmall : ∀ x ∈ sh.free, x.len < pageBytes) :
    wp (callFoot sh live T).Allows allockpage s fun page s' => page = 0 ∧ s' = s := by
  have hw : Walkable (callFoot sh live T) sh.free :=
    ⟨fun x hx => ⟨(hs.free_pos hx).ne', .inr ⟨x, hx, .inl (node_record x)⟩, fun _ _ _ => trivial⟩,
      hs.free_count⟩
  refine wp_allockpage_none h.heap.path hw.starts (by rw [List.length_map]; exact hw.len) hlock
    trivial trivial fun x hx => ?_
  obtain ⟨r, hr, rfl⟩ := List.mem_map.mp hx
  rw [h.heap.size r hr]
  exact_mod_cast hsmall r hr

end Heap

section Slow

variable {p : Platform} {sh : Shape} {live : List Block} {s : PmmState} {cpu n : ℕ}
  {pg : Page} {P₁ P₂ : List Page} {l : List Region} {r : Region} {T : List ℕ}

/-- Outside a page its header is not written. -/
theorem outside_header {base y : ℕ} (hy : ¬ Region.Contains ⟨base, pageBytes⟩ y) :
    y < base ∨ base + 16 ≤ y := by
  unfold Region.Contains Region.stop pageBytes at hy
  simp only at hy
  omega

/-- An empty page is used for the class of the request. -/
theorem wp_recycle (h : Inv p ⟨s, live⟩ sh) (hcpu : cpu < p.cpuCount) (hn : n ≤ 16384)
    (hpages : sh.pages = P₁ ++ pg :: P₂) (howner : pg.owner = cpu) (hcls : pg.cls = 0) :
    wp (callFoot sh live []).Allows (do
      Pageheader.setSize pg.base (roundSize n)
      takeFirstBlock cpu pg.base (roundSize n) : Code ℕ) (s.setLock (.pagelist cpu) 1)
      (SmallDone p sh live cpu n) := by
  have hmem : pg ∈ sh.pages := by rw [hpages]; simp
  have hclass := sizeClass_roundSize hn
  have hge := hclass.ge
  have hle := hclass.le
  have hpb : pageBytes = 65536 := rfl
  have hrepr := h.holds.pages pg hmem
  have hpos := (h.sound.pages pg hmem).1.base_pos
  have hwhole : Sound p ⟨sh.free, P₁ ++ Page.whole cpu pg.base (roundSize n) :: P₂⟩ live := by
    rw [← howner]
    exact h.sound.recycle hpages hcls hclass
  have hsub : (pageFoot (Page.whole cpu pg.base (roundSize n)) cpu live []).Sub
      (callFoot sh live []) := by
    refine pageFoot_sub (.inl ⟨pg, hmem, rfl⟩) fun r hr q hin => ?_
    obtain rfl := List.mem_singleton.mp hr
    refine .inr ⟨pg, hmem, .inr ⟨hcls, ?_⟩⟩
    unfold Within Region.stop headerBytes at *
    simp only at *
    omega
  have hbase : (pageFoot (Page.whole cpu pg.base (roundSize n)) cpu live []).Owns .pageheader
      pg.base 16 :=
    pageFoot_owns hpos (page_record _) (h.sound.header_clear hpages) rfl
  have htake : wp (pageFoot (Page.whole cpu pg.base (roundSize n)) cpu live []).Allows (do
      Pageheader.setSize pg.base (roundSize n)
      takeFirstBlock cpu pg.base (roundSize n) : Code ℕ) (s.setLock (.pagelist cpu) 1)
      fun ret s' => ret = pg.base + roundSize n ∧
        (Page.fresh cpu pg.base (roundSize n)).Repr s'.mem ∧
        nextAt s'.mem pg.base = nextAt s.mem pg.base ∧ s'.var = s.var ∧
        s'.lock = ((s.setLock (.pagelist cpu) 1).setLock (.pagelist cpu) 0).lock := by
    rw [wp_bind, wp_writeSize hbase]
    refine wp_post (wp_takeFirstBlock_page hwhole rfl hn ?_ ?_) ?_
    · exact sizeAt_setSizeAt _ _ (by omega) (by omega)
    · refine (wordAt_setSizeAt _ _ _).trans (hrepr.index.trans ?_)
      rw [Page.index, if_pos hcls]
    · rintro ret t ⟨h₁, h₂, h₃, h₄, h₅⟩
      exact ⟨h₁, h₂, h₃.trans (nextAt_setSizeAt _ _ _), h₄, h₅⟩
  refine wp_post (wp_within htake hsub) ?_
  rintro a t ⟨⟨rfl, hfresh, hnext, hvar, hlock⟩, hframe⟩
  refine ⟨_, .recycle hpages howner hcls, hwhole.fresh hn, ?_,
    unlocked_restore h.unlocked hcpu hlock⟩
  rw [hvar]
  have hpage := h.holds.page h.sound hpages (Page.fresh cpu pg.base (roundSize n)) rfl
    howner.symm hfresh hnext
    fun y hy => hframe.mem y fun hw => hy hw.1
  exact hpage.add_small hn

/-- A page cut off a free node touches what a call may touch. -/
theorem pageFoot_sub_of_free {c : ℕ} {keep : List Block} (hr : r ∈ sh.free)
    (hfit : pageBytes ≤ r.len) (hc : c ≤ pageBytes) :
    (pageFoot (Page.whole cpu r.start c) cpu keep T).Sub (callFoot sh keep T) := by
  refine pageFoot_sub (.inr ⟨r, hr, rfl⟩) fun x hx q hin => .inl ⟨r, hr, ?_⟩
  obtain rfl := List.mem_singleton.mp hx
  unfold Region.node Within Region.stop headerBytes at *
  simp only at *
  omega

/-- The first link of a page list is an address. -/
theorem Holds.pagehead_lt (hs : Sound p sh live) (h : Holds p sh live s.mem s.var)
    (hcpu : cpu < p.cpuCount) : s.var (.pagehead cpu) < 18446744073709551616 := by
  have hpath := h.lists cpu hcpu
  cases hl : sh.pagesOf cpu with
  | nil =>
    rw [hl] at hpath
    have h0 : s.var (.pagehead cpu) = 0 := hpath
    omega
  | cons pg rest =>
    rw [hl] at hpath
    have hbase : s.var (.pagehead cpu) = pg.base := hpath.1
    have hmem : pg ∈ sh.pagesOf cpu := by rw [hl]; simp
    have := (hs.pages pg (List.mem_filter.mp hmem).1).1.max
    omega

/-- The header of a new page is written and block 1 is taken. -/
theorem wp_extendPage {u : PmmState} (hu : Holds p ⟨l, sh.pages⟩ live u.mem u.var)
    (hhead : u.var (.pagehead cpu) < 18446744073709551616)
    (hwhole : Sound p ⟨l, Page.whole cpu r.start (roundSize n) :: sh.pages⟩ live)
    (hr : r ∈ sh.free) (hfit : pageBytes ≤ r.len) (hn : n ≤ 16384) :
    wp (callFoot sh live []).Allows (do
      let rest ← getGlobal (.pagehead cpu)
      Pageheader.setNext r.start rest
      Pageheader.setSize r.start (roundSize n)
      Pageheader.setPagefreeheadIndex r.start 1
      setGlobal (.pagehead cpu) r.start
      takeFirstBlock cpu r.start (roundSize n) : Code ℕ) u fun a s' =>
      a = r.start + roundSize n ∧
        Holds p ⟨l, Page.fresh cpu r.start (roundSize n) :: sh.pages⟩ live s'.mem s'.var ∧
        s'.lock = (u.setLock (.pagelist cpu) 0).lock := by
  have hclass := sizeClass_roundSize hn
  have hge := hclass.ge
  have hle := hclass.le
  have hpb : pageBytes = 65536 := rfl
  have hpos : 0 < r.start := (hwhole.pages _ List.mem_cons_self).1.base_pos
  have hcons : (⟨l, Page.whole cpu r.start (roundSize n) :: sh.pages⟩ : Shape).pages =
      [] ++ Page.whole cpu r.start (roundSize n) :: sh.pages := rfl
  have hsub : (pageFoot (Page.whole cpu r.start (roundSize n)) cpu live []).Sub
      (callFoot sh live []) := pageFoot_sub_of_free hr hfit (by omega)
  have hbase : (pageFoot (Page.whole cpu r.start (roundSize n)) cpu live []).Owns .pageheader
      r.start 16 :=
    pageFoot_owns hpos (page_record _) (hwhole.header_clear hcons) rfl
  have hbase' : (callFoot sh live []).Owns .pageheader r.start 16 :=
    ⟨⟨hbase.ne_null, hsub.derefs _ _ hbase.derefs, fun _ _ _ => trivial⟩,
      fun x h₁ h₂ => hsub.writes _ (hbase.writes x h₁ h₂)⟩
  set m₁ := setWordAt (setSizeAt (setNextAt u.mem r.start (u.var (.pagehead cpu))) r.start
    (roundSize n)) r.start 1 with hm₁
  have hnext₁ : nextAt m₁ r.start = u.var (.pagehead cpu) := by
    rw [hm₁, nextAt_setWordAt, nextAt_setSizeAt, nextAt_setNextAt _ _ hhead]
  have hout₁ : ∀ y, ¬ (Page.whole cpu r.start (roundSize n)).span.Contains y →
      m₁ y = u.mem y := by
    intro y hy
    have hy : y < r.start ∨ r.start + 16 ≤ y := outside_header hy
    rw [hm₁, setWordAt_outside _ _ hy, setSizeAt_outside _ _ hy, setNextAt_outside _ _ hy]
  rw [wp_bind, wp_getGlobal trivial, wp_bind, wp_writePtr hbase', wp_bind, wp_writeSize hbase',
    wp_bind, wp_writeWord hbase', wp_bind, wp_setGlobal trivial]
  refine wp_post (wp_within (wp_takeFirstBlock_page hwhole hcons hn ?_ ?_) hsub) ?_
  · exact (sizeAt_setWordAt _ _ _).trans (sizeAt_setSizeAt _ _ (by omega) (by omega))
  · exact wordAt_setWordAt _ _ (by omega)
  · rintro a t ⟨⟨rfl, hfresh, hnext, hvar, hlock⟩, hframe⟩
    refine ⟨rfl, ?_, hlock⟩
    have hfull : Sound p ⟨l, [] ++ Page.fresh cpu r.start (roundSize n) :: sh.pages⟩
        (⟨r.start + roundSize n, n⟩ :: live) := Sound.fresh hn hwhole
    refine Holds.addPage (hfull.sublist (List.sublist_cons_self _ _)) hu hfresh
      (hnext.trans hnext₁) hvar fun y hy => ?_
    exact (hframe.mem y fun hw => hy hw.1).trans (hout₁ y hy)

/-- A small allocation was refused and changed nothing, or gave a block. -/
def SmallResult (p : Platform) (sh : Shape) (live : List Block) (s : PmmState)
    (cpu n a : ℕ) (s' : PmmState) : Prop :=
  (a = 0 ∧ s' = s ∧ SmallRefused sh cpu (roundSize n)) ∨ SmallDone p sh live cpu n a s'

/-- The slow path: an empty page of the CPU, a new page, or nothing. -/
theorem wp_kallocSlow_inv (h : Inv p ⟨s, live⟩ sh) (hcpu : cpu < p.cpuCount) (hn : n ≤ 16384)
    (hroom : RoomAfterPage sh live)
    (hnone : ∀ pg ∈ sh.pagesOf cpu, pg.cls = roundSize n → pg.runs = []) :
    wp (callFoot sh live []).Allows (kallocSlow cpu (roundSize n))
      (s.setLock (.pagelist cpu) 1) (SmallResult p sh live s cpu n) := by
  have hclass := sizeClass_roundSize hn
  have hpath := h.holds.lists cpu hcpu
  have hlock : (s.setLock (.pagelist cpu) 1).lock .heapLock = 0 := by
    rw [Store.setLock_lock, if_neg (by rintro ⟨⟩)]
    exact h.unlocked.1
  unfold kallocSlow
  rw [wp_bind, wp_getGlobal trivial, wp_bind]
  refine wp_findEmpty hpath (fun x hx => callFoot_header h.sound hx)
    (h.sound.pages_count (pagesOf_sublist sh cpu)) ?_
  rcases find_page (sh.pagesOf cpu) (fun x => decide (sizeAt s.mem x = 0 ∧ 0 < wordAt s.mem x))
    with ⟨hfind, hnoempty⟩ | ⟨pg, hpg, htest, hfind⟩
  · have hrefused : ∀ pg ∈ sh.pagesOf cpu, (pg.cls = roundSize n → pg.runs = []) ∧ pg.cls ≠ 0 := by
      refine fun pg hpg => ⟨hnone pg hpg, fun hcls => ?_⟩
      have hrepr := h.holds.pages pg (List.mem_filter.mp hpg).1
      simpa [(empty_iff hrepr).mpr hcls] using hnoempty pg hpg
    rw [Store.setLock_mem, hfind, if_neg (by simp)]
    rcases firstFit_cases sh.free with hsmall | ⟨l₁, r, l₂, hfree, hsmall, hfit⟩
    · rw [wp_bind]
      refine wp_post (wp_allockpage_refused h.sound h.holds hlock hsmall) ?_
      rintro _ t ⟨rfl, rfl⟩
      rw [if_neg (by simp), wp_bind, wp_unlock trivial, wp_pure]
      exact .inl ⟨rfl, setLock_setLock (h.unlocked.2 cpu hcpu), hrefused, hsmall⟩
    · have hr : r ∈ sh.free := by rw [hfree]; simp
      have hrest := hroom l₁ r l₂ hfree hsmall hfit
      rw [wp_bind]
      refine wp_post (wp_allockpage_inv h.sound h.holds hlock hfree hsmall hfit hrest) ?_
      rintro _ t ⟨rfl, ht, hvar, htlock⟩
      have hwhole := h.sound.newPage hfree hfit hclass hcpu hrest
      rw [if_pos (h.sound.free_pos hr).ne']
      have hhead : t.var (.pagehead cpu) < 18446744073709551616 := by
        rw [hvar]
        exact Holds.pagehead_lt h.sound h.holds hcpu
      refine wp_post (wp_extendPage ht hhead hwhole hr hfit hn) ?_
      rintro _ t' ⟨rfl, ht', ht'lock⟩
      have hfresh : Sound p ⟨l₁ ++ afterPage r ++ l₂,
          [] ++ Page.fresh cpu r.start (roundSize n) :: sh.pages⟩
          (⟨r.start + roundSize n, n⟩ :: live) := Sound.fresh hn hwhole
      refine .inr ⟨_, .extend hfree hsmall hfit, hfresh, ht'.add_small hn,
        unlocked_restore h.unlocked hcpu ?_⟩
      rw [ht'lock]
      simp only [Store.setLock, htlock]
  · obtain ⟨P₁, P₂, hpages⟩ := List.append_of_mem (List.mem_filter.mp hpg).1
    have howner : pg.owner = cpu := by simpa using (List.mem_filter.mp hpg).2
    have hrepr := h.holds.pages pg (List.mem_filter.mp hpg).1
    have hcls : pg.cls = 0 := (empty_iff hrepr).mp (by simpa using htest)
    rw [Store.setLock_mem, hfind,
      if_pos (h.sound.pages pg (List.mem_filter.mp hpg).1).1.base_pos.ne']
    exact wp_post (wp_recycle h hcpu hn hpages howner hcls) fun _ _ => .inr

end Slow

section First

variable {p : Platform} {sh : Shape} {live : List Block} {s : PmmState} {cpu n : ℕ}
  {l₁ l₂ : List Region} {r : Region} {T : List ℕ}

theorem pagelist_ne_heap (hl : s.lock .heapLock = 0) :
    (s.setLock (.pagelist cpu) 1).lock .heapLock = 0 := by
  rw [Store.setLock_lock, if_neg (by rintro ⟨⟩)]
  exact hl

/-- Later allocations search the pages that the CPU has. -/
theorem wp_kallocPaged_inv (h : Inv p ⟨s, live⟩ sh) (hcpu : cpu < p.cpuCount) (hn : n ≤ 16384)
    (hroom : RoomAfterPage sh live) :
    wp (callFoot sh live []).Allows (kallocPaged cpu (roundSize n)) s
      (SmallResult p sh live s cpu n) := by
  have hclass := sizeClass_roundSize hn
  unfold kallocPaged
  rw [wp_bind, wp_lock trivial (h.unlocked.2 cpu hcpu), wp_bind, wp_getGlobal trivial, wp_bind]
  refine wp_findSized (h.holds.lists cpu hcpu) (fun x hx => callFoot_header h.sound hx)
    (h.sound.pages_count (pagesOf_sublist sh cpu)) ?_
  rw [Store.setLock_mem]
  rcases find_page (sh.pagesOf cpu)
    (fun x => decide (toSize (sizeAt s.mem x) = roundSize n ∧ 0 < wordAt s.mem x))
    with ⟨hfind, hnone⟩ | ⟨pg, hpg, htest, hfind⟩
  · rw [hfind, if_neg (by simp)]
    refine wp_kallocSlow_inv h hcpu hn hroom fun pg hpg hcls => ?_
    have hmem := (List.mem_filter.mp hpg).1
    have hsized := sized_iff (h.sound.pages pg hmem).1 (h.holds.pages pg hmem) hclass
    by_contra hruns
    simpa [hsized.mpr ⟨hcls, hruns⟩] using hnone pg hpg
  · have hmem := (List.mem_filter.mp hpg).1
    have howner : pg.owner = cpu := by simpa using (List.mem_filter.mp hpg).2
    obtain ⟨P₁, P₂, hpages⟩ := List.append_of_mem hmem
    have hv := (h.sound.pages pg hmem).1
    obtain ⟨hcls, hruns⟩ :=
      (sized_iff hv (h.holds.pages pg hmem) hclass).mp (by simpa using htest)
    obtain ⟨r, rest, hruns⟩ := List.exists_cons_of_ne_nil hruns
    rw [hfind, if_pos hv.base_pos.ne']
    exact wp_post (wp_kallocFast_inv h hcpu hn hpages howner hcls hruns) fun _ _ => .inr

/-- The first allocation of a CPU gives it a page with all blocks free. -/
theorem wp_kallocFirst_inv (h : Inv p ⟨s, live⟩ sh) (hcpu : cpu < p.cpuCount) (hn : n ≤ 16384)
    (hempty : sh.pagesOf cpu = []) (hfree : sh.free = l₁ ++ r :: l₂)
    (hsmall : ∀ x ∈ l₁, x.len < pageBytes) (hfit : pageBytes ≤ r.len)
    (hrest : ∀ q ∈ afterPage r, ∀ u ∈ sh.beside live (l₁ ++ l₂), q.node.Disj u) :
    wp (callFoot sh live []).Allows (kallocFirst cpu (roundSize n)) s fun _ s' =>
      Inv p ⟨s', live⟩
        ⟨l₁ ++ afterPage r ++ l₂, Page.whole cpu r.start (roundSize n) :: sh.pages⟩ := by
  have hr : r ∈ sh.free := by rw [hfree]; simp
  have hpos := h.sound.free_pos hr
  have hclass := sizeClass_roundSize hn
  have hle := hclass.le
  have hwhole := h.sound.newPage hfree hfit hclass hcpu hrest
  have hcons : (⟨l₁ ++ afterPage r ++ l₂, Page.whole cpu r.start (roundSize n) :: sh.pages⟩ :
      Shape).pages = [] ++ Page.whole cpu r.start (roundSize n) :: sh.pages := rfl
  have hsub : (pageFoot (Page.whole cpu r.start (roundSize n)) cpu live []).Sub
      (callFoot sh live []) := pageFoot_sub_of_free hr hfit (le_trans hle (by decide))
  unfold kallocFirst
  rw [wp_bind, wp_lock trivial (h.unlocked.2 cpu hcpu), wp_bind]
  refine wp_post (wp_allockpage_inv h.sound h.holds (pagelist_ne_heap h.unlocked.1) hfree hsmall
    hfit hrest) ?_
  rintro _ t ⟨rfl, ht, hvar, htlock⟩
  rw [wp_bind, wp_setGlobal trivial, wp_bind, wp_getGlobal trivial, wp_bind, wp_check,
    Store.setVar_var, if_pos rfl]
  refine ⟨hpos.ne', ?_⟩
  rw [wp_bind]
  refine wp_post (wp_within (wp_initFirstPage_page hwhole hcons hn) hsub) ?_
  rintro _ t' ⟨⟨hrepr, hnext, ht'var, ht'lock⟩, hframe⟩
  rw [wp_unlock trivial]
  refine ⟨hwhole, ?_, unlocked_restore h.unlocked hcpu ?_⟩
  · have hhead : t.var (.pagehead cpu) = 0 := by
      have hpath := h.holds.lists cpu hcpu
      rw [hempty] at hpath
      exact (hvar cpu).trans hpath
    exact Holds.addPage hwhole ht hrepr (hnext.trans hhead.symm) ht'var
      fun y hy => hframe.mem y fun hw => hy hw.1
  · simp only [Store.setLock, ht'lock, htlock, Store.setVar]

theorem pagesOf_whole {l : List Region} {base c : ℕ} (hempty : sh.pagesOf cpu = []) :
    (⟨l, Page.whole cpu base c :: sh.pages⟩ : Shape).pagesOf cpu = [Page.whole cpu base c] := by
  unfold Shape.pagesOf at *
  rw [List.filter_cons_of_pos (by simp [Page.whole]), hempty]

/-- The first block of a CPU comes from its first page. -/
theorem wp_kallocPaged_first {l : List Region}
    (h : Inv p ⟨s, live⟩ ⟨l, Page.whole cpu r.start (roundSize n) :: sh.pages⟩)
    (hcpu : cpu < p.cpuCount) (hn : n ≤ 16384) (hr : r ∈ sh.free) (hfit : pageBytes ≤ r.len)
    (honly : (⟨l, Page.whole cpu r.start (roundSize n) :: sh.pages⟩ : Shape).pagesOf cpu =
      [Page.whole cpu r.start (roundSize n)]) :
    wp (callFoot sh live []).Allows (kallocPaged cpu (roundSize n)) s fun a s' =>
      a = r.start + roundSize n ∧ Inv p ⟨s', ⟨a, n⟩ :: live⟩
        ⟨l, Page.fresh cpu r.start (roundSize n) :: sh.pages⟩ := by
  set pg := Page.whole cpu r.start (roundSize n) with hpg
  have hclass := sizeClass_roundSize hn
  have hsub : (pageFoot pg cpu live []).Sub (callFoot sh live []) :=
    pageFoot_sub_of_free hr hfit (le_trans hclass.le (by decide))
  have hcons : (⟨l, pg :: sh.pages⟩ : Shape).pages = [] ++ pg :: sh.pages := rfl
  have hv := (h.sound.pages pg List.mem_cons_self).1
  have hrepr := h.holds.pages pg List.mem_cons_self
  have hpath := h.holds.lists cpu hcpu
  have hcount := h.sound.pages_count (pagesOf_sublist _ cpu)
  rw [honly] at hpath hcount
  have hsized := (sized_iff hv hrepr hclass).mpr ⟨rfl, by simp [hpg, Page.whole]⟩
  have hsees : ∀ x ∈ [pg].map Page.base, (callFoot sh live []).Sees .pageheader x 16 := by
    intro x hx
    obtain rfl : x = pg.base := by simpa using hx
    exact ⟨hv.base_pos.ne', .inr ⟨r, hr, rfl⟩, fun _ _ _ => trivial⟩
  unfold kallocPaged
  rw [wp_bind, wp_lock trivial (h.unlocked.2 cpu hcpu), wp_bind, wp_getGlobal trivial, wp_bind]
  refine wp_findSized hpath hsees hcount ?_
  rw [Store.setLock_mem, List.map_cons, List.find?_cons_of_pos (by simpa using hsized),
    Option.getD_some, if_pos hv.base_pos.ne']
  refine wp_post (wp_within (wp_kallocFast_page h.sound hcons hrepr rfl rfl) hsub) ?_
  rintro a t ⟨⟨rfl, hpop, hnext, hvar, hlock⟩, hframe⟩
  have hfresh : Sound p ⟨l, [] ++ Page.fresh cpu r.start (roundSize n) :: sh.pages⟩
      (⟨r.start + roundSize n, n⟩ :: live) := Sound.fresh hn h.sound
  refine ⟨rfl, hfresh, ?_, unlocked_restore h.unlocked hcpu hlock⟩
  rw [hpg, Page.pop_whole hclass] at hpop
  rw [hvar]
  have hpage := h.holds.page h.sound hcons (Page.fresh cpu r.start (roundSize n)) rfl rfl hpop
    hnext fun y hy => hframe.mem y fun hw => hy hw.1
  exact hpage.add_small hn

/-- A small request, whose CPU has a page or can get one. -/
theorem wp_kallocSmall_inv (h : Inv p ⟨s, live⟩ sh) (hcpu : cpu < p.cpuCount) (hn : n ≤ 16384)
    (hroom : RoomAfterPage sh live)
    (hpage : sh.pagesOf cpu = [] → ∃ r ∈ sh.free, pageBytes ≤ r.len) :
    wp (callFoot sh live []).Allows (kallocSmall p cpu (roundSize n)) s
      (SmallResult p sh live s cpu n) := by
  have hpath := h.holds.lists cpu hcpu
  unfold kallocSmall
  rw [wp_bind, wp_check]
  refine ⟨hcpu.le, ?_⟩
  rw [wp_bind, wp_getGlobal trivial]
  cases hpages : sh.pagesOf cpu with
  | cons pg rest =>
    have hmem : pg ∈ sh.pagesOf cpu := by rw [hpages]; simp
    have hne : s.var (.pagehead cpu) ≠ 0 := by
      rw [hpages] at hpath
      have hbase : s.var (.pagehead cpu) = pg.base := hpath.1
      rw [hbase]
      exact (h.sound.pages pg (List.mem_filter.mp hmem).1).1.base_pos.ne'
    rw [if_neg hne]
    exact wp_kallocPaged_inv h hcpu hn hroom
  | nil =>
    rw [hpages] at hpath
    have hzero : s.var (.pagehead cpu) = 0 := hpath
    obtain ⟨x, hx, hxlen⟩ := hpage hpages
    rcases firstFit_cases sh.free with hsmall | ⟨l₁, r, l₂, hfree, hsmall, hfit⟩
    · have := hsmall x hx
      omega
    · have hr : r ∈ sh.free := by rw [hfree]; simp
      have hrest := hroom l₁ r l₂ hfree hsmall hfit
      rw [if_pos hzero, wp_bind]
      refine wp_post (wp_kallocFirst_inv h hcpu hn hpages hfree hsmall hfit hrest) ?_
      intro _ t ht
      refine wp_post (wp_kallocPaged_first ht hcpu hn hr hfit (pagesOf_whole hpages)) ?_
      rintro a t' ⟨rfl, hinv⟩
      exact .inr ⟨_, .extend hfree hsmall hfit, hinv⟩

/-- When its first page cannot be had, a CPU stops in an assertion. -/
theorem exec_kallocSmall_nopage (hcpu : cpu < p.cpuCount) (hzero : s.var (.pagehead cpu) = 0)
    (hlock : s.lock (.pagelist cpu) = 0)
    (hpage : Prog.exec allockpage (s.setLock (.pagelist cpu) 1) =
      .ok (0, s.setLock (.pagelist cpu) 1)) (c : ℕ) :
    Prog.exec (kallocSmall p cpu c) s = .error (.assertion .firstPageAllocated) := by
  have htaken : Prog.exec (lock (.pagelist cpu) : Code Unit) s =
      .ok ((), s.setLock (.pagelist cpu) 1) :=
    exec_of_wp ((wp_lock (F := anyFoot) trivial hlock).mpr ⟨rfl, rfl⟩)
  have hfirst : Prog.exec (kallocFirst cpu c) s = .error (.assertion .firstPageAllocated) := by
    unfold kallocFirst
    rw [exec_bind, htaken]
    simp only
    rw [exec_bind, hpage]
    simp [exec_bind, setGlobal, getGlobal, perform, Prog.exec, Op.run, check]
  have hrange : Prog.exec (check .cpuInRange (cpu ≤ p.cpuCount) : Code Unit) s = .ok ((), s) := by
    rw [check, if_pos hcpu.le]
    rfl
  unfold kallocSmall
  rw [exec_bind, hrange]
  simp only
  rw [exec_bind, show Prog.exec (getGlobal (.pagehead cpu)) s = .ok (0, s) by
    rw [← hzero]
    rfl]
  simp only [if_true]
  rw [exec_bind, hfirst]

end First
end KmallocKfree
