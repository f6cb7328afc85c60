import KmallocKfree.KallocHuge
import KmallocKfree.LocalCalls

/-!
# `kfree` keeps the invariant

`kfree` scans the page lists of all CPUs for the page of the block. A block that lies
in no page is a large one. The walk over the nodes of a page that is full, or was full
when a block of it was freed, runs on into the page headers of the owner's list; that
no header met there touches the freed block is a hypothesis on the state.
-/
namespace KmallocKfree

open Prog Region Shape
open ByteMemory (Mem)

section Scan

variable {p : Platform} {sh : Shape} {live keep : List Block} {s : PmmState} {pg y : Page}
  {ptr n i : ℕ} {T : List ℕ} {P₁ P₂ : List Page} {b : Block}

/-- `ptr` lies in the page, behind its first byte. -/
def InPage (pg : Page) (ptr : ℕ) : Prop := pg.base < ptr ∧ ptr < pg.base + pageBytes

theorem Shape.Sound.inPage_unique (h : Sound p sh live) (hpg : pg ∈ sh.pages) (hy : y ∈ sh.pages)
    (hin : InPage pg ptr) (hin' : InPage y ptr) : y = pg := by
  by_contra hne
  obtain ⟨P₁, P₂, hpages⟩ := List.append_of_mem hpg
  have hmem : y ∈ P₁ ++ P₂ := by
    rw [hpages] at hy
    simpa [hne] using hy
  have hd := h.page_page hpages hmem
  unfold Disj Page.span Region.stop at hd
  unfold InPage at hin hin'
  simp only at hd
  omega

/-- The page lists of a state that holds the shape. -/
theorem Holds.listed (hs : Sound p sh live) (h : Holds p sh live s.mem s.var) :
    Listed p s fun cpu => (sh.pagesOf cpu).map Page.base where
  path := h.lists
  nodup cpu _ := hs.bases_nodup.sublist (pagesOf_sublist sh cpu)
  inside cpu _ q hq := by
    obtain ⟨y, hy, rfl⟩ := List.mem_map.mp hq
    have hpaged := hs.paged y (mem_pagesOf.mp hy).1
    have hlimit := p.limit_le
    omega
  apart i _ j _ q hq q' hq' hne := by
    obtain ⟨x, hx, rfl⟩ := List.mem_map.mp hq
    obtain ⟨y, hy, rfl⟩ := List.mem_map.mp hq'
    have hxm := (mem_pagesOf.mp hx).1
    have hym := (mem_pagesOf.mp hy).1
    obtain ⟨P₁, P₂, hpages⟩ := List.append_of_mem hxm
    rw [hpages] at hym
    have hne : y ≠ x := by
      rintro rfl
      exact hne rfl
    exact hs.page_page hpages (show y ∈ P₁ ++ P₂ by simpa [hne] using hym)

/-- The scan over the page lists finds the page of `ptr`, if there is one. -/
theorem wp_scanCpus {Q : ℕ × Bool → PmmState → Prop} (hs : Sound p sh live)
    (h : Holds p sh live s.mem s.var) (hin : i + n ≤ p.cpuCount)
    (hnone : (∀ y ∈ sh.pages, i ≤ y.owner → y.owner < i + n → ¬ InPage y ptr) → Q (0, false) s)
    (hsome : ∀ y ∈ sh.pages, InPage y ptr → Q (y.base, true) s) :
    wp (callFoot sh keep T).Allows (scanCpus ptr n i) s Q := by
  apply (h.listed hs).wp_scanCpus (fun _ _ _ hq => callFoot_header hs hq) (fun _ => trivial) hin
  · intro hrest
    apply hnone
    intro y hy h₁ h₂ hyin
    exact hrest y.owner h₁ h₂ y.base (List.mem_map_of_mem (mem_pagesOf.mpr ⟨hy, rfl⟩)) hyin
  · intro k _ q hq hqin
    obtain ⟨y, hy, rfl⟩ := List.mem_map.mp hq
    exact hsome y (mem_pagesOf.mp hy).1 hqin

/-- A small block lies in its page. -/
theorem Shape.Houses.inPage (h : Houses pg b) (hb : ¬ b.Huge) : InPage pg b.addr := by
  have hbounds := h.bounds
  have hge := (Block.sizeClass hb).ge
  unfold InPage
  omega

/-- A large block lies in no page. -/
theorem Shape.Sound.huge_not_inPage (h : Sound p sh live) (hb : b ∈ live) (hbh : b.Huge)
    (hpg : pg ∈ sh.pages) : ¬ InPage pg b.addr := by
  intro hin
  have hd := h.page_huge hpg hb hbh
  obtain ⟨hreq, haddr, -⟩ := h.huge b hb hbh
  have hsize := b.size_pos hreq
  unfold Disj Page.span Block.span Region.stop headerBytes at hd
  unfold InPage at hin
  unfold headerBytes at haddr
  simp only at hd
  omega

end Scan

/-- The page headers in the list of `cpu`. -/
def pageHeaders (s : PmmState) (cpu : ℕ) : List ℕ :=
  follow (nextAt s.mem) loopBound (s.var (.pagehead cpu))

def IsPageHeader (p : Platform) (s : PmmState) (q : ℕ) : Prop :=
  ∃ cpu < p.cpuCount, q ∈ pageHeaders s cpu

/-- The addresses that the walk over the free list of the page at `ph` visits. -/
def pageWalk (s : PmmState) (ph : ℕ) : List ℕ := follow (nextAt s.mem) loopBound (headAt s.mem ph)

/-- The walk over the free list of the page around `ptr` meets a page header that ends
where the block at `ptr` starts, by the size it states, or that starts where the block
ends. The page branch of `kfree` takes such a header for a free node. -/
def MergesPageHeader (p : Platform) (s : PmmState) (ptr : ℕ) : Prop :=
  ∃ cpu < p.cpuCount, ∃ ph ∈ pageHeaders s cpu, (ph < ptr ∧ ptr < ph + pageBytes) ∧
    ∃ q ∈ pageWalk s ph, IsPageHeader p s q ∧
      (stopAt s.mem q = ptr ∨ q = addPtr ptr (toSize (sizeAt s.mem ph)))

instance (p : Platform) (s : PmmState) (q : ℕ) : Decidable (IsPageHeader p s q) :=
  inferInstanceAs (Decidable (∃ cpu < p.cpuCount, q ∈ pageHeaders s cpu))

instance (p : Platform) (s : PmmState) (ptr : ℕ) : Decidable (MergesPageHeader p s ptr) :=
  inferInstanceAs (Decidable (∃ cpu < p.cpuCount, ∃ ph ∈ pageHeaders s cpu,
    (ph < ptr ∧ ptr < ph + pageBytes) ∧ ∃ q ∈ pageWalk s ph, IsPageHeader p s q ∧
      (stopAt s.mem q = ptr ∨ q = addPtr ptr (toSize (sizeAt s.mem ph)))))

section Page

variable {p : Platform} {sh : Shape} {live keep : List Block} {s : PmmState} {pg : Page}
  {cpu : ℕ} {T : List ℕ} {P₁ P₂ : List Page} {b : Block}

/-- Where the walk over the page's nodes goes on to after them: nowhere, or through
the headers of the owner's list from the page's own on. -/
structure WalkOn (sh : Shape) (pg : Page) (m : Mem) (T : List ℕ) : Prop where
  path : Path (nextAt m) (endOf pg.base pg.runs pg.tail) T 0
  sublist : T.Sublist ((sh.pagesOf pg.owner).map Page.base)
  plain : pg.runs ≠ [] → pg.looped = false → T = []

theorem exists_walkOn {m : Mem} {a : ℕ} (hpg : pg ∈ sh.pages)
    (hpath : Path (nextAt m) a ((sh.pagesOf pg.owner).map Page.base) 0) :
    ∃ T, WalkOn sh pg m T := by
  obtain ⟨A, B, hAB⟩ := List.append_of_mem (mem_pagesOf.mpr ⟨hpg, rfl⟩)
  rw [hAB, List.map_append] at hpath
  obtain ⟨c, -, hc⟩ := Path.append.mp hpath
  by_cases hplain : pg.runs ≠ [] ∧ pg.looped = false
  · refine ⟨[], ?_, List.nil_sublist _, fun _ _ => rfl⟩
    rw [endOf, if_neg hplain.1, Page.tail, hplain.2]
    rfl
  · refine ⟨(pg :: B).map Page.base, ?_, ?_, fun h₁ h₂ => absurd ⟨h₁, h₂⟩ hplain⟩
    · have hstart : endOf pg.base pg.runs pg.tail = pg.base := by
        unfold endOf
        split_ifs with hruns
        · rfl
        · have hloop : pg.looped = true := by
            by_contra hl
            exact hplain ⟨hruns, by simpa using hl⟩
          simp [Page.tail, hloop]
      rw [hstart]
      exact ⟨rfl, hc.2⟩
    · rw [hAB, List.map_append]
      exact List.sublist_append_right _ _

theorem Holds.walkOn (hs : Sound p sh live) (h : Holds p sh live s.mem s.var)
    (hpg : pg ∈ sh.pages) : ∃ T, WalkOn sh pg s.mem T :=
  exists_walkOn hpg (h.lists pg.owner (hs.pages pg hpg).2)

/-- The headers that the walk meets lie clear of the page, and the walk ends. -/
theorem Shape.Sound.walk_clear (hs : Sound p sh live) (hpg : pg ∈ sh.pages) {t : Region}
    (hfree : Freeable pg t) (hT : T.Sublist ((sh.pagesOf pg.owner).map Page.base)) :
    (∀ q ∈ T, q = pg.base ∨ q + 16 ≤ pg.base ∨ pg.base + pageBytes ≤ q) ∧ T.Nodup ∧
      pg.runs.length + T.length + 1 < loopBound := by
  have hv := hfree.valid
  have hbases : ∀ q ∈ T, ∃ y ∈ sh.pages, q = y.base := by
    intro q hq
    obtain ⟨y, hy, rfl⟩ := List.mem_map.mp (hT.subset hq)
    exact ⟨y, (List.mem_filter.mp hy).1, rfl⟩
  have hout : ∀ q ∈ T, q = pg.base ∨ q + 16 ≤ pg.base ∨ pg.base + pageBytes ≤ q := by
    intro q hq
    obtain ⟨y, hy, rfl⟩ := hbases q hq
    by_cases heq : y = pg
    · exact .inl (by rw [heq])
    · obtain ⟨P₁, P₂, hpages⟩ := List.append_of_mem hpg
      rw [hpages] at hy
      have hd := hs.page_page hpages (show y ∈ P₁ ++ P₂ by simpa [heq] using hy)
      unfold Disj Page.span Region.stop pageBytes at hd
      unfold pageBytes
      simp only at hd
      omega
  have hnodup : T.Nodup :=
    (hs.bases_nodup.sublist (pagesOf_sublist sh pg.owner)).sublist hT
  refine ⟨hout, hnodup, ?_⟩
  -- the nodes, the headers and the block are different addresses
  have hstart := hfree.start_bounds
  have hcls := hfree.cls.ge
  have hpb : pageBytes = 65536 := rfl
  have hmax := hv.max
  have hrange : ∀ x ∈ t.start :: (pg.runs.map Region.start ++ T), x ≠ 0 ∧ x < 2 ^ 64 := by
    intro x hx
    rcases List.mem_cons.mp hx with rfl | hx
    · unfold Region.stop at hstart
      omega
    · rcases List.mem_append.mp hx with hx | hx
      · obtain ⟨r, hr, rfl⟩ := List.mem_map.mp hx
        have hb := (hv.run r hr).bounds
        unfold Region.stop at hb
        omega
      · obtain ⟨y, hy, rfl⟩ := hbases x hx
        have hy := (hs.pages y hy).1
        have h₁ := hy.base_pos
        have h₂ := hy.max
        omega
  have hlen := length_lt_loopBound (hfree.walk_nodup hout hnodup)
    (fun h0 => (hrange 0 h0).1 rfl) fun x hx => (hrange x hx).2
  rw [List.length_cons, List.length_append, List.length_map] at hlen
  omega

/-- What the page branch finds in a state that holds the shape. -/
theorem freeSite (hs : Sound p sh live) (hb : b ∈ live) (hsmall : ¬ b.Huge)
    (hpages : sh.pages = P₁ ++ pg :: P₂) (hhouse : Houses pg b) {m : Mem}
    (hT : WalkOn sh pg m T) :
    FreeSite (pageFoot pg cpu (live.erase b) (b.addr :: T)) pg b.region T := by
  have hmem : pg ∈ sh.pages := by rw [hpages]; simp
  have hv := (hs.pages pg hmem).1
  have hpos := hv.base_pos
  have hsound : Sound p sh (b :: live.erase b) := hs.perm (List.perm_cons_erase hb)
  have hrest : Sound p sh (live.erase b) := hs.sublist List.erase_sublist
  have hapart := (List.pairwise_cons.mp hsound.apart).1
  have hin : b.region.Within pg.span := hhouse.within
  have hge := (Block.sizeClass hsmall).ge
  have hrec : Within ⟨b.addr, headerBytes⟩ b.region := by
    unfold Within Block.region Region.stop headerBytes
    simp only
    omega
  have hfree := hs.freeable hmem hsmall hhouse
  obtain ⟨hout, hnodup, hcount⟩ := hs.walk_clear hmem hfree hT.sublist
  refine ⟨hfree, hout, hnodup, hcount, ?_, fun r hr => ?_, ?_, fun q hq => ?_, ?_⟩
  · exact .of_owns (pageFoot_owns hpos (page_record pg) (hrest.header_clear hpages) rfl)
  · obtain ⟨h₁, h₂⟩ := run_record hv hr
    exact pageFoot_node hpos ⟨le_trans h₂.1 h₁.1, le_trans h₁.2 h₂.2⟩
      (hrest.run_clear hpages hr h₁) (.inr ⟨r, hr, h₁⟩)
  · exact pageFoot_node hpos ⟨le_trans hin.1 hrec.1, le_trans hrec.2 hin.2⟩
      (fun c hc => (hapart c hc).mono hrec) (.inl List.mem_cons_self)
  · obtain ⟨y, hy, rfl⟩ := List.mem_map.mp (hT.sublist.subset hq)
    have hy := (List.mem_filter.mp hy).1
    exact ⟨(hs.pages y hy).1.base_pos.ne', .inl (List.mem_cons_of_mem _ hq), fun _ _ _ => trivial⟩
  · exact pageFoot_owns hpos hin hapart trivial

theorem Shape.Sound.pageHeaders_eq (hs : Sound p sh live)
    (hpath : Path (nextAt s.mem) (s.var (.pagehead cpu)) ((sh.pagesOf cpu).map Page.base) 0) :
    pageHeaders s cpu = (sh.pagesOf cpu).map Page.base := by
  refine hpath.follow_eq (fun h0 => ?_) (hs.pages_count (pagesOf_sublist sh cpu))
  obtain ⟨pg, hpg, hbase⟩ := List.mem_map.mp h0
  have := (hs.pages pg (mem_pagesOf.mp hpg).1).1.base_pos
  omega

/-- The lists of page headers are those of the shape. -/
theorem Holds.pageHeaders_eq (hs : Sound p sh live) (h : Holds p sh live s.mem s.var)
    (hcpu : cpu < p.cpuCount) : pageHeaders s cpu = (sh.pagesOf cpu).map Page.base :=
  hs.pageHeaders_eq (h.lists cpu hcpu)

theorem Holds.mem_pageHeaders (hs : Sound p sh live) (h : Holds p sh live s.mem s.var)
    (hpg : pg ∈ sh.pages) : pg.base ∈ pageHeaders s pg.owner := by
  rw [h.pageHeaders_eq hs (hs.pages pg hpg).2]
  exact List.mem_map_of_mem (mem_pagesOf.mpr ⟨hpg, rfl⟩)

/-- The walk over the page's nodes, in a state that holds the page. -/
theorem pageWalk_eq (hs : Sound p sh live) (hrepr : pg.Repr s.mem)
    (hb : b ∈ live) (hsmall : ¬ b.Huge) (hpages : sh.pages = P₁ ++ pg :: P₂) (hhouse : Houses pg b)
    (hT : WalkOn sh pg s.mem T) : pageWalk s pg.base = pg.runs.map Region.start ++ T := by
  have hmem : pg ∈ sh.pages := by rw [hpages]; simp
  have hv := (hs.pages pg hmem).1
  have hclass : SizeClass pg.cls := by
    rw [hhouse.1]
    exact Block.sizeClass hsmall
  have hge := hclass.ge
  have hlist := (Page.repr_iff (show pg.cls ≠ 0 by omega)).mp hrepr
  have hwalk := hlist.walk hT.path
  rw [← hlist.headAt_eq hclass hv.max fun r hr => (hv.run r hr).atBlock] at hwalk
  have hsite : FreeSite (pageFoot pg 0 (live.erase b) (b.addr :: T)) pg b.region T :=
    freeSite hs hb hsmall hpages hhouse hT
  refine hwalk.follow_eq (fun h0 => ?_) ?_
  · rcases List.mem_append.mp h0 with h0 | h0
    · obtain ⟨r, hr, hr0⟩ := List.mem_map.mp h0
      exact (hsite.nodes r hr).ne_null hr0
    · exact (hsite.walk 0 h0).ne_null rfl
  · rw [List.length_append, List.length_map]
    have := hsite.count
    omega

/-- No header on the walk touches the block, unless it is merged. -/
theorem walkOn_clean (hs : Sound p sh live) (hrepr : pg.Repr s.mem)
    (hheads : ∀ y ∈ sh.pagesOf pg.owner, y.base ∈ pageHeaders s pg.owner) (hb : b ∈ live)
    (hsmall : ¬ b.Huge) (hpages : sh.pages = P₁ ++ pg :: P₂) (hhouse : Houses pg b)
    (hT : WalkOn sh pg s.mem T) (hclean : ¬ MergesPageHeader p s b.addr) :
    (∀ q ∈ T, stopAt s.mem q ≠ b.addr) ∧ ∀ q ∈ T, q ≠ b.region.stop := by
  have hmem : pg ∈ sh.pages := by rw [hpages]; simp
  have hv := (hs.pages pg hmem).1
  have hclass : SizeClass pg.cls := by
    rw [hhouse.1]
    exact Block.sizeClass hsmall
  have hge := hclass.ge
  have hle := hclass.le
  have hlist := (Page.repr_iff (show pg.cls ≠ 0 by omega)).mp hrepr
  obtain ⟨hlo, hhi⟩ := hhouse.inPage hsmall
  have hbounds := hhouse.bounds
  have hmax := hv.max
  have hpage := pageWalk_eq hs hrepr hb hsmall hpages hhouse hT
  have hstop : addPtr b.addr (toSize (sizeAt s.mem pg.base)) = b.region.stop := by
    rw [hlist.size, toSize_natCast (by omega), hhouse.1]
    exact addPtr_of_lt (by omega)
  have hmerge : ∀ q ∈ T, ¬ (stopAt s.mem q = b.addr ∨ q = b.region.stop) := by
    intro q hq htouch
    obtain ⟨y, hy, rfl⟩ := List.mem_map.mp (hT.sublist.subset hq)
    have hcpu := (hs.pages pg hmem).2
    refine hclean ⟨pg.owner, hcpu, pg.base, hheads pg (mem_pagesOf.mpr ⟨hmem, rfl⟩), ⟨hlo, hhi⟩,
      y.base, ?_, ⟨pg.owner, hcpu, hheads y hy⟩, ?_⟩
    · rw [hpage]
      exact List.mem_append_right _ hq
    · rwa [hstop]
  exact ⟨fun q hq hqb => hmerge q hq (.inl hqb), fun q hq hqb => hmerge q hq (.inr hqb)⟩

theorem Holds.walkOn_clean (hs : Sound p sh live) (h : Holds p sh live s.mem s.var)
    (hb : b ∈ live) (hsmall : ¬ b.Huge) (hpages : sh.pages = P₁ ++ pg :: P₂) (hhouse : Houses pg b)
    (hT : WalkOn sh pg s.mem T) (hclean : ¬ MergesPageHeader p s b.addr) :
    (∀ q ∈ T, stopAt s.mem q ≠ b.addr) ∧ ∀ q ∈ T, q ≠ b.region.stop := by
  refine KmallocKfree.walkOn_clean hs (h.pages pg (by rw [hpages]; simp)) (fun y hy => ?_) hb hsmall
    hpages hhouse hT hclean
  obtain ⟨hmem, howner⟩ := mem_pagesOf.mp hy
  exact howner ▸ h.mem_pageHeaders hs hmem

/-- A walk that stays in its page merges no page header. -/
theorem spares_of_open (hs : Sound p sh live) (h : Holds p sh live s.mem s.var)
    (hb : b ∈ live) (hsmall : ¬ b.Huge) (hpg : pg ∈ sh.pages) (hhouse : Houses pg b)
    (hruns : pg.runs ≠ []) (hloop : pg.looped = false) : ¬ MergesPageHeader p s b.addr := by
  rintro ⟨cpu, hcpu, ph, hph, hin, q, hq, ⟨cpu', hcpu', hqh⟩, -⟩
  obtain ⟨P₁, P₂, hpages⟩ := List.append_of_mem hpg
  rw [h.pageHeaders_eq hs hcpu] at hph
  obtain ⟨y, hy, rfl⟩ := List.mem_map.mp hph
  obtain rfl : y = pg := hs.inPage_unique hpg (mem_pagesOf.mp hy).1 (hhouse.inPage hsmall) hin
  obtain ⟨T, hT⟩ := h.walkOn hs hpg
  rw [pageWalk_eq hs (h.pages y hpg) hb hsmall hpages hhouse hT, hT.plain hruns hloop,
    List.append_nil] at hq
  obtain ⟨r, hr, rfl⟩ := List.mem_map.mp hq
  have hclass := (hs.pages y hpg).1.sizeClass_of_mem hr
  have hge := hclass.ge
  have hrun := ((hs.pages y hpg).1.run r hr).bounds
  rw [h.pageHeaders_eq hs hcpu'] at hqh
  obtain ⟨z, hz, hbase⟩ := List.mem_map.mp hqh
  have hzm := (mem_pagesOf.mp hz).1
  by_cases hzy : z = y
  · subst hzy
    omega
  · rw [hpages] at hzm
    have hd := hs.page_page hpages (show z ∈ P₁ ++ P₂ by simpa [hzy] using hzm)
    unfold Disj Page.span Region.stop at hd
    unfold Region.stop at hrun
    simp only at hd
    have hpb : pageBytes = 65536 := rfl
    omega

/-- A small block is given back to its page. -/
theorem wp_kfree_small (h : Inv p ⟨s, live⟩ sh) (hcpu : cpu < p.cpuCount) (hb : b ∈ live)
    (hsmall : ¬ b.Huge) (hpages : sh.pages = P₁ ++ pg :: P₂) (hhouse : Houses pg b)
    (hT : WalkOn sh pg s.mem T) (hbelow : ∀ q ∈ T, stopAt s.mem q ≠ b.addr)
    (habove : ∀ q ∈ T, q ≠ b.region.stop) :
    wp (callFoot sh (live.erase b) (b.addr :: T)).Allows (kfree p cpu b.addr) s fun _ s' =>
      Inv p ⟨s', live.erase b⟩ ⟨sh.free, P₁ ++ pg.freed b.region :: P₂⟩ := by
  have hs := h.sound
  have hmem : pg ∈ sh.pages := by rw [hpages]; simp
  have hsite : FreeSite (pageFoot pg cpu (live.erase b) (b.addr :: T)) pg b.region T :=
    freeSite hs hb hsmall hpages hhouse hT
  have hcls : pg.cls ≠ 0 := by
    have := hsite.cls.ge
    omega
  have hrepr := h.holds.pages pg hmem
  have hsound : Sound p sh (b :: live.erase b) := hs.perm (List.perm_cons_erase hb)
  have hin := hhouse.inPage hsmall
  have hpos := hsite.valid.base_pos
  have hlist := (Page.repr_iff hcls).mp hrepr
  unfold kfree
  rw [wp_bind, wp_check]
  refine ⟨by unfold InPage at hin; omega, ?_⟩
  rw [wp_bind, wp_lock trivial (h.unlocked.2 cpu hcpu), wp_bind]
  refine wp_scanCpus hs h.holds (by omega) (fun hnone => ?_) fun y hy hyin => ?_
  · exact absurd hin (hnone pg hmem (Nat.zero_le _) (by have := (hs.pages pg hmem).2; omega))
  · obtain rfl := hs.inPage_unique hmem hy hin hyin
    simp only [ne_eq, hpos.ne', not_false_eq_true, if_true, wp_bind, wp_check, true_and]
    refine wp_post (wp_within (wp_kfreePage hsite hlist hT.path hbelow habove rfl)
      (pageFoot_sub_of_mem hmem)) ?_
    rintro _ t ⟨⟨hpage, hnext, hvar, hlock⟩, hframe⟩
    refine ⟨hsound.freePage hpages hsmall hhouse, ?_, unlocked_restore h.unlocked hcpu hlock⟩
    rw [hvar]
    exact (h.holds.page hs hpages (y.freed b.region) (y.freed_base _) (y.freed_owner _) hpage hnext
      fun x hx => hframe.mem x fun hw => hx hw.1).mono_live fun c hc _ => List.mem_of_mem_erase hc

end Page

section Huge

variable {p : Platform} {sh : Shape} {live : List Block} {s : PmmState} {cpu : ℕ} {b : Block}

/-- The list has room for one more node. -/
theorem Shape.Sound.free_count_huge (h : Sound p sh (b :: live)) (hb : b.Huge) :
    sh.free.length + 1 < loopBound := by
  have haround := h.around hb
  have hnd : ((b.span :: sh.free).map Region.start).Nodup := by
    refine starts_nodup (List.pairwise_cons.mpr
      ⟨fun r hr => (haround.apart r hr).symm, haround.disj⟩) fun r hr => ?_
    rcases List.mem_cons.mp hr with rfl | hr
    · exact haround.len
    · exact haround.pos r hr
  have hrange : ∀ x ∈ (b.span :: sh.free).map Region.start, x ≠ 0 ∧ x < 2 ^ 64 := by
    intro x hx
    obtain ⟨r, hr, rfl⟩ := List.mem_map.mp hx
    have h₁ := p.heapStart_pos
    have h₂ := p.limit_max
    rcases List.mem_cons.mp hr with rfl | hr
    · have := haround.span
      unfold Region.stop at this
      omega
    · have := haround.inside r hr
      unfold Region.stop at this
      omega
  have hlen := length_lt_loopBound hnd (fun h0 => (hrange 0 h0).1 rfl) fun x hx => (hrange x hx).2
  rwa [List.length_map, List.length_cons] at hlen

/-- A large block is given back to the heap. -/
theorem wp_kfree_huge (h : Inv p ⟨s, live⟩ sh) (hcpu : cpu < p.cpuCount) (hb : b ∈ live)
    (hhuge : b.Huge) (hlong : ∀ r ∈ sh.free, headerBytes ≤ r.len) :
    wp (callFoot sh (live.erase b) [b.span.start]).Allows (kfree p cpu b.addr) s fun _ s' =>
      Inv p ⟨s', live.erase b⟩ ⟨giveBack b.span sh.free, sh.pages⟩ := by
  have hs := h.sound
  have hsound : Sound p sh (b :: live.erase b) := hs.perm (List.perm_cons_erase hb)
  have hrest : Sound p sh (live.erase b) := hs.sublist List.erase_sublist
  obtain ⟨hreq, haddr, hend⟩ := hs.huge b hb hhuge
  have hsize := b.size_pos hreq
  have hmax := p.limit_max
  have hlim := p.limit_lt
  have hstart := p.heapStart_pos
  obtain ⟨hheadsize, hmagic⟩ := h.holds.headers b hb hhuge
  have hnode : b.span.node = b.span := Region.node_eq (by
    unfold Block.span
    exact Nat.le_add_left _ _)
  have hbpos : 0 < b.span.start := by
    unfold Block.span
    simp only
    omega
  -- the nodes of the list and the freed block keep clear of what stays
  have hclear : ∀ x ∈ sh.free ++ [b.span], (∀ pg ∈ sh.pages, x.node.Disj pg.span) ∧
      ∀ c ∈ live.erase b, c.Huge → x.node.Disj c.span := by
    intro x hx
    rcases List.mem_append.mp hx with hx | hx
    · exact ⟨fun pg hpg => hs.free_page hx hpg, fun c hc hch => hrest.free_huge hx hc hch⟩
    · obtain rfl := List.mem_singleton.mp hx
      rw [hnode]
      exact ⟨fun pg hpg => (hs.page_huge hpg hb hhuge).symm,
        fun c hc hch => hsound.huge_huge hhuge hc hch⟩
  set F := heapFoot (sh.free ++ [b.span]) (fun q => q = b.span.start) cpu with hF
  have hsub : F.Sub (callFoot sh (live.erase b) [b.span.start]) := by
    refine heapFoot_sub (fun x hx c hc => hrest.disj_all (hclear x hx).1 (hclear x hx).2 hc) ?_ ?_
    · intro x hx
      rcases List.mem_append.mp hx with hx | hx
      · exact .inl hx
      · exact .inr (.inr (by rw [List.mem_singleton.mp hx]; exact List.mem_singleton_self _))
    · exact fun q hq => .inl (by rw [hq]; exact List.mem_singleton_self _)
  have hspan : b.span ∈ sh.free ++ [b.span] := by simp
  have hrec : Within ⟨b.span.start, headerBytes⟩ b.span.node := by
    rw [hnode]
    exact span_record b
  have hbytes : F.Owns .bytes b.span.start b.span.len :=
    ⟨⟨hbpos.ne', trivial, fun _ _ _ => trivial⟩, fun y h₁ h₂ => ⟨b.span, hspan, by
      rw [hnode]
      exact ⟨h₁, h₂⟩⟩⟩
  unfold kfree
  rw [wp_bind, wp_check]
  refine ⟨by unfold headerBytes at haddr; omega, ?_⟩
  rw [wp_bind, wp_lock trivial (h.unlocked.2 cpu hcpu), wp_bind]
  refine wp_scanCpus hs h.holds (by omega) (fun _ => ?_) fun y hy hyin =>
    absurd hyin (hs.huge_not_inPage hb hhuge hy)
  simp only [ne_eq, not_true_eq_false, if_false]
  refine wp_post (wp_within (F := F) (wp_kfreeHuge h.holds.heap (pagelist_ne_heap h.unlocked.1)
    (.inl rfl) (.inr rfl) rfl rfl
    (fun x hx => heapFoot_node (hs.free_pos hx) (List.mem_append_left _ hx))
    (hsound.free_count_huge hhuge) hlong rfl (by unfold headerBytes at *; omega)
    (hsound.around hhuge) hlim hmax (heapFoot_header hbpos hspan hrec rfl)
    (heapFoot_node hbpos hspan) hbytes hheadsize hmagic) hsub) ?_
  rintro _ t ⟨⟨hlist, hlock⟩, hframe⟩
  refine ⟨(hsound.giveBack hhuge hlong).1, ?_, unlocked_restore h.unlocked hcpu hlock⟩
  have hkeep : Holds p sh (live.erase b) s.mem s.var :=
    h.holds.mono_live fun c hc _ => List.mem_of_mem_erase hc
  apply hkeep.heap_changed (sh.free ++ [b.span]) hlist
  · exact fun cpu => hframe.var _ (by rintro ⟨⟩)
  · intro y hy
    apply hframe.mem y
    rintro ⟨x, hx, hxy⟩
    exact hy x hx hxy
  · exact fun pg hpg => (hs.pages pg hpg).1
  · exact fun x hx => (hclear x hx).1
  · exact fun x hx => (hclear x hx).2

end Huge
end KmallocKfree
