import KmallocKfree.PageFree
import KmallocKfree.World

/-!
# The shape of the heap

What the allocator is for, without memory: the free nodes of the heap, the pages,
and the live blocks are disjoint regions. A small block lies on a block position of
a page of its class, outside the page's free nodes; a large block has its span,
with its header, for itself. Each operation of the allocator is a change of this
shape that keeps it sound.
-/
namespace KmallocKfree

open Region

/-- The length that `pmm_init` records in the first node, an `int`. -/
def Platform.recorded (p : Platform) : ℤ := toInt (toWord ((p.heapEnd - p.heapStart : ℕ) : ℤ))

/-- Where the first node ends. -/
def Platform.limit (p : Platform) : ℕ := p.heapStart + p.recorded.toNat

/-- The free list of the heap and the pages, each in link order; the list of a CPU
is the sublist of the pages that it owns. -/
structure Shape where
  free : List Region
  pages : List Page

namespace Shape

def pagesOf (sh : Shape) (cpu : ℕ) : List Page := sh.pages.filter fun pg => pg.owner = cpu

theorem mem_pagesOf {sh : Shape} {cpu : ℕ} {pg : Page} :
    pg ∈ sh.pagesOf cpu ↔ pg ∈ sh.pages ∧ pg.owner = cpu := by
  simp [pagesOf]

/-- The regions that have to be disjoint. -/
def spans (sh : Shape) (live : List Block) : List Region :=
  sh.free.map Region.node ++ (sh.pages.map Page.span ++
    (live.filter fun b => b.Huge).map Block.span)

/-- Where a small block lies. -/
def Houses (pg : Page) (b : Block) : Prop :=
  pg.cls = b.size ∧ AtBlock pg.base pg.cls b.addr ∧ ∀ r ∈ pg.runs, r.Disj b.region

/-- A sound shape of the heap of platform `p`. -/
structure Sound (p : Platform) (sh : Shape) (live : List Block) : Prop where
  pages : ∀ pg ∈ sh.pages, pg.Valid ∧ pg.owner < p.cpuCount
  spans : (sh.spans live).Pairwise Disj
  free : ∀ r ∈ sh.free, 0 < r.len ∧ p.heapStart ≤ r.start ∧ r.stop ≤ p.limit
  paged : ∀ pg ∈ sh.pages, p.heapStart ≤ pg.base ∧ pg.base + pageBytes ≤ p.limit
  small : ∀ b ∈ live, ¬ b.Huge → ∃ pg ∈ sh.pages, Houses pg b
  huge : ∀ b ∈ live, b.Huge → b.req ≤ 16777216 ∧ p.heapStart + headerBytes ≤ b.addr ∧
    b.addr + b.size ≤ p.limit
  apart : live.Pairwise fun b c => b.region.Disj c.region

end Shape

section Limits

variable {p : Platform}

theorem Platform.recorded_lt (p : Platform) : p.recorded < 2147483648 :=
  (toInt_bounds (toWord_lt _)).2

theorem Platform.limit_le (p : Platform) : p.limit ≤ p.heapEnd := by
  have hle := p.heapStart_le
  unfold Platform.limit Platform.recorded toInt toWord
  split_ifs <;> omega

theorem Platform.limit_lt (p : Platform) : p.limit < p.heapStart + 2147483648 := by
  have := p.recorded_lt
  unfold Platform.limit
  omega

theorem Platform.limit_max (p : Platform) : p.limit < 18446744073709551616 := by
  have h₁ := p.limit_le
  have h₂ := p.heapEnd_lt
  omega

/-- A heap below 2 GiB is recorded in full. -/
theorem Platform.limit_eq (h : p.heapEnd - p.heapStart < 2147483648) :
    p.limit = p.heapEnd ∧ p.recorded = ((p.heapEnd - p.heapStart : ℕ) : ℤ) := by
  have hle := p.heapStart_le
  have hrec : p.recorded = ((p.heapEnd - p.heapStart : ℕ) : ℤ) :=
    toInt_toWord (by omega) (by omega)
  refine ⟨?_, hrec⟩
  rw [Platform.limit, hrec]
  omega

end Limits

section Splitting

variable {l l₁ l₂ parts : List Region} {r : Region}

theorem Region.node_start (r : Region) : r.node.start = r.start := rfl

theorem Region.node_eq (h : headerBytes ≤ r.len) : r.node = r := by
  unfold Region.node
  rw [Nat.max_eq_left h]

theorem Region.within_node (r : Region) : r.Within r.node := by
  unfold Region.Within Region.node Region.stop
  simp only
  omega

end Splitting

section Blocks

variable {b : Block}

theorem Block.size_pos (b : Block) (h : b.req ≤ 16777216) : 32 ≤ b.size := by
  by_cases hb : b.req ≤ 16384
  · exact (sizeClass_roundSize hb).ge
  · have := (roundSize_huge (not_le.mp hb) h).1
    exact le_trans (by norm_num) this

theorem Block.sizeClass (hb : ¬ b.Huge) : SizeClass b.size :=
  sizeClass_roundSize (by simpa [Block.Huge] using hb)

theorem Block.region_within_span (hb : headerBytes ≤ b.addr) : b.region.Within b.span := by
  unfold Within Block.region Block.span Region.stop
  simp only
  omega

end Blocks

namespace Shape

variable {p : Platform} {sh : Shape} {live live' : List Block} {pg pg' : Page} {b c : Block}
  {P₁ P₂ : List Page} {l₁ l₂ : List Region} {r t : Region}

theorem Sound.perm (h : Sound p sh live) (hp : live.Perm live') : Sound p sh live' where
  pages := h.pages
  spans := (disjoint_perm (((hp.filter _).map _).append_left _ |>.append_left _)).mp h.spans
  free := h.free
  paged := h.paged
  small b hb := h.small b (hp.mem_iff.mpr hb)
  huge b hb := h.huge b (hp.mem_iff.mpr hb)
  apart := (hp.pairwise_iff fun hd => Disj.symm hd).mp h.apart

/-- Fewer live blocks are sound as well. -/
theorem Sound.sublist (h : Sound p sh live) (hs : live'.Sublist live) : Sound p sh live' where
  pages := h.pages
  spans := h.spans.sublist (((hs.filter _).map _).append_left _ |>.append_left _)
  free := h.free
  paged := h.paged
  small b hb := h.small b (hs.subset hb)
  huge b hb := h.huge b (hs.subset hb)
  apart := h.apart.sublist hs

theorem Sound.free_pairwise (h : Sound p sh live) :
    (sh.free.map Region.node).Pairwise Disj := (List.pairwise_append.mp h.spans).1

theorem Sound.free_page (h : Sound p sh live) (hr : r ∈ sh.free) (hpg : pg ∈ sh.pages) :
    r.node.Disj pg.span :=
  (List.pairwise_append.mp h.spans).2.2 _ (List.mem_map_of_mem hr) _
    (List.mem_append_left _ (List.mem_map_of_mem hpg))

theorem mem_huge_spans (hb : b ∈ live) (hbh : b.Huge) :
    b.span ∈ (live.filter fun b => b.Huge).map Block.span :=
  List.mem_map_of_mem (List.mem_filter.mpr ⟨hb, by simpa using hbh⟩)

theorem Sound.free_huge (h : Sound p sh live) (hr : r ∈ sh.free) (hb : b ∈ live)
    (hbh : b.Huge) : r.node.Disj b.span :=
  (List.pairwise_append.mp h.spans).2.2 _ (List.mem_map_of_mem hr) _
    (List.mem_append_right _ (mem_huge_spans hb hbh))

theorem Sound.page_huge (h : Sound p sh live) (hpg : pg ∈ sh.pages) (hb : b ∈ live)
    (hbh : b.Huge) : pg.span.Disj b.span :=
  (List.pairwise_append.mp (List.pairwise_append.mp h.spans).2.1).2.2 _
    (List.mem_map_of_mem hpg) _ (mem_huge_spans hb hbh)

theorem Sound.huge_huge (h : Sound p sh (b :: live)) (hb : b.Huge) (hc : c ∈ live)
    (hch : c.Huge) : b.span.Disj c.span := by
  have hspans := (List.pairwise_append.mp (List.pairwise_append.mp h.spans).2.1).2.1
  rw [List.filter_cons_of_pos (by simpa using hb), List.map_cons] at hspans
  exact (List.pairwise_cons.mp hspans).1 _ (mem_huge_spans hc hch)

theorem Sound.page_page (h : Sound p sh live) (hpages : sh.pages = P₁ ++ pg :: P₂)
    (hpg : pg' ∈ P₁ ++ P₂) : pg.span.Disj pg'.span := by
  have hd := (List.pairwise_append.mp (List.pairwise_append.mp h.spans).2.1).1
  rw [hpages, List.map_append, List.map_cons] at hd
  exact disjoint_of_mem hd (by rw [← List.map_append]; exact List.mem_map_of_mem hpg)

/-- A small block lies in its page, behind the header. -/
theorem Houses.bounds (h : Houses pg b) :
    pg.base + b.size ≤ b.addr ∧ b.addr + b.size ≤ pg.base + pageBytes := by
  obtain ⟨hc, ⟨k, hk, hstart, hle⟩, -⟩ := h
  have := Nat.le_mul_of_pos_left pg.cls hk
  omega

theorem Houses.within (h : Houses pg b) : b.region.Within pg.span := by
  have := h.bounds
  unfold Within Block.region Page.span Region.stop
  simp only
  omega

/-- A place in a page that no live block of the page uses is clear of all live blocks. -/
theorem Sound.disj_live (h : Sound p sh live) (hpages : sh.pages = P₁ ++ pg :: P₂)
    {x : Region} (hx : x.Within pg.span) (hin : ∀ c ∈ live, Houses pg c → x.Disj c.region)
    (hc : c ∈ live) : x.Disj c.region := by
  have hpg : pg ∈ sh.pages := by rw [hpages]; simp
  by_cases hch : c.Huge
  · obtain ⟨-, haddr, -⟩ := h.huge c hc hch
    have hd := (h.page_huge hpg hc hch).mono hx
    exact (hd.symm.mono (Block.region_within_span (by omega))).symm
  · obtain ⟨pg', hpg', hhouse⟩ := h.small c hc hch
    rw [hpages] at hpg'
    by_cases heq : pg' = pg
    · exact hin c hc (heq ▸ hhouse)
    · have hd := h.page_page hpages (show pg' ∈ P₁ ++ P₂ by
        simp only [List.mem_append, List.mem_cons] at hpg' ⊢
        rcases hpg' with h | h | h
        · exact .inl h
        · exact absurd h heq
        · exact .inr h)
      exact ((hd.mono hx).symm.mono hhouse.within).symm

/-- Another state of one page, at the same place, that still houses its live blocks. -/
theorem Sound.replacePage (h : Sound p sh live) (hpages : sh.pages = P₁ ++ pg :: P₂)
    (hv : pg'.Valid) (hbase : pg'.base = pg.base) (howner : pg'.owner = pg.owner)
    (hkeep : ∀ b ∈ live, ¬ b.Huge → Houses pg b → Houses pg' b) :
    Sound p ⟨sh.free, P₁ ++ pg' :: P₂⟩ live where
  pages x hx := by
    have hmem : pg ∈ sh.pages := by rw [hpages]; simp
    simp only [List.mem_append, List.mem_cons] at hx
    rcases hx with hx | rfl | hx
    · exact h.pages x (by rw [hpages]; simp [hx])
    · exact ⟨hv, by rw [howner]; exact (h.pages pg hmem).2⟩
    · exact h.pages x (by rw [hpages]; simp [hx])
  spans := by
    have hspan : pg'.span = pg.span := congrArg (fun a => Region.mk a pageBytes) hbase
    have hspans := h.spans
    unfold Shape.spans at *
    rw [hpages] at hspans
    simpa [hspan] using hspans
  free := h.free
  paged x hx := by
    have hmem : pg ∈ sh.pages := by rw [hpages]; simp
    simp only [List.mem_append, List.mem_cons] at hx
    rcases hx with hx | rfl | hx
    · exact h.paged x (by rw [hpages]; simp [hx])
    · rw [hbase]
      exact h.paged pg hmem
    · exact h.paged x (by rw [hpages]; simp [hx])
  small b hb hbs := by
    obtain ⟨x, hx, hhouse⟩ := h.small b hb hbs
    rw [hpages] at hx
    simp only [List.mem_append, List.mem_cons] at hx
    rcases hx with hx | rfl | hx
    · exact ⟨x, by simp [hx], hhouse⟩
    · exact ⟨pg', by simp, hkeep b hb hbs hhouse⟩
    · exact ⟨x, by simp [hx], hhouse⟩
  huge := h.huge
  apart := h.apart

/-- A block position that is neither free nor live may become live. -/
theorem Sound.addSmall (h : Sound p sh live) (hpg : pg ∈ sh.pages) (hb : ¬ b.Huge)
    (hhouse : Houses pg b) (hfresh : ∀ c ∈ live, b.region.Disj c.region) :
    Sound p sh (b :: live) where
  pages := h.pages
  spans := by
    have hspans := h.spans
    unfold Shape.spans at *
    rwa [List.filter_cons_of_neg (by simpa using hb)]
  free := h.free
  paged := h.paged
  small c hc hcs := by
    rcases List.mem_cons.mp hc with rfl | hc
    · exact ⟨pg, hpg, hhouse⟩
    · exact h.small c hc hcs
  huge c hc hch := by
    rcases List.mem_cons.mp hc with rfl | hc
    · exact absurd hch hb
    · exact h.huge c hc hch
  apart := List.pairwise_cons.mpr ⟨hfresh, h.apart⟩

/-- The fast path: the first free block of a page becomes live. -/
theorem Sound.pop (h : Sound p sh live) (hpages : sh.pages = P₁ ++ pg :: P₂)
    {rest : List Region} (hruns : pg.runs = r :: rest) (hb : ¬ b.Huge) (hsize : b.size = pg.cls)
    (haddr : b.addr = r.start) :
    Sound p ⟨sh.free, P₁ ++ pg.pop :: P₂⟩ (b :: live) := by
  have hmem : pg ∈ sh.pages := by rw [hpages]; simp
  have hr : r ∈ pg.runs := by rw [hruns]; simp
  have hv := (h.pages pg hmem).1
  have hrb := (hv.run r hr).bounds
  have hin : b.region.Within r := by
    unfold Within Block.region Region.stop
    simp only
    omega
  have hreplace := h.replacePage hpages (hv.pop hruns) rfl rfl (fun c _ _ hhouse => by
    obtain ⟨hc, hat, hruns'⟩ := hhouse
    refine ⟨hc, hat, fun t ht => ?_⟩
    obtain ⟨⟨x, hx, htx⟩, -⟩ := hv.mem_pop hruns ht
    exact (hruns' x hx).mono htx)
  refine hreplace.addSmall (show pg.pop ∈ P₁ ++ pg.pop :: P₂ by simp) hb ⟨hsize.symm, ?_, ?_⟩ ?_
  · rw [haddr]
    exact (hv.run r hr).atBlock
  · intro t ht
    have := (hv.mem_pop hruns ht).2.2
    unfold Block.region
    rwa [haddr, hsize]
  · intro c hc
    refine h.disj_live hpages ?_ (fun c _ hhouse => (hhouse.2.2 r hr).mono hin) hc
    unfold Within Region.stop at *
    unfold Page.span
    simp only
    omega

/-- An empty page may take another class. -/
theorem Sound.recycle (h : Sound p sh live) (hpages : sh.pages = P₁ ++ pg :: P₂)
    (hempty : pg.cls = 0) {c : ℕ} (hc : SizeClass c) :
    Sound p ⟨sh.free, P₁ ++ Page.whole pg.owner pg.base c :: P₂⟩ live := by
  have hmem : pg ∈ sh.pages := by rw [hpages]; simp
  have hv := (h.pages pg hmem).1
  refine h.replacePage hpages (Page.whole_valid hc hv.base_pos hv.max) rfl rfl ?_
  intro b _ hbs hhouse
  have h₁ := hhouse.1
  have h₂ := (Block.sizeClass hbs).ge
  omega

/-- The regions beside node `r` of the free list. -/
def beside (sh : Shape) (live : List Block) (l : List Region) : List Region :=
  l.map Region.node ++ (sh.pages.map Page.span ++ (live.filter fun b => b.Huge).map Block.span)

theorem spans_perm (hfree : sh.free = l₁ ++ r :: l₂) :
    (sh.spans live).Perm (r.node :: sh.beside live (l₁ ++ l₂)) := by
  unfold Shape.spans beside
  rw [hfree, List.map_append, List.map_cons, List.append_assoc, List.cons_append, List.map_append,
    List.append_assoc]
  exact List.perm_middle

/-- A page is cut off the front of a node. -/
theorem Sound.newPage (h : Sound p sh live) (hfree : sh.free = l₁ ++ r :: l₂)
    (hfit : pageBytes ≤ r.len) {c cpu : ℕ} (hc : SizeClass c) (hcpu : cpu < p.cpuCount)
    (hrest : ∀ q ∈ afterPage r, ∀ u ∈ sh.beside live (l₁ ++ l₂), q.node.Disj u) :
    Sound p ⟨l₁ ++ afterPage r ++ l₂, Page.whole cpu r.start c :: sh.pages⟩ live := by
  have hpb : pageBytes = 65536 := rfl
  have hmem : r ∈ sh.free := by rw [hfree]; simp
  obtain ⟨hpos, hlo, hhi⟩ := h.free r hmem
  have hmax := p.limit_max
  have hstart := p.heapStart_pos
  have hd := (disjoint_perm (spans_perm hfree)).mp h.spans
  obtain ⟨hr, hrest'⟩ := List.pairwise_cons.mp hd
  have hpage : (⟨r.start, pageBytes⟩ : Region).Within r.node := by
    rw [Region.node_eq (by unfold headerBytes; omega)]
    unfold Within Region.stop
    simp only
    omega
  refine ⟨?_, ?_, ?_, ?_, ?_, h.huge, h.apart⟩
  · intro pg hpg
    rcases List.mem_cons.mp hpg with rfl | hpg
    · refine ⟨Page.whole_valid hc (by omega) ?_, hcpu⟩
      unfold Region.stop at hhi
      omega
    · exact h.pages pg hpg
  · have hperm : (Shape.spans ⟨l₁ ++ afterPage r ++ l₂, Page.whole cpu r.start c :: sh.pages⟩
        live).Perm ((Page.whole cpu r.start c).span :: ((afterPage r).map Region.node ++
          sh.beside live (l₁ ++ l₂))) := by
      unfold Shape.spans beside
      simp only [List.map_append, List.map_cons, List.append_assoc]
      refine (List.perm_append_comm_assoc _ _ _).trans ?_
      have hmid := @List.perm_middle _ (Page.whole cpu r.start c).span
        ((afterPage r).map Region.node ++ (l₁.map Region.node ++ l₂.map Region.node))
        (sh.pages.map Page.span ++ (live.filter fun b => b.Huge).map Block.span)
      simpa [List.append_assoc] using hmid
    rw [disjoint_perm hperm]
    refine List.pairwise_cons.mpr ⟨fun u hu => ?_, List.pairwise_append.mpr ⟨?_, hrest', ?_⟩⟩
    · rcases List.mem_append.mp hu with hu | hu
      · obtain ⟨q, hq, rfl⟩ := List.mem_map.mp hu
        left
        rw [Region.node_start, (mem_afterPage hq).1]
        rfl
      · exact (hr u hu).mono hpage
    · unfold afterPage
      split_ifs
      · exact List.Pairwise.nil
      · exact List.pairwise_singleton _ _
    · intro x hx u hu
      obtain ⟨q, hq, rfl⟩ := List.mem_map.mp hx
      exact hrest q hq u hu
  · intro x hx
    simp only [List.mem_append] at hx
    rcases hx with (hx | hx) | hx
    · exact h.free x (by rw [hfree]; simp [hx])
    · obtain ⟨h₁, h₂, h₃⟩ := mem_afterPage hx
      unfold Region.stop at *
      omega
    · exact h.free x (by rw [hfree]; simp [hx])
  · intro pg hpg
    rcases List.mem_cons.mp hpg with rfl | hpg
    · unfold Region.stop at hhi
      change p.heapStart ≤ r.start ∧ r.start + pageBytes ≤ p.limit
      omega
    · exact h.paged pg hpg
  · intro b hb hbs
    obtain ⟨pg, hpg, hhouse⟩ := h.small b hb hbs
    exact ⟨pg, List.mem_cons_of_mem _ hpg, hhouse⟩

/-- Where the spans of nodes and pages keep clear of a region, the small blocks do,
and so do the spans of the large ones. -/
theorem Sound.disj_all (h : Sound p sh live) {x : Region}
    (hpages : ∀ pg ∈ sh.pages, x.Disj pg.span) (hhuge : ∀ b ∈ live, b.Huge → x.Disj b.span)
    (hc : c ∈ live) : x.Disj c.region := by
  by_cases hch : c.Huge
  · obtain ⟨-, haddr, -⟩ := h.huge c hc hch
    exact ((hhuge c hc hch).symm.mono (Block.region_within_span (by omega))).symm
  · obtain ⟨pg, hpg, hhouse⟩ := h.small c hc hch
    exact ((hpages pg hpg).symm.mono hhouse.within).symm

/-- A large block and its header are cut off the tail of a node. -/
theorem Sound.cut (h : Sound p sh live) (hfree : sh.free = l₁ ++ r :: l₂) (hb : b.Huge)
    (hreq : b.req ≤ 16777216) (hroom : b.size + 32 ≤ r.len) (haddr : b.addr = r.stop - b.size) :
    Sound p ⟨l₁ ++ beforeBlock r b.size :: l₂, sh.pages⟩ (b :: live) := by
  have hmem : r ∈ sh.free := by rw [hfree]; simp
  obtain ⟨hpos, hlo, hhi⟩ := h.free r hmem
  have hd := (disjoint_perm (spans_perm hfree)).mp h.spans
  obtain ⟨hr, hrest⟩ := List.pairwise_cons.mp hd
  have hnode : r.node = r := Region.node_eq (by unfold headerBytes; omega)
  have hbefore : (beforeBlock r b.size).node = beforeBlock r b.size :=
    Region.node_eq (by unfold beforeBlock headerBytes; simp only; omega)
  rw [hnode] at hr
  have hin₁ : (beforeBlock r b.size).Within r := by
    unfold Within beforeBlock Region.stop
    simp only
    omega
  have hin₂ : b.span.Within r := by
    unfold Region.stop at haddr
    unfold Within Block.span Region.stop headerBytes
    simp only
    omega
  have hsplit : b.span.Disj (beforeBlock r b.size) := by
    unfold Region.stop at haddr
    unfold Disj Block.span beforeBlock Region.stop headerBytes
    simp only
    omega
  have hbeside : ∀ u ∈ sh.beside live (l₁ ++ l₂), b.span.Disj u := fun u hu =>
    (hr u hu).mono hin₂
  refine ⟨h.pages, ?_, ?_, h.paged, ?_, ?_, ?_⟩
  · have hperm : (Shape.spans ⟨l₁ ++ beforeBlock r b.size :: l₂, sh.pages⟩ (b :: live)).Perm
        (b.span :: beforeBlock r b.size :: sh.beside live (l₁ ++ l₂)) := by
      unfold Shape.spans beside
      rw [List.filter_cons_of_pos (by simpa using hb)]
      simp only [List.map_append, List.map_cons, List.append_assoc, hbefore]
      have hmid := @List.perm_middle _ b.span
        (l₁.map Region.node ++ (beforeBlock r b.size :: (l₂.map Region.node ++
          sh.pages.map Page.span)))
        ((live.filter fun b => b.Huge).map Block.span)
      have hmid' := @List.perm_middle _ (beforeBlock r b.size) (l₁.map Region.node)
        (l₂.map Region.node ++ (sh.pages.map Page.span ++
          (live.filter fun b => b.Huge).map Block.span))
      have hassoc : l₁.map Region.node ++ (beforeBlock r b.size :: (l₂.map Region.node ++
          sh.pages.map Page.span)) ++ (live.filter fun b => b.Huge).map Block.span =
          l₁.map Region.node ++ beforeBlock r b.size :: (l₂.map Region.node ++
            (sh.pages.map Page.span ++ (live.filter fun b => b.Huge).map Block.span)) := by simp
      rw [hassoc] at hmid
      have hboth := hmid.trans (List.Perm.cons b.span hmid')
      simpa only [List.append_assoc, List.cons_append, List.map_cons] using hboth
    rw [disjoint_perm hperm]
    refine List.pairwise_cons.mpr ⟨fun u hu => ?_, List.pairwise_cons.mpr
      ⟨fun u hu => (hr u hu).mono hin₁, hrest⟩⟩
    rcases List.mem_cons.mp hu with rfl | hu
    · exact hsplit
    · exact hbeside u hu
  · intro x hx
    simp only [List.mem_append, List.mem_cons] at hx
    rcases hx with hx | rfl | hx
    · exact h.free x (by rw [hfree]; simp [hx])
    · unfold beforeBlock Region.stop headerBytes at *
      simp only at *
      omega
    · exact h.free x (by rw [hfree]; simp [hx])
  · intro c hc hcs
    rcases List.mem_cons.mp hc with rfl | hc
    · exact absurd hb hcs
    · exact h.small c hc hcs
  · intro c hc hch
    rcases List.mem_cons.mp hc with rfl | hc
    · unfold Region.stop headerBytes at *
      omega
    · exact h.huge c hc hch
  · refine List.pairwise_cons.mpr ⟨fun c hc => ?_, h.apart⟩
    have hx : b.region.Within b.span := Block.region_within_span (by
      unfold Region.stop headerBytes at *
      omega)
    refine Disj.mono (h.disj_all (x := b.span) ?_ ?_ hc) hx
    · intro pg hpg
      exact hbeside _ (List.mem_append_right _ (List.mem_append_left _ (List.mem_map_of_mem hpg)))
    · intro d hd hdh
      exact hbeside _ (List.mem_append_right _ (List.mem_append_right _ (mem_huge_spans hd hdh)))

/-- A housed block may be freed. -/
theorem Sound.freeable (h : Sound p sh live) (hpg : pg ∈ sh.pages) (hb : ¬ b.Huge)
    (hhouse : Houses pg b) : Freeable pg b.region where
  valid := (h.pages pg hpg).1
  cls := by
    rw [hhouse.1]
    exact Block.sizeClass hb
  block := hhouse.2.1
  len := hhouse.1.symm
  apart := hhouse.2.2

/-- A small block is freed. -/
theorem Sound.freePage (h : Sound p sh (b :: live)) (hpages : sh.pages = P₁ ++ pg :: P₂)
    (hb : ¬ b.Huge) (hhouse : Houses pg b) :
    Sound p ⟨sh.free, P₁ ++ pg.freed b.region :: P₂⟩ live := by
  have hmem : pg ∈ sh.pages := by rw [hpages]; simp
  have hfree := h.freeable hmem hb hhouse
  refine (h.sublist (List.sublist_cons_self b live)).replacePage hpages hfree.freed_valid
    (pg.freed_base _) (pg.freed_owner _) ?_
  intro c hc hcs hchouse
  have hcpos : 0 < c.region.len := by
    have := (Block.sizeClass hcs).ge
    exact lt_of_lt_of_le (by norm_num) this
  have hne : ∀ r ∈ pg.runs, c.region ≠ r := by
    rintro r hr heq
    have := hchouse.2.2 r hr
    rw [heq] at this hcpos
    unfold Disj Region.stop at this
    omega
  have hjoined : (joined b.region pg.runs).Disj c.region :=
    joined_disj hcpos (fun r hr _ => hchouse.2.2 r hr)
      ((List.pairwise_cons.mp h.apart).1 c hc) (fun r hr => hne r (touchingBelow_some hr).1)
      (fun r hr => hne r (touchingAbove_some hr).1)
  have hcb := hchouse.bounds
  unfold Page.freed
  split_ifs with hall
  · -- the joined node leaves no place for `c`
    have hj := hfree.joined_isRun.bounds
    have hcls := hchouse.1
    have hc32 := (Block.sizeClass hcs).ge
    have hcle := hfree.cls.le
    have hpb : pageBytes = 65536 := rfl
    unfold Disj Block.region Region.stop at *
    simp only at *
    omega
  · refine ⟨hchouse.1, hchouse.2.1, fun r hr => ?_⟩
    rcases hfree.mem_release hr with rfl | hr
    · exact hjoined
    · exact hchouse.2.2 r hr

/-- The free nodes around a live large block. -/
theorem Sound.around (h : Sound p sh (b :: live)) (hb : b.Huge) :
    Around sh.free b.span [] p.heapStart p.limit where
  disj := by
    have := h.free_pairwise
    rw [List.pairwise_map] at this
    exact this.imp fun hd => ((hd.mono (Region.within_node _)).symm.mono
      (Region.within_node _)).symm
  pos r hr := (h.free r hr).1
  apart r hr := (h.free_huge hr (List.mem_cons_self) hb).mono (Region.within_node r)
  len := by
    have := b.size_pos (h.huge b List.mem_cons_self hb).1
    unfold Block.span
    simp only
    omega
  inside r hr := (h.free r hr).2
  span := by
    obtain ⟨-, h₁, h₂⟩ := h.huge b List.mem_cons_self hb
    unfold Block.span Region.stop headerBytes at *
    simp only
    omega
  outside := by simp

/-- A large block is given back. -/
theorem Sound.giveBack (h : Sound p sh (b :: live)) (hb : b.Huge)
    (hlong : ∀ r ∈ sh.free, headerBytes ≤ r.len) :
    Sound p ⟨KmallocKfree.giveBack b.span sh.free, sh.pages⟩ live ∧
      ∀ r ∈ KmallocKfree.giveBack b.span sh.free, headerBytes ≤ r.len := by
  have haround := h.around hb
  have hperm := giveBack_perm haround
  have hreq := (h.huge b List.mem_cons_self hb).1
  have hgiven : headerBytes ≤ (givenBack b.span sh.free).len := by
    refine givenBack_long hlong ?_
    have := b.size_pos hreq
    unfold Block.span headerBytes
    simp only
    omega
  have hlong' : ∀ r ∈ KmallocKfree.giveBack b.span sh.free, headerBytes ≤ r.len := by
    intro r hr
    rcases List.mem_cons.mp (hperm.mem_iff.mp hr) with rfl | hr
    · exact hgiven
    · exact hlong r ((others_sublist _ _).subset hr)
  have hbounds := joined_bounds haround
  have hwithin := givenBack_within b.span sh.free
  refine ⟨⟨h.pages, ?_, ?_, h.paged, ?_, ?_, ?_⟩, hlong'⟩
  · -- up to order: the new node, then what the old nodes and blocks keep
    have hnodes : ∀ l : List Region, (∀ r ∈ l, headerBytes ≤ r.len) → l.map Region.node = l := by
      intro l hl
      exact (List.map_congr_left fun r hr => Region.node_eq (hl r hr)).trans (List.map_id l)
    have hspans := h.spans
    unfold Shape.spans at *
    rw [hnodes _ hlong] at hspans
    rw [hnodes _ hlong']
    set rest := sh.pages.map Page.span ++ (live.filter fun b => b.Huge).map Block.span with hrest
    have hblock : (sh.free ++ (b.span :: rest)).Pairwise Disj := by
      rw [List.filter_cons_of_pos (by simpa using hb), List.map_cons] at hspans
      refine (disjoint_perm ?_).mp hspans
      exact List.Perm.append_left _ List.perm_middle
    obtain ⟨-, htail, hcross⟩ := List.pairwise_append.mp hblock
    obtain ⟨hbrest, hrestd⟩ := List.pairwise_cons.mp htail
    have hrestpos : ∀ u ∈ rest, 0 < u.len := by
      intro u hu
      rcases List.mem_append.mp hu with hu | hu
      · obtain ⟨pg, -, rfl⟩ := List.mem_map.mp hu
        exact Nat.zero_lt_succ _
      · obtain ⟨c, -, rfl⟩ := List.mem_map.mp hu
        exact Nat.add_pos_right _ (Nat.zero_lt_succ _)
    rw [disjoint_perm (hperm.append_right rest)]
    have hjoined := haround.joined_pairwise
    obtain ⟨hj₁, hj₂⟩ := List.pairwise_cons.mp hjoined
    refine List.pairwise_append.mpr ⟨List.pairwise_cons.mpr
      ⟨fun u hu => (hj₁ u hu).mono hwithin, hj₂⟩, hrestd, ?_⟩
    intro x hx u hu
    rcases List.mem_cons.mp hx with rfl | hx
    · refine Disj.mono ?_ hwithin
      have hne : ∀ r ∈ sh.free, u ≠ r := by
        rintro r hr rfl
        have hself := hcross u hr u (List.mem_cons_of_mem _ hu)
        have := hrestpos u hu
        unfold Disj Region.stop at hself
        omega
      exact joined_disj (hrestpos u hu)
        (fun r hr _ => hcross r hr u (List.mem_cons_of_mem _ hu)) (hbrest u hu)
        (fun r hr => hne r (touchingBelow_some hr).1) (fun r hr => hne r (touchingAbove_some hr).1)
    · exact hcross x ((others_sublist _ _).subset hx) u (List.mem_cons_of_mem _ hu)
  · intro r hr
    rcases List.mem_cons.mp (hperm.mem_iff.mp hr) with rfl | hr
    · unfold Within at hwithin
      unfold headerBytes at hgiven
      omega
    · exact h.free r ((others_sublist _ _).subset hr)
  · exact fun c hc => h.small c (List.mem_cons_of_mem _ hc)
  · exact fun c hc => h.huge c (List.mem_cons_of_mem _ hc)
  · exact (List.pairwise_cons.mp h.apart).2

end Shape
end KmallocKfree
