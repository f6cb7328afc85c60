import KmallocKfree.Shape

/-!
# The invariant of the allocator

A state holds a shape when its memory links the free list, the page lists and the
list of each page as the shape says, and every live large block has its header. The
footprints bound what a call touches: the bytes of one page, or of nodes of the heap
free list, and never a byte of a live block other than the one being freed.
-/
namespace KmallocKfree

open Prog Region Shape
open ByteMemory (Mem)

/-- The memory and the variables hold the shape. -/
structure Holds (p : Platform) (sh : Shape) (live : List Block) (m : Mem) (v : Global → ℕ) :
    Prop where
  heap : FreeList m (v .head) sh.free 0
  lists : ∀ cpu < p.cpuCount,
    Path (nextAt m) (v (.pagehead cpu)) ((sh.pagesOf cpu).map Page.base) 0
  pages : ∀ pg ∈ sh.pages, pg.Repr m
  headers : ∀ b ∈ live, b.Huge → sizeAt m b.span.start = b.size ∧
    wordAt m b.span.start = toWord hugeMagic

def Unlocked (p : Platform) (s : PmmState) : Prop :=
  s.lock .heapLock = 0 ∧ ∀ cpu < p.cpuCount, s.lock (.pagelist cpu) = 0

/-- The state of `w` is sound and holds the shape `sh`. -/
structure Inv (p : Platform) (w : World) (sh : Shape) : Prop where
  sound : Sound p sh w.live
  holds : Holds p sh w.live w.st.mem w.st.var
  unlocked : Unlocked p w.st

/-- The record at `q` lies in free space: in a node of the heap free list, in a free
node of a page, or behind the header of an empty page. -/
def InFree (sh : Shape) (q : ℕ) : Prop :=
  (∃ r ∈ sh.free, Within ⟨q, headerBytes⟩ r.node) ∨ ∃ pg ∈ sh.pages,
    (∃ r ∈ pg.runs, Within ⟨q, headerBytes⟩ r) ∨
      (pg.cls = 0 ∧ Within ⟨q, headerBytes⟩ ⟨pg.base + headerBytes, pageBytes - headerBytes⟩)

/-- What a call may touch when the blocks of `keep` stay live; `T` are the addresses
outside free space that it uses as nodes: the block being freed, and the page headers
that the walk over a page's list visits. -/
def callFoot (sh : Shape) (keep : List Block) (T : List ℕ) : Footprint Struct Global Lock where
  reads _ := True
  writes x := ∀ b ∈ keep, ¬ b.region.Contains x
  derefs k q := match k with
    | .pageheader => (∃ pg ∈ sh.pages, q = pg.base) ∨ ∃ r ∈ sh.free, q = r.start
    | .pagefreenode => q ∈ T ∨ InFree sh q
    | .freenode | .header => q ∈ T ∨ ∃ r ∈ sh.free,
        Within ⟨q, headerBytes⟩ r.node ∨ ∃ x ∈ afterPage r, q = x.start
    | .bytes => True
  gets _ := True
  sets _ := True
  locks _ := True

/-- No bounds. -/
def anyFoot : Footprint Struct Global Lock where
  reads _ := True
  writes _ := True
  derefs _ _ := True
  gets _ := True
  sets _ := True
  locks _ := True

/-- What an operation on one page touches. -/
def pageFoot (pg : Page) (cpu : ℕ) (keep : List Block) (T : List ℕ) :
    Footprint Struct Global Lock where
  reads _ := True
  writes x := pg.span.Contains x ∧ ∀ b ∈ keep, ¬ b.region.Contains x
  derefs k q := match k with
    | .pageheader => q = pg.base
    | .pagefreenode => q ∈ T ∨ ∃ r ∈ pg.runs, Within ⟨q, headerBytes⟩ r
    | .bytes => True
    | _ => False
  gets _ := False
  sets _ := False
  locks l := l = .pagelist cpu

/-- What an operation on nodes of the heap free list touches; `headers` are the
addresses where it may find or put the header of a block. -/
def heapFoot (nodes : List Region) (headers : ℕ → Prop) (cpu : ℕ) :
    Footprint Struct Global Lock where
  reads _ := True
  writes x := ∃ r ∈ nodes, r.node.Contains x
  derefs k q := match k with
    | .freenode => ∃ r ∈ nodes, q = r.start
    | .header => headers q
    | .bytes => True
    | _ => False
  gets x := x = .head
  sets x := x = .head
  locks l := l = .heapLock ∨ l = .pagelist cpu

section Owning

variable {pg : Page} {cpu q n : ℕ} {keep : List Block} {T : List ℕ} {nodes : List Region}
  {r : Region} {headers : ℕ → Prop}

theorem contains_of_within {x t : Region} {y : ℕ} (h : x.Within t) (hy : x.start ≤ y)
    (hy' : y < x.stop) : t.Contains y := h.contains ⟨hy, hy'⟩

theorem disj_not_contains {x t : Region} {y : ℕ} (h : x.Disj t) (hy : x.start ≤ y)
    (hy' : y < x.stop) : ¬ t.Contains y := h.not_contains ⟨hy, hy'⟩

/-- Bytes of the page outside the live blocks may be written. -/
theorem pageFoot_owns {k : Struct} (hpos : 0 < pg.base) (hin : Within ⟨q, n⟩ pg.span)
    (hkeep : ∀ b ∈ keep, Disj ⟨q, n⟩ b.region) (hk : (pageFoot pg cpu keep T).derefs k q) :
    (pageFoot pg cpu keep T).Owns k q n where
  ne_null := by
    unfold Within Page.span at hin
    simp only at hin
    omega
  derefs := hk
  reads _ _ _ := trivial
  writes y hy hy' := ⟨contains_of_within hin hy hy',
    fun b hb => disj_not_contains (hkeep b hb) hy hy'⟩

theorem pageFoot_node (hpos : 0 < pg.base) (hin : Within ⟨q, headerBytes⟩ pg.span)
    (hkeep : ∀ b ∈ keep, Disj ⟨q, headerBytes⟩ b.region)
    (hq : q ∈ T ∨ ∃ r ∈ pg.runs, Within ⟨q, headerBytes⟩ r) :
    (pageFoot pg cpu keep T).Owns .pagefreenode q 16 :=
  pageFoot_owns hpos hin hkeep hq

theorem heapFoot_node (hpos : 0 < r.start) (hr : r ∈ nodes) :
    (heapFoot nodes headers cpu).Owns .freenode r.start 16 where
  ne_null := by omega
  derefs := ⟨r, hr, rfl⟩
  reads _ _ _ := trivial
  writes y hy hy' := ⟨r, hr, by
    unfold Region.Contains Region.node Region.stop headerBytes
    simp only
    omega⟩

theorem heapFoot_header (hpos : 0 < r.start) (hr : r ∈ nodes)
    (hin : Within ⟨q, headerBytes⟩ r.node) (hq : headers q) :
    (heapFoot nodes headers cpu).Owns .header q 16 where
  ne_null := by
    unfold Within at hin
    simp only [Region.node_start] at hin
    omega
  derefs := hq
  reads _ _ _ := trivial
  writes y hy hy' := ⟨r, hr, contains_of_within hin hy hy'⟩

end Owning

section Inside

variable {sh : Shape} {keep : List Block} {pg : Page} {cpu : ℕ} {T : List ℕ}
  {nodes : List Region} {headers : ℕ → Prop}

theorem page_record (pg : Page) : Within ⟨pg.base, headerBytes⟩ pg.span := by
  unfold Within Page.span Region.stop headerBytes pageBytes
  simp only
  omega

/-- What an operation on a page touches, a call may touch, when the page is one of
the shape or comes from its free space. -/
theorem pageFoot_sub (hbase : (∃ x ∈ sh.pages, pg.base = x.base) ∨ ∃ r ∈ sh.free, pg.base = r.start)
    (hruns : ∀ r ∈ pg.runs, ∀ q, Within ⟨q, headerBytes⟩ r → InFree sh q) :
    (pageFoot pg cpu keep T).Sub (callFoot sh keep T) where
  reads _ _ := trivial
  writes y hy := hy.2
  derefs k q hq := by
    cases k with
    | pageheader =>
      obtain rfl : q = pg.base := hq
      exact hbase
    | pagefreenode =>
      refine hq.imp id ?_
      rintro ⟨r, hr, hin⟩
      exact hruns r hr q hin
    | header => exact hq.elim
    | freenode => exact hq.elim
    | bytes => trivial
  gets _ _ := trivial
  sets _ _ := trivial
  locks _ _ := trivial

/-- What an operation on nodes touches, a call may touch, when the nodes belong to the
free list, remain of one of them, or are given back. -/
theorem heapFoot_sub (hkeep : ∀ r ∈ nodes, ∀ b ∈ keep, r.node.Disj b.region)
    (hnodes : ∀ x ∈ nodes, x ∈ sh.free ∨ (∃ r ∈ sh.free, x ∈ afterPage r) ∨ x.start ∈ T)
    (hheaders : ∀ q, headers q → q ∈ T ∨ ∃ r ∈ sh.free, Within ⟨q, headerBytes⟩ r.node) :
    (heapFoot nodes headers cpu).Sub (callFoot sh keep T) where
  reads _ _ := trivial
  writes y hy := by
    obtain ⟨r, hr, hy⟩ := hy
    exact fun b hb => (hkeep r hr b hb).not_contains hy
  derefs k q hq := by
    cases k with
    | freenode =>
      obtain ⟨x, hx, rfl⟩ := hq
      rcases hnodes x hx with hx | ⟨r, hr, hx⟩ | hx
      · refine .inr ⟨x, hx, .inl ?_⟩
        unfold Within Region.node Region.stop
        simp only
        omega
      · exact .inr ⟨r, hr, .inr ⟨x, hx, rfl⟩⟩
      · exact .inl hx
    | header => exact (hheaders q hq).imp id fun ⟨r, hr, hin⟩ => ⟨r, hr, .inl hin⟩
    | bytes => trivial
    | pageheader => exact hq.elim
    | pagefreenode => exact hq.elim
  gets _ _ := trivial
  sets _ _ := trivial
  locks _ _ := trivial

end Inside

section Frames

variable {p : Platform} {sh : Shape} {live live' : List Block} {pg : Page} {b : Block}
  {P₁ P₂ : List Page} {m m' : Mem} {v v' : Global → ℕ} {x : Region} {q : ℕ}

/-- A record outside the region that changed is the same. -/
theorem same_of_outside (hout : ∀ y, ¬ x.Contains y → m' y = m y)
    (hd : x.Disj ⟨q, headerBytes⟩) : SameRecord m m' q := fun y h₁ h₂ =>
  hout y (disj_not_contains hd.symm h₁ h₂)

theorem node_record (r : Region) : Within ⟨r.start, headerBytes⟩ r.node := by
  unfold Within Region.node Region.stop
  simp only
  omega

theorem run_record (hv : pg.Valid) {r : Region} (hr : r ∈ pg.runs) :
    Within ⟨r.start, headerBytes⟩ r ∧ r.Within pg.span := by
  have hb := (hv.run r hr).bounds
  have hc := (hv.sizeClass_of_mem hr).ge
  unfold Within Page.span headerBytes Region.stop at *
  simp only at *
  omega

theorem span_record (b : Block) : Within ⟨b.span.start, headerBytes⟩ b.span := by
  unfold Within Block.span Region.stop
  simp only
  omega

/-- Only the records of the shape matter. -/
theorem Holds.frame (h : Holds p sh live m v) (hfree : ∀ r ∈ sh.free, SameRecord m m' r.start)
    (hbase : ∀ pg ∈ sh.pages, SameRecord m m' pg.base)
    (hruns : ∀ pg ∈ sh.pages, ∀ r ∈ pg.runs, SameRecord m m' r.start)
    (hhuge : ∀ b ∈ live, b.Huge → SameRecord m m' b.span.start) : Holds p sh live m' v where
  heap := h.heap.frame hfree
  lists cpu hcpu := (h.lists cpu hcpu).congr fun q hq => by
    obtain ⟨pg, hpg, rfl⟩ := List.mem_map.mp hq
    exact (hbase pg (List.mem_filter.mp hpg).1).next
  pages pg hpg := (h.pages pg hpg).frame (hbase pg hpg) (hruns pg hpg)
  headers b hb hbh := by
    obtain ⟨h₁, h₂⟩ := h.headers b hb hbh
    exact ⟨(hhuge b hb hbh).size.trans h₁, (hhuge b hb hbh).word.trans h₂⟩

theorem Holds.mono_live (h : Holds p sh live m v) (hl : ∀ b ∈ live', b.Huge → b ∈ live) :
    Holds p sh live' m v :=
  ⟨h.heap, h.lists, h.pages, fun b hb hbh => h.headers b (hl b hb hbh) hbh⟩

theorem pagesOf_replace {pg' : Page} (hpages : sh.pages = P₁ ++ pg :: P₂)
    (hbase : pg'.base = pg.base)
    (howner : pg'.owner = pg.owner) (cpu : ℕ) :
    ((⟨sh.free, P₁ ++ pg' :: P₂⟩ : Shape).pagesOf cpu).map Page.base =
      (sh.pagesOf cpu).map Page.base := by
  unfold Shape.pagesOf
  rw [hpages]
  simp only [List.filter_append, List.filter_cons, howner]
  split_ifs <;> simp [hbase]

/-- An operation changed one page only. -/
theorem Holds.page (hs : Sound p sh live) (h : Holds p sh live m v)
    (hpages : sh.pages = P₁ ++ pg :: P₂) (pg' : Page) (hbase : pg'.base = pg.base)
    (howner : pg'.owner = pg.owner) (hrepr : pg'.Repr m')
    (hnext : nextAt m' pg.base = nextAt m pg.base)
    (hout : ∀ y, ¬ pg.span.Contains y → m' y = m y) :
    Holds p ⟨sh.free, P₁ ++ pg' :: P₂⟩ live m' v where
  heap := h.heap.frame fun r hr => same_of_outside hout
    (((hs.free_page hr (by rw [hpages]; simp)).mono (node_record r)).symm)
  lists cpu hcpu := by
    rw [pagesOf_replace hpages hbase howner]
    refine (h.lists cpu hcpu).congr fun q hq => ?_
    obtain ⟨y, hy, rfl⟩ := List.mem_map.mp hq
    have hmem := (List.mem_filter.mp hy).1
    by_cases heq : y = pg
    · rw [heq]
      exact hnext
    · rw [hpages] at hmem
      have hy' : y ∈ P₁ ++ P₂ := by simpa [heq] using hmem
      exact (same_of_outside hout (((hs.page_page hpages hy').symm.mono
        (page_record y)).symm)).next
  pages y hy := by
    have hother : ∀ y ∈ P₁ ++ P₂, y.Repr m' := by
      intro y hy
      have hmem : y ∈ sh.pages := by
        rw [hpages]
        simp only [List.mem_append, List.mem_cons] at hy ⊢
        tauto
      have hd := hs.page_page hpages hy
      refine (h.pages y hmem).frame (same_of_outside hout ((hd.symm.mono (page_record y)).symm)) ?_
      intro r hr
      obtain ⟨h₁, h₂⟩ := run_record (hs.pages y hmem).1 hr
      exact same_of_outside hout (((hd.symm.mono h₂).mono h₁).symm)
    simp only [List.mem_append, List.mem_cons] at hy
    rcases hy with hy | rfl | hy
    · exact hother y (by simp [hy])
    · exact hrepr
    · exact hother y (by simp [hy])
  headers b hb hbh := by
    have hmem : pg ∈ sh.pages := by rw [hpages]; simp
    have hd := hs.page_huge hmem hb hbh
    have hsame : SameRecord m m' b.span.start :=
      same_of_outside hout ((hd.symm.mono (span_record b)).symm)
    obtain ⟨h₁, h₂⟩ := h.headers b hb hbh
    exact ⟨hsame.size.trans h₁, hsame.word.trans h₂⟩

/-- An operation changed nodes of the free list, and records that belong to nobody. -/
theorem Holds.heap_changed (h : Holds p sh live m v) {l : List Region} (nodes : List Region)
    (hlist : FreeList m' (v' .head) l 0) (hv : ∀ cpu, v' (.pagehead cpu) = v (.pagehead cpu))
    (hout : ∀ y, (∀ r ∈ nodes, ¬ r.node.Contains y) → m' y = m y)
    (hvalid : ∀ pg ∈ sh.pages, pg.Valid)
    (hpages : ∀ r ∈ nodes, ∀ pg ∈ sh.pages, r.node.Disj pg.span)
    (hspans : ∀ r ∈ nodes, ∀ b ∈ live, b.Huge → r.node.Disj b.span) :
    Holds p ⟨l, sh.pages⟩ live m' v' := by
  have hsame : ∀ x : Region, (∀ r ∈ nodes, r.node.Disj x) → ∀ q, Within ⟨q, headerBytes⟩ x →
      SameRecord m m' q := by
    intro x hx q hq y h₁ h₂
    refine hout y fun r hr => ?_
    exact disj_not_contains ((hx r hr).symm.mono hq) h₁ h₂
  have hpage : ∀ pg ∈ sh.pages, ∀ q, Within ⟨q, headerBytes⟩ pg.span → SameRecord m m' q :=
    fun pg hpg => hsame pg.span fun r hr => hpages r hr pg hpg
  refine ⟨hlist, fun cpu hcpu => ?_, fun pg hpg => ?_, fun b hb hbh => ?_⟩
  · rw [hv]
    refine (h.lists cpu hcpu).congr fun q hq => ?_
    obtain ⟨pg, hpg, rfl⟩ := List.mem_map.mp hq
    exact (hpage pg (List.mem_filter.mp hpg).1 _ (page_record pg)).next
  · refine (h.pages pg hpg).frame (hpage pg hpg _ (page_record pg)) fun r hr => hpage pg hpg _ ?_
    obtain ⟨⟨h₁, h₂⟩, h₃, h₄⟩ := run_record (hvalid pg hpg) hr
    exact ⟨le_trans h₃ h₁, le_trans h₂ h₄⟩
  · have hs := hsame b.span (fun r hr => hspans r hr b hb hbh) _ (span_record b)
    obtain ⟨h₁, h₂⟩ := h.headers b hb hbh
    exact ⟨hs.size.trans h₁, hs.word.trans h₂⟩

/-- A page that belonged to nobody becomes the first page of a CPU. -/
theorem Holds.addPage {l : List Region} (hs : Sound p ⟨l, pg :: sh.pages⟩ live)
    (h : Holds p ⟨l, sh.pages⟩ live m v) (hrepr : pg.Repr m')
    (hnext : nextAt m' pg.base = v (.pagehead pg.owner))
    (hv : v' = fun x => if x = .pagehead pg.owner then pg.base else v x)
    (hout : ∀ y, ¬ pg.span.Contains y → m' y = m y) :
    Holds p ⟨l, pg :: sh.pages⟩ live m' v' := by
  have hcons : (⟨l, pg :: sh.pages⟩ : Shape).pages = [] ++ pg :: sh.pages := rfl
  have hother : ∀ y ∈ sh.pages, pg.span.Disj y.span := fun y hy => hs.page_page hcons hy
  have hbase : ∀ y ∈ sh.pages, SameRecord m m' y.base := fun y hy =>
    same_of_outside hout (((hother y hy).symm.mono (page_record y)).symm)
  refine ⟨?_, fun cpu hcpu => ?_, fun y hy => ?_, fun b hb hbh => ?_⟩
  · rw [hv]
    refine h.heap.frame fun r hr => same_of_outside hout ?_
    exact ((hs.free_page hr (List.mem_cons_self)).mono (node_record r)).symm
  · have hlist := h.lists cpu hcpu
    have hcongr : Path (nextAt m') (v (.pagehead cpu))
        (((⟨l, sh.pages⟩ : Shape).pagesOf cpu).map Page.base) 0 := by
      refine hlist.congr fun q hq => ?_
      obtain ⟨y, hy, rfl⟩ := List.mem_map.mp hq
      exact (hbase y (List.mem_filter.mp hy).1).next
    unfold Shape.pagesOf at hcongr ⊢
    rw [hv]
    by_cases hcpu' : pg.owner = cpu
    · rw [List.filter_cons_of_pos (by simpa using hcpu')]
      subst hcpu'
      refine ⟨if_pos rfl, ?_⟩
      rw [hnext]
      exact hcongr
    · rw [List.filter_cons_of_neg (by simpa using hcpu')]
      have hne : Global.pagehead cpu ≠ .pagehead pg.owner := fun h => hcpu' (by cases h; rfl)
      simpa only [if_neg hne] using hcongr
  · rcases List.mem_cons.mp hy with rfl | hy
    · exact hrepr
    · refine (h.pages y hy).frame (hbase y hy) fun r hr => ?_
      obtain ⟨h₁, h₂⟩ := run_record (hs.pages y (List.mem_cons_of_mem _ hy)).1 hr
      exact same_of_outside hout ((((hother y hy).symm.mono h₂).mono h₁).symm)
  · have hd := hs.page_huge (List.mem_cons_self) hb hbh
    have hsame : SameRecord m m' b.span.start :=
      same_of_outside hout ((hd.symm.mono (span_record b)).symm)
    obtain ⟨h₁, h₂⟩ := h.headers b hb hbh
    exact ⟨hsame.size.trans h₁, hsame.word.trans h₂⟩

end Frames
end KmallocKfree
