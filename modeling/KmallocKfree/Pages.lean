import KmallocKfree.Heap
import KmallocKfree.Rounding

/-!
# Pages

A page starts with its header; the blocks of its class follow, and each maximal
stretch that was freed or never used is a node of the page's own list. The header
finds the list by the index of its first block. Index 0 is the header itself and
stands for a page without free blocks; size 0 stands for a page without live blocks.
-/
namespace KmallocKfree

open Prog Region
open ByteMemory (Mem)

/-- A stretch of blocks of size `c` in the page at `base`, behind its header. -/
def IsRun (base c : ℕ) (r : Region) : Prop :=
  ∃ k n, 0 < k ∧ 0 < n ∧ r.start = base + k * c ∧ r.len = n * c ∧ r.stop ≤ base + pageBytes

/-- The index that stands for a free list. -/
def indexOf (base c : ℕ) : List Region → ℕ
  | [] => 0
  | r :: _ => (r.start - base) / c

/-- A page: its class (0 for an empty page), its free list in order, and whether
that list runs on into the page header, as it does once a block was freed while the
page was full. -/
structure Page where
  owner : ℕ
  base : ℕ
  cls : ℕ
  runs : List Region
  looped : Bool
  deriving DecidableEq

namespace Page

def span (pg : Page) : Region := ⟨pg.base, pageBytes⟩

/-- The index of the first free block; 0 for a full page, 1 for an empty one. -/
def index (pg : Page) : ℕ := if pg.cls = 0 then 1 else indexOf pg.base pg.cls pg.runs

/-- Where the free list of the page ends. -/
def tail (pg : Page) : ℕ := if pg.looped then pg.base else 0

/-- Take the first block of the first node. -/
def pop (pg : Page) : Page :=
  { pg with
    runs := match pg.runs with
      | [] => []
      | r :: rest =>
          if r.len = pg.cls then rest else ⟨r.start + pg.cls, r.len - pg.cls⟩ :: rest }

/-- A page of class `c` with all its blocks free. -/
def whole (owner base c : ℕ) : Page := ⟨owner, base, c, [⟨base + c, pageBytes - c⟩], false⟩

/-- A page of class `c` whose block 1 is taken and whose other blocks are free. -/
def fresh (owner base c : ℕ) : Page :=
  ⟨owner, base, c, [⟨base + 2 * c, pageBytes - 2 * c⟩], false⟩

structure Valid (pg : Page) : Prop where
  base_pos : 0 < pg.base
  max : pg.base + pageBytes < 18446744073709551616
  cls : pg.cls = 0 ∨ SizeClass pg.cls
  run : ∀ r ∈ pg.runs, IsRun pg.base pg.cls r
  disj : pg.runs.Pairwise Disj
  empty : pg.cls = 0 → pg.runs = []

/-- Memory `m` holds the header and the free nodes of the page. -/
structure Repr (m : Mem) (pg : Page) : Prop where
  size : sizeAt m pg.base = pg.cls
  index : wordAt m pg.base = pg.index
  list : ∃ a, FreeList m a pg.runs pg.tail
  magic : ∀ r ∈ pg.runs, wordAt m r.start = toWord pageMagic

end Page

section Runs

variable {base c : ℕ} {r : Region}

theorem IsRun.bounds (h : IsRun base c r) :
    base + c ≤ r.start ∧ c ≤ r.len ∧ r.stop ≤ base + pageBytes := by
  obtain ⟨k, n, hk, hn, hstart, hlen, hstop⟩ := h
  have h₁ := Nat.le_mul_of_pos_left c hk
  have h₂ := Nat.le_mul_of_pos_left c hn
  omega

theorem index_mul_add {k : ℕ} (hc : 0 < c) : (base + k * c - base) / c = k := by
  rw [Nat.add_sub_cancel_left, Nat.mul_div_cancel _ hc]

theorem IsRun.index (h : IsRun base c r) (hc : 0 < c) :
    base + (r.start - base) / c * c = r.start ∧ 0 < (r.start - base) / c := by
  obtain ⟨k, n, hk, hn, hstart, hlen, hstop⟩ := h
  rw [hstart, index_mul_add hc]
  exact ⟨rfl, hk⟩

/-- Without its first block a run is empty or a run again. -/
theorem IsRun.rest (h : IsRun base c r) (hne : r.len ≠ c) :
    IsRun base c ⟨r.start + c, r.len - c⟩ ∧ 2 * c ≤ r.len := by
  obtain ⟨k, n, hk, hn, hstart, hlen, hstop⟩ := h
  have hn1 : n ≠ 1 := by
    rintro rfl
    exact hne (by omega)
  obtain ⟨n, rfl⟩ : ∃ m, n = m + 2 := ⟨n - 2, by omega⟩
  have h₁ : (k + 1) * c = k * c + c := Nat.succ_mul k c
  have h₂ : (n + 2) * c = (n + 1) * c + c := Nat.succ_mul (n + 1) c
  have h₃ : (n + 1) * c = n * c + c := Nat.succ_mul n c
  refine ⟨⟨k + 1, n + 1, by omega, by omega, ?_, ?_, ?_⟩, by omega⟩
  · simp only
    omega
  · simp only
    omega
  · unfold Region.stop at *
    simp only
    omega

end Runs

namespace Page

variable {pg : Page} {m m' : Mem} {r t : Region} {l : List Region}

theorem Valid.sizeClass (h : pg.Valid) (hr : pg.runs ≠ []) : SizeClass pg.cls :=
  h.cls.resolve_left fun h0 => hr (h.empty h0)

theorem Valid.sizeClass_of_mem (h : pg.Valid) (hr : r ∈ pg.runs) : SizeClass pg.cls :=
  h.sizeClass (List.ne_nil_of_mem hr)

/-- Records of nodes lie behind the header and apart from each other. -/
theorem Valid.separated (h : pg.Valid) : Separated pg.runs :=
  h.disj.imp_of_mem fun {x y} hx hy hd => by
    have hc := (h.sizeClass_of_mem hx).ge
    have hx' := (h.run x hx).bounds
    have hy' := (h.run y hy).bounds
    exact hd.apart (by omega) (by omega)

theorem Valid.apart_base (h : pg.Valid) (hr : r ∈ pg.runs) : Apart pg.base r.start := by
  have hc := (h.sizeClass_of_mem hr).ge
  have hr' := (h.run r hr).bounds
  unfold Apart
  omega

theorem pop_runs_last {rest : List Region} (hruns : pg.runs = r :: rest) (h : r.len = pg.cls) :
    pg.pop.runs = rest := by
  simp [pop, hruns, h]

theorem pop_runs_more {rest : List Region} (hruns : pg.runs = r :: rest) (h : r.len ≠ pg.cls) :
    pg.pop.runs = ⟨r.start + pg.cls, r.len - pg.cls⟩ :: rest := by
  simp [pop, hruns, h]

/-- What is free after the first block was taken was free before, outside that block. -/
theorem Valid.mem_pop {rest : List Region} (hv : pg.Valid) (hruns : pg.runs = r :: rest)
    (ht : t ∈ pg.pop.runs) :
    (∃ x ∈ pg.runs, t.Within x) ∧ IsRun pg.base pg.cls t ∧ t.Disj ⟨r.start, pg.cls⟩ := by
  have hmem : r ∈ pg.runs := by rw [hruns]; simp
  have hrb := (hv.run r hmem).bounds
  have hdisj := hv.disj
  rw [hruns] at hdisj
  obtain ⟨hr, -⟩ := List.pairwise_cons.mp hdisj
  have hrest : t ∈ rest → (∃ x ∈ pg.runs, t.Within x) ∧ IsRun pg.base pg.cls t ∧
      t.Disj ⟨r.start, pg.cls⟩ := by
    intro ht
    have htm : t ∈ pg.runs := by rw [hruns]; exact List.mem_cons_of_mem _ ht
    refine ⟨⟨t, htm, le_rfl, le_rfl⟩, hv.run t htm, ?_⟩
    have := hr t ht
    unfold Disj Region.stop at *
    simp only
    omega
  by_cases hlen : r.len = pg.cls
  · rw [pop_runs_last hruns hlen] at ht
    exact hrest ht
  · rw [pop_runs_more hruns hlen] at ht
    rcases List.mem_cons.mp ht with rfl | ht
    · have hsub := (hv.run r hmem).rest hlen
      refine ⟨⟨r, hmem, ?_⟩, hsub.1, .inr le_rfl⟩
      unfold Within Region.stop
      simp only
      omega
    · exact hrest ht

theorem Valid.pop {rest : List Region} (hv : pg.Valid) (hruns : pg.runs = r :: rest) :
    pg.pop.Valid where
  base_pos := hv.base_pos
  max := hv.max
  cls := hv.cls
  run _ ht := (hv.mem_pop hruns ht).2.1
  disj := by
    have hmem : r ∈ pg.runs := by rw [hruns]; simp
    have hdisj := hv.disj
    rw [hruns] at hdisj
    obtain ⟨hr, hrest⟩ := List.pairwise_cons.mp hdisj
    by_cases hlen : r.len = pg.cls
    · rw [pop_runs_last hruns hlen]
      exact hrest
    · rw [pop_runs_more hruns hlen]
      have hrb := (hv.run r hmem).bounds
      refine List.pairwise_cons.mpr ⟨fun t ht => (hr t ht).mono ?_, hrest⟩
      unfold Within Region.stop
      simp only
      omega
  empty h0 := by
    have hmem : r ∈ pg.runs := by rw [hruns]; simp
    have := hv.empty h0
    rw [this] at hmem
    simp at hmem

theorem whole_valid {owner base c : ℕ} (hc : SizeClass c) (hpos : 0 < base)
    (hmax : base + pageBytes < 18446744073709551616) : (whole owner base c).Valid where
  base_pos := hpos
  max := hmax
  cls := .inr hc
  run r hr := by
    obtain rfl := List.mem_singleton.mp hr
    obtain ⟨n, hn⟩ := hc.dvd
    have hge := hc.ge
    have hle := hc.le
    have hpb : pageBytes = 65536 := rfl
    obtain ⟨n, rfl⟩ : ∃ k, n = k + 2 := ⟨n - 2, by
      have : n ≠ 0 := by rintro rfl; omega
      have : n ≠ 1 := by rintro rfl; omega
      omega⟩
    have h₁ : c * (n + 2) = c * (n + 1) + c := Nat.mul_succ c (n + 1)
    refine ⟨1, n + 1, one_pos, by omega, ?_, ?_, ?_⟩
    · change base + c = base + 1 * c
      omega
    · change pageBytes - c = (n + 1) * c
      rw [Nat.mul_comm]
      omega
    · change base + c + (pageBytes - c) ≤ base + pageBytes
      omega
  disj := List.pairwise_singleton _ _
  empty h0 := absurd h0 (by have := hc.ge; change c ≠ 0; omega)

/-- Taking block 1 of a page with all blocks free. -/
theorem pop_whole {owner base c : ℕ} (hc : SizeClass c) :
    (whole owner base c).pop = fresh owner base c := by
  have hle := hc.le
  have hpb : pageBytes = 65536 := rfl
  have hne : pageBytes - c ≠ c := by omega
  unfold pop whole fresh
  simp only [if_neg hne]
  congr 3
  · omega
  · omega

/-- A page only reads its header and the records of its nodes. -/
theorem Repr.frame (h : Repr m pg) (hbase : SameRecord m m' pg.base)
    (hruns : ∀ r ∈ pg.runs, SameRecord m m' r.start) : Repr m' pg where
  size := hbase.size.trans h.size
  index := hbase.word.trans h.index
  list := h.list.imp fun _ ha => ha.frame hruns
  magic r hr := (hruns r hr).word.trans (h.magic r hr)

end Page

section Fast

variable {F : Footprint Struct Global Lock} {s : PmmState} {pg : Page} {r : Region}
  {rest : List Region} {cpu : ℕ}

theorem wp_divide {a b : ℕ} (hb : b ≠ 0) (Q : ℕ → PmmState → Prop) :
    wp F.Allows (divide a b) s Q ↔ Q (a / b) s := by
  rw [divide, if_neg hb, wp_pure]

theorem wp_dropHeadNode (hv : pg.Valid) (hruns : pg.runs = r :: rest)
    (hlist : FreeList s.mem (nextAt s.mem r.start) rest pg.tail)
    (hmagic : wordAt s.mem r.start = toWord pageMagic) (hhead : F.Updates .pageheader pg.base)
    (hnode : F.Owns .pagefreenode r.start 16) :
    wp F.Allows (dropHeadNode pg.base r.start pg.cls) s fun _ s' =>
      s' = s.setMem (setWordAt s.mem pg.base (indexOf pg.base pg.cls rest)) := by
  have hclass := hv.sizeClass_of_mem (r := r) (by rw [hruns]; simp)
  have hc := hclass.ge
  have hmax := hv.max
  have hpb : pageBytes = 65536 := rfl
  have hapart : Apart pg.base r.start := hv.apart_base (by rw [hruns]; simp)
  have hmagic' : toInt (wordAt s.mem r.start) = pageMagic := by
    rw [hmagic]
    exact toInt_toWord (by decide) (by decide)
  -- the head moves to the block that the node links to
  have hmove : ∀ k, k * pg.cls ≤ pageBytes → nextAt s.mem r.start = pg.base + k * pg.cls →
      wp F.Allows (dropHeadNode pg.base r.start pg.cls) s fun _ s' =>
        s' = s.setMem (setWordAt s.mem pg.base k) := by
    intro k hk hnext
    have hk' : k < 4294967296 := by
      have := Nat.le_mul_of_pos_right k (show 0 < pg.cls by omega)
      omega
    have hne : pg.base + k * pg.cls ≠ 0 := by have := hv.base_pos; omega
    have hdiv : subPtr (pg.base + k * pg.cls) pg.base / pg.cls = k := by
      rw [subPtr_of_le (by omega) (by omega), index_mul_add (by omega)]
    have haddr : addPtr pg.base (k * pg.cls) = pg.base + k * pg.cls := addPtr_of_lt (by omega)
    have hsame : nextAt (setWordAt s.mem pg.base k) r.start = nextAt s.mem r.start :=
      (SameRecord.setWordAt hapart k).next
    unfold dropHeadNode
    simp only [wp_bind, wp_readMagic hnode.toSees, wp_check, hmagic', true_and,
      wp_readPtr hnode.toSees, hnext, hne, if_false, wp_divide (show pg.cls ≠ 0 by omega), hdiv,
      wp_updateWord hhead, wp_readWord hhead.toSees, Store.setMem_mem, wordAt_setWordAt _ _ hk',
      hsame, haddr]
  cases rest with
  | nil =>
    have htail : nextAt s.mem r.start = pg.tail := FreeList.nil.mp hlist
    cases hl : pg.looped with
    | true => exact hmove 0 (by omega) (by simpa [Page.tail, hl] using htail)
    | false =>
      have hnext : nextAt s.mem r.start = 0 := by simpa [Page.tail, hl] using htail
      unfold dropHeadNode
      simp only [wp_bind, wp_readMagic hnode.toSees, wp_check, hmagic', true_and,
        wp_readPtr hnode.toSees, hnext, if_true, wp_updateWord hhead, indexOf]
  | cons r' rest =>
    have hr' := hv.run r' (by rw [hruns]; simp)
    have hb := hr'.bounds
    have hidx := hr'.index (show 0 < pg.cls by omega)
    refine hmove _ ?_ (hlist.start_eq.trans hidx.1.symm)
    change (r'.start - pg.base) / pg.cls * pg.cls ≤ pageBytes
    unfold Region.stop at hb
    omega

/-- The free list of the page starts at the block with the stored index. -/
theorem Page.Repr.first {m : ByteMemory.Mem} (hv : pg.Valid) (h : pg.Repr m)
    (hruns : pg.runs = r :: rest) :
    pg.base + wordAt m pg.base * pg.cls = r.start ∧ 0 < wordAt m pg.base := by
  have hclass := hv.sizeClass_of_mem (r := r) (by rw [hruns]; simp)
  have hc := hclass.ge
  have hidx := (hv.run r (by rw [hruns]; simp)).index (show 0 < pg.cls by omega)
  have hword : wordAt m pg.base = (r.start - pg.base) / pg.cls := by
    rw [h.index, Page.index, if_neg (by omega), hruns]
    rfl
  rw [hword]
  exact hidx

theorem wp_advanceHeadNode (hv : pg.Valid) (hruns : pg.runs = r :: rest)
    (hne : r.len ≠ pg.cls) (hsize : sizeAt s.mem pg.base = pg.cls)
    (hindex : pg.base + wordAt s.mem pg.base * pg.cls = r.start)
    (hhead : F.Updates .pageheader pg.base) (hnode : F.Owns .pagefreenode r.start 16)
    (hnew : F.Owns .pagefreenode (r.start + pg.cls) 16) :
    wp F.Allows (advanceHeadNode pg.base r.start pg.cls) s fun _ s' =>
      s' = s.setMem (setWordAt (setSizeAt (setNextAt (setWordAt s.mem (r.start + pg.cls)
        (toWord pageMagic)) (r.start + pg.cls) (nextAt s.mem r.start)) (r.start + pg.cls)
        (sizeAt s.mem r.start)) pg.base (wordAt s.mem pg.base + 1)) := by
  have hmem : r ∈ pg.runs := by rw [hruns]; simp
  have hclass := hv.sizeClass_of_mem hmem
  have hc := hclass.ge
  have hcle := hclass.le
  have hmax := hv.max
  have hpb : pageBytes = 65536 := rfl
  have hrun := hv.run r hmem
  have hb := hrun.bounds
  obtain ⟨hrest, hlong⟩ := hrun.rest hne
  set n := r.start + pg.cls with hn
  set k := wordAt s.mem pg.base with hk
  have hkc : (k + 1) * pg.cls = k * pg.cls + pg.cls := Nat.succ_mul k pg.cls
  have hkc2 : (k + 1 + 1) * pg.cls = k * pg.cls + pg.cls + pg.cls := by
    rw [Nat.succ_mul, hkc]
  unfold Region.stop at hb
  have hk' : k + 1 < pageBytes / pg.cls := by
    rw [Nat.lt_iff_add_one_le, Nat.le_div_iff_mul_le (by omega)]
    omega
  have hk32 : k + 1 < 4294967296 := by
    have := Nat.div_le_self pageBytes pg.cls
    omega
  have haddr : addPtr r.start pg.cls = n := addPtr_of_lt (by omega)
  have haddr' : addPtr pg.base ((k + 1) * pg.cls) = n := by
    rw [addPtr_of_lt (by omega)]
    omega
  have hnr : Apart n r.start := .inr (by omega)
  have hnb : Apart n pg.base := .inr (by omega)
  have htoSize : toSize (pg.cls : ℤ) = pg.cls := toSize_natCast (by omega)
  set m₁ := setWordAt s.mem n (toWord pageMagic) with hm₁
  set m₂ := setNextAt m₁ n (nextAt s.mem r.start) with hm₂
  set m₃ := setSizeAt m₂ n (sizeAt s.mem r.start) with hm₃
  have h₁ : ∀ q, Apart n q → SameRecord s.mem m₁ q := fun q hq => .setWordAt hq _
  have h₂ : ∀ q, Apart n q → SameRecord s.mem m₂ q := fun q hq => (h₁ q hq).trans (.setNextAt hq _)
  have h₃ : ∀ q, Apart n q → SameRecord s.mem m₃ q := fun q hq => (h₂ q hq).trans (.setSizeAt hq _)
  unfold advanceHeadNode
  simp only [wp_bind, wp_readSize hhead.toSees, hsize, htoSize, wp_check, true_and, haddr,
    wp_writeMagic hnew, wp_readPtr hnode.toSees, wp_writePtr hnew, wp_readSize hnode.toSees,
    wp_writeSize hnew, wp_readWord hhead.toSees, wp_updateWord hhead, Store.setMem_mem, ← hm₁,
    (h₁ r.start hnr).next, ← hm₂, (h₂ r.start hnr).size, ← hm₃, (h₃ pg.base hnb).word, ← hk,
    wordAt_setWordAt _ _ hk32, haddr', wp_divide (show pg.cls ≠ 0 by omega)]
  exact ⟨hk', rfl⟩

theorem Page.Valid.rest_apart (hv : pg.Valid) (hruns : pg.runs = r :: rest) :
    ∀ q ∈ rest, Apart r.start q.start := by
  have hsep := hv.separated
  rw [hruns] at hsep
  exact (List.pairwise_cons.mp hsep).1

/-- The first block of the head node lies clear of the other nodes. -/
theorem Page.Valid.rest_clear (hv : pg.Valid) (hruns : pg.runs = r :: rest) :
    ∀ q ∈ rest, q.start + 16 ≤ r.start ∨ r.start + pg.cls ≤ q.start := by
  intro q hq
  have hmem : r ∈ pg.runs := by rw [hruns]; simp
  have hc := (hv.sizeClass_of_mem hmem).ge
  have hb := (hv.run r hmem).bounds
  have hqb := (hv.run q (by rw [hruns]; simp [hq])).bounds
  have hdisj := hv.disj
  rw [hruns] at hdisj
  have hd := (List.pairwise_cons.mp hdisj).1 q hq
  unfold Disj Region.stop at hd
  unfold Region.stop at hb
  omega

/-- The memory behind the fast path when the head node is one block. -/
theorem popped_last {m : Mem} (hv : pg.Valid) (hrepr : pg.Repr m) (hruns : pg.runs = r :: rest)
    (hlast : r.len = pg.cls) {i : ℤ} {m' : Mem} (hm' : m' = ByteMemory.fill (setWordAt
      (setSizeAt m r.start i) pg.base (indexOf pg.base pg.cls rest)) r.start pg.cls 0) :
    pg.pop.Repr m' ∧ nextAt m' pg.base = nextAt m pg.base := by
  have hmem : r ∈ pg.runs := by rw [hruns]; simp
  have hc := (hv.sizeClass_of_mem hmem).ge
  have hb := (hv.run r hmem).bounds
  have hmax := hv.max
  have hpb : pageBytes = 65536 := rfl
  have hapart := hv.apart_base hmem
  unfold Region.stop at hb
  obtain ⟨a, hlist⟩ := hrepr.list
  rw [hruns] at hlist
  have hk : indexOf pg.base pg.cls rest < 4294967296 := by
    cases rest with
    | nil => exact Nat.zero_lt_of_lt (Nat.lt_add_one _)
    | cons q rest =>
      have hqb := (hv.run q (by rw [hruns]; simp)).bounds
      have := Nat.div_le_self (q.start - pg.base) pg.cls
      unfold Region.stop at hqb
      change (q.start - pg.base) / pg.cls < _
      omega
  have hsame : ∀ q ∈ rest, SameRecord m m' q.start := by
    intro q hq
    have hbase : Apart pg.base q.start := hv.apart_base (by rw [hruns]; simp [hq])
    rw [hm']
    exact ((SameRecord.setSizeAt (hv.rest_apart hruns q hq) _).trans (.setWordAt hbase _)).trans
      (.fill (hv.rest_clear hruns q hq))
  have hsize : SameRecord m (setSizeAt m r.start i) pg.base := .setSizeAt hapart.symm _
  have hfill := SameRecord.fill (m := setWordAt (setSizeAt m r.start i) pg.base
    (indexOf pg.base pg.cls rest)) (show pg.base + 16 ≤ r.start ∨ r.start + pg.cls ≤ pg.base from
      .inl (by omega))
  rw [← hm'] at hfill
  have hc0 : pg.cls ≠ 0 := by omega
  have hpop : pg.pop.index = indexOf pg.base pg.cls pg.pop.runs := if_neg hc0
  refine ⟨⟨?_, ?_, ?_, ?_⟩, ?_⟩
  · exact (hfill.size.trans (sizeAt_setWordAt _ _ _)).trans (hsize.size.trans hrepr.size)
  · rw [hpop, Page.pop_runs_last hruns hlast]
    exact hfill.word.trans (wordAt_setWordAt _ _ hk)
  · rw [Page.pop_runs_last hruns hlast]
    exact ⟨_, (FreeList.cons.mp hlist).2.2.frame hsame⟩
  · rw [Page.pop_runs_last hruns hlast]
    exact fun q hq => (hsame q hq).word.trans (hrepr.magic q (by rw [hruns]; simp [hq]))
  · rw [hfill.next, nextAt_setWordAt, hsize.next]

/-- The memory behind the fast path when the head node moves up by one block. -/
theorem popped_more {m : Mem} (hv : pg.Valid) (hrepr : pg.Repr m) (hruns : pg.runs = r :: rest)
    (hmore : r.len ≠ pg.cls) {m₁ m₂ m' : Mem}
    (hm₁ : m₁ = setSizeAt m r.start ((r.len - pg.cls : ℕ) : ℤ))
    (hm₂ : m₂ = setSizeAt (setNextAt (setWordAt m₁ (r.start + pg.cls) (toWord pageMagic))
      (r.start + pg.cls) (nextAt m r.start)) (r.start + pg.cls) ((r.len - pg.cls : ℕ) : ℤ))
    (hm' : m' = ByteMemory.fill (setWordAt m₂ pg.base (wordAt m pg.base + 1)) r.start pg.cls 0) :
    pg.pop.Repr m' ∧ nextAt m' pg.base = nextAt m pg.base := by
  have hmem : r ∈ pg.runs := by rw [hruns]; simp
  have hc := (hv.sizeClass_of_mem hmem).ge
  have hb := (hv.run r hmem).bounds
  have hmax := hv.max
  have hpb : pageBytes = 65536 := rfl
  have hapart := hv.apart_base hmem
  obtain ⟨hrest, hlong⟩ := (hv.run r hmem).rest hmore
  obtain ⟨hfirst, -⟩ := hrepr.first hv hruns
  obtain ⟨a, hlist⟩ := hrepr.list
  rw [hruns] at hlist
  unfold Region.stop at hb
  set n := r.start + pg.cls with hn
  set k := wordAt m pg.base with hk
  have hkc : (k + 1) * pg.cls = k * pg.cls + pg.cls := Nat.succ_mul k pg.cls
  have hk32 : k + 1 < 4294967296 := by
    have := Nat.le_mul_of_pos_right k (show 0 < pg.cls by omega)
    omega
  have hnbase : Apart n pg.base := .inr (by omega)
  have hnapart : ∀ q ∈ rest, Apart n q.start := by
    intro q hq
    have hqb := (hv.run q (by rw [hruns]; simp [hq])).bounds
    have hdisj := hv.disj
    rw [hruns] at hdisj
    have hd := (List.pairwise_cons.mp hdisj).1 q hq
    unfold Disj Region.stop at hd
    unfold Apart
    omega
  -- the new node is written behind the block, and the block is cleared
  have hm₁₂ : ∀ q, Apart n q → SameRecord m₁ m₂ q := by
    intro q hq
    rw [hm₂]
    exact ((SameRecord.setWordAt hq _).trans (.setNextAt hq _)).trans (.setSizeAt hq _)
  have hm₀₁ : ∀ q, Apart r.start q → SameRecord m m₁ q := fun q hq => hm₁ ▸ .setSizeAt hq _
  have hbase₂ : SameRecord m m₂ pg.base := (hm₀₁ _ hapart.symm).trans (hm₁₂ _ hnbase)
  have hfill : SameRecord (setWordAt m₂ pg.base (k + 1)) m' pg.base :=
    hm' ▸ .fill (.inl (by omega))
  have hnfill : SameRecord m₂ m' n := by
    rw [hm']
    exact (SameRecord.setWordAt hnbase.symm _).trans (.fill (.inr hn.ge))
  have hsame : ∀ q ∈ rest, SameRecord m m' q.start := by
    intro q hq
    have hbase : Apart pg.base q.start := hv.apart_base (by rw [hruns]; simp [hq])
    rw [hm']
    exact (((hm₀₁ _ (hv.rest_apart hruns q hq)).trans (hm₁₂ _ (hnapart q hq))).trans
      (.setWordAt hbase _)).trans (.fill (hv.rest_clear hruns q hq))
  have hnsize : sizeAt m₂ n = ((r.len - pg.cls : ℕ) : ℤ) := by
    rw [hm₂]
    exact sizeAt_setSizeAt _ _ (by omega) (by omega)
  have hnnext : nextAt m₂ n = nextAt m r.start := by
    rw [hm₂, nextAt_setSizeAt, nextAt_setNextAt _ _ (nextAt_lt _ _)]
  have hnword : wordAt m₂ n = toWord pageMagic := by
    rw [hm₂, wordAt_setSizeAt, wordAt_setNextAt, wordAt_setWordAt _ _ (toWord_lt _)]
  have hc0 : pg.cls ≠ 0 := by omega
  have hpop : pg.pop.index = indexOf pg.base pg.cls pg.pop.runs := if_neg hc0
  refine ⟨⟨?_, ?_, ?_, ?_⟩, ?_⟩
  · exact (hfill.size.trans (sizeAt_setWordAt _ _ _)).trans (hbase₂.size.trans hrepr.size)
  · rw [hpop, Page.pop_runs_more hruns hmore]
    refine (hfill.word.trans (wordAt_setWordAt _ _ hk32)).trans ?_
    change k + 1 = (n - pg.base) / pg.cls
    rw [hn, ← hfirst, Nat.add_assoc, ← hkc, index_mul_add (by omega)]
  · rw [Page.pop_runs_more hruns hmore]
    refine ⟨n, FreeList.cons.mpr ⟨rfl, hnfill.size.trans hnsize, ?_⟩⟩
    rw [hnfill.next, hnnext]
    exact (FreeList.cons.mp hlist).2.2.frame hsame
  · rw [Page.pop_runs_more hruns hmore]
    intro q hq
    rcases List.mem_cons.mp hq with rfl | hq
    · exact hnfill.word.trans hnword
    · exact (hsame q hq).word.trans (hrepr.magic q (by rw [hruns]; simp [hq]))
  · rw [hfill.next, nextAt_setWordAt, hbase₂.next]

/-- The fast path of `kalloc` takes the first block of the first node. -/
theorem wp_kallocFast (hv : pg.Valid) (hrepr : pg.Repr s.mem) (hruns : pg.runs = r :: rest)
    (hhead : F.Updates .pageheader pg.base) (hnode : F.Owns .pagefreenode r.start 16)
    (hnew : r.len ≠ pg.cls → F.Owns .pagefreenode (r.start + pg.cls) 16)
    (hbytes : F.Owns .bytes r.start pg.cls) (hF : F.locks (.pagelist cpu)) :
    wp F.Allows (kallocFast cpu pg.base pg.cls) s fun ret s' =>
      ret = r.start ∧ pg.pop.Repr s'.mem ∧ nextAt s'.mem pg.base = nextAt s.mem pg.base ∧
        s'.var = s.var ∧ s'.lock = (s.setLock (.pagelist cpu) 0).lock := by
  have hmem : r ∈ pg.runs := by rw [hruns]; simp
  have hclass := hv.sizeClass_of_mem hmem
  have hc := hclass.ge
  have hcle := hclass.le
  have hmax := hv.max
  have hpb : pageBytes = 65536 := rfl
  have hb := (hv.run r hmem).bounds
  have hapart := hv.apart_base hmem
  obtain ⟨hfirst, -⟩ := hrepr.first hv hruns
  obtain ⟨a, hlist⟩ := hrepr.list
  have hrsize : sizeAt s.mem r.start = r.len := hlist.size r hmem
  have hlen : ((r.len : ℤ) - pg.cls) = ((r.len - pg.cls : ℕ) : ℤ) := by omega
  unfold Region.stop at hb
  set m₁ := setSizeAt s.mem r.start ((r.len - pg.cls : ℕ) : ℤ) with hm₁
  have hm₁size : sizeAt m₁ r.start = ((r.len - pg.cls : ℕ) : ℤ) :=
    sizeAt_setSizeAt _ _ (by omega) (by omega)
  have hm₁base : SameRecord s.mem m₁ pg.base := .setSizeAt hapart.symm _
  have hfd : addPtr pg.base (wordAt s.mem pg.base * pg.cls) = r.start := by
    rw [hfirst.symm]
    exact addPtr_of_lt (by omega)
  have htoSize : toSize (pg.cls : ℤ) = pg.cls := toSize_natCast (by omega)
  have htoLen : toSize (r.len : ℤ) = r.len := toSize_natCast (by omega)
  unfold kallocFast
  simp only [wp_bind, wp_readSize hhead.toSees, hrepr.size, htoSize, wp_check, true_and,
    wp_readWord hhead.toSees, hfd, wp_readSize hnode.toSees, hrsize, htoLen, hb.2.1, if_true,
    hlen, wp_writeSize hnode, Store.setMem_mem, ← hm₁, hm₁size]
  by_cases hlast : r.len = pg.cls
  · have hzero : ((r.len - pg.cls : ℕ) : ℤ) = 0 := by omega
    rw [if_pos hzero, wp_bind]
    refine wp_post (wp_dropHeadNode (s := s.setMem m₁) hv hruns ?_ ?_ hhead hnode) ?_
    · rw [hruns] at hlist
      rw [Store.setMem_mem, hm₁, nextAt_setSizeAt]
      exact (FreeList.cons.mp hlist).2.2.frame fun q hq =>
        .setSizeAt (hv.rest_apart hruns q hq) _
    · rw [Store.setMem_mem, hm₁, wordAt_setSizeAt]
      exact hrepr.magic r hmem
    · rintro _ u rfl
      simp only [wp_bind, wp_unlock hF, wp_memset0 hbytes, wp_pure, Store.setMem_mem,
        Store.setLock_mem]
      obtain ⟨hpop, hnext⟩ := popped_last hv hrepr hruns hlast rfl
      exact ⟨trivial, hpop, hnext, rfl, rfl⟩
  · have hpos : ((r.len - pg.cls : ℕ) : ℤ) ≠ 0 := by omega
    rw [if_neg hpos, wp_bind]
    refine wp_post (wp_advanceHeadNode (s := s.setMem m₁) hv hruns hlast
      (hm₁base.size.trans hrepr.size) ?_ hhead hnode (hnew hlast)) ?_
    · rw [Store.setMem_mem, hm₁base.word]
      exact hfirst
    · rintro _ u rfl
      have hnext : nextAt m₁ r.start = nextAt s.mem r.start := nextAt_setSizeAt _ _ _
      simp only [wp_bind, wp_unlock hF, wp_memset0 hbytes, wp_pure, Store.setMem_mem,
        Store.setLock_mem, hm₁size, hm₁base.word, hnext]
      obtain ⟨hpop, hnext⟩ := popped_more hv hrepr hruns hlast hm₁ rfl rfl
      exact ⟨trivial, hpop, hnext, rfl, rfl⟩

end Fast

section Slow

variable {F : Footprint Struct Global Lock} {s : PmmState} {owner base c cpu : ℕ}

/-- `initFirstPage` behind the link of the page. -/
theorem wp_setUpPage (owner : ℕ) (hc : SizeClass c) (hmax : base + pageBytes < 18446744073709551616)
    (hhead : F.Updates .pageheader base) (hnode : F.Owns .pagefreenode (base + c) 16) :
    wp F.Allows (do
      Pageheader.setSize base c
      Pageheader.setPagefreeheadIndex base 1
      let pageFreend := addPtr base c
      Pagefreenode.setMagic pageFreend pageMagic
      Pagefreenode.setNext pageFreend 0
      Pagefreenode.setSize pageFreend ((pageBytes : ℤ) - c) : Code Unit) s fun _ s' =>
      (Page.whole owner base c).Repr s'.mem ∧ nextAt s'.mem base = nextAt s.mem base ∧
        s'.var = s.var ∧ s'.lock = s.lock := by
  have hge := hc.ge
  have hle := hc.le
  have hpb : pageBytes = 65536 := rfl
  have hn : addPtr base c = base + c := addPtr_of_lt (by omega)
  have hrest : ((pageBytes : ℤ) - c) = ((pageBytes - c : ℕ) : ℤ) := by omega
  have hnb : Apart (base + c) base := .inr (by omega)
  simp only [wp_bind, wp_updateSize hhead, wp_updateWord hhead, hn,
    wp_writeMagic hnode, wp_writePtr hnode, wp_writeSize hnode, Store.setMem_mem, hrest]
  set m₁ := setWordAt (setSizeAt s.mem base c) base 1 with hm₁
  set m₂ := setSizeAt (setNextAt (setWordAt m₁ (base + c) (toWord pageMagic)) (base + c) 0)
    (base + c) ((pageBytes - c : ℕ) : ℤ) with hm₂
  have hbase : SameRecord m₁ m₂ base :=
    ((SameRecord.setWordAt hnb _).trans (.setNextAt hnb _)).trans (.setSizeAt hnb _)
  have hindex : (Page.whole owner base c).index = 1 := by
    rw [Page.index, if_neg (show (Page.whole owner base c).cls ≠ 0 by
      change c ≠ 0
      omega)]
    change (base + c - base) / c = 1
    rw [Nat.add_sub_cancel_left, Nat.div_self (by omega)]
  refine ⟨⟨?_, ?_, ?_, ?_⟩, ?_, rfl, rfl⟩
  · refine hbase.size.trans ((sizeAt_setWordAt _ _ _).trans ?_)
    exact sizeAt_setSizeAt _ _ (by omega) (by omega)
  · rw [hindex]
    exact hbase.word.trans (wordAt_setWordAt _ _ (by omega))
  · refine ⟨base + c, FreeList.cons.mpr ⟨rfl, sizeAt_setSizeAt _ _ (by omega) (by omega), ?_⟩⟩
    exact FreeList.nil.mpr ((nextAt_setSizeAt _ _ _).trans (nextAt_setNextAt _ _ (by omega)))
  · intro q hq
    obtain rfl := List.mem_singleton.mp hq
    change wordAt m₂ (base + c) = _
    rw [hm₂, wordAt_setSizeAt, wordAt_setNextAt, wordAt_setWordAt _ _ (toWord_lt _)]
  · exact hbase.next.trans ((nextAt_setWordAt _ _ _).trans (nextAt_setSizeAt _ _ _))

/-- The first page of a CPU starts with all its blocks free. -/
theorem wp_initFirstPage (hc : SizeClass c) (hmax : base + pageBytes < 18446744073709551616)
    (hhead : F.Owns .pageheader base 16) (hnode : F.Owns .pagefreenode (base + c) 16) :
    wp F.Allows (initFirstPage base c) s fun _ s' =>
      (Page.whole owner base c).Repr s'.mem ∧ nextAt s'.mem base = 0 ∧ s'.var = s.var ∧
        s'.lock = s.lock := by
  unfold initFirstPage
  rw [wp_bind, wp_writePtr hhead]
  refine wp_post (wp_setUpPage owner hc hmax (.of_owns hhead) hnode) ?_
  rintro _ t ⟨hrepr, hnext, hvar, hlock⟩
  refine ⟨hrepr, ?_, hvar, hlock⟩
  rw [hnext, Store.setMem_mem]
  exact nextAt_setNextAt _ _ (by omega)

/-- A page without nodes gives its block 1; the other blocks become one node. -/
theorem wp_takeFirstBlock (hc : SizeClass c) (hmax : base + pageBytes < 18446744073709551616)
    (hsize : sizeAt s.mem base = c) (hindex : wordAt s.mem base = 1)
    (hhead : F.Updates .pageheader base) (hnew : F.Owns .pagefreenode (base + 2 * c) 16)
    (hbytes : F.Owns .bytes (base + c) c) (hF : F.locks (.pagelist cpu)) :
    wp F.Allows (takeFirstBlock cpu base c) s fun ret s' =>
      ret = base + c ∧ (Page.fresh owner base c).Repr s'.mem ∧
        nextAt s'.mem base = nextAt s.mem base ∧ s'.var = s.var ∧
        s'.lock = (s.setLock (.pagelist cpu) 0).lock := by
  have hge := hc.ge
  have hle := hc.le
  have hpb : pageBytes = 65536 := rfl
  have hret : addPtr base (1 * c) = base + c := by rw [one_mul]; exact addPtr_of_lt (by omega)
  have hnode : addPtr (base + c) c = base + 2 * c := by
    rw [addPtr_of_lt (by omega)]
    omega
  have hnode' : addPtr base ((1 + 1) * c) = base + 2 * c := addPtr_of_lt (by omega)
  have hnb : Apart (base + 2 * c) base := .inr (by omega)
  set n := base + 2 * c with hn
  set m₁ := setNextAt (setWordAt s.mem n (toWord pageMagic)) n 0 with hm₁
  have h₁ : SameRecord s.mem m₁ base :=
    (SameRecord.setWordAt hnb _).trans (.setNextAt hnb _)
  have hword₁ : wordAt m₁ base = 1 := h₁.word.trans hindex
  set m₂ := setWordAt m₁ base (1 + 1) with hm₂
  have hword₂ : wordAt m₂ base = 1 + 1 := wordAt_setWordAt _ _ (by omega)
  have hrest : ((pageBytes : ℤ) - ((1 + 1 : ℕ) : ℤ) * (c : ℤ)) =
      ((pageBytes - 2 * c : ℕ) : ℤ) := by
    push_cast
    omega
  set m₃ := setSizeAt m₂ n ((pageBytes - 2 * c : ℕ) : ℤ) with hm₃
  have hword₃ : wordAt m₃ base = 1 + 1 := (SameRecord.setSizeAt hnb _).word.trans hword₂
  unfold takeFirstBlock
  simp only [wp_bind, wp_readWord hhead.toSees, hindex, hret, hnode, wp_writeMagic hnew,
    wp_writePtr hnew, Store.setMem_mem, ← hm₁, hword₁, wp_updateWord hhead, ← hm₂, hword₂, hrest,
    wp_writeSize hnew, ← hm₃, hword₃, wp_check, hnode', true_and, wp_memset0 hbytes,
    wp_unlock hF, wp_pure]
  have hfillb : SameRecord m₃ (ByteMemory.fill m₃ (base + c) c 0) base := .fill (.inl (by omega))
  have hfilln : SameRecord m₃ (ByteMemory.fill m₃ (base + c) c 0) n := .fill (.inr (by omega))
  have hb₃ : SameRecord m₂ m₃ base := .setSizeAt hnb _
  have hn₂ : SameRecord m₁ m₂ n := .setWordAt hnb.symm _
  have hfresh : (Page.fresh owner base c).index = 2 := by
    rw [Page.index, if_neg (show (Page.fresh owner base c).cls ≠ 0 by simp [Page.fresh]; omega)]
    exact index_mul_add (by omega)
  refine ⟨⟨?_, ?_, ?_, ?_⟩, ?_, rfl, rfl⟩
  · exact (hfillb.size.trans hb₃.size).trans ((sizeAt_setWordAt _ _ _).trans (h₁.size.trans hsize))
  · rw [hfresh]
    exact hfillb.word.trans hword₃
  · refine ⟨n, FreeList.cons.mpr ⟨rfl, ?_, ?_⟩⟩
    · exact hfilln.size.trans (sizeAt_setSizeAt _ _ (by omega) (by omega))
    · refine FreeList.nil.mpr (hfilln.next.trans ?_)
      rw [hm₃, nextAt_setSizeAt, hn₂.next, hm₁, nextAt_setNextAt _ _ (by omega)]
      rfl
  · intro q hq
    obtain rfl := List.mem_singleton.mp hq
    refine hfilln.word.trans ?_
    rw [hm₃, wordAt_setSizeAt, hn₂.word, hm₁, wordAt_setNextAt, wordAt_setWordAt _ _ (toWord_lt _)]
  · exact hfillb.next.trans (hb₃.next.trans ((nextAt_setWordAt _ _ _).trans h₁.next))

end Slow
end KmallocKfree
