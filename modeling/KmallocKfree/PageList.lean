import KmallocKfree.Pages
import KmallocKfree.HeapFree

/-!
# The free list of a page

What each write of the page branch of `kfree` does to the header and the nodes of
a page in use: a node grows, is bypassed, becomes the head, or is pushed in front.
A list that is pushed onto while it is empty ends at the page header, because the
index of an empty list is 0.
-/
namespace KmallocKfree

open Prog Region
open ByteMemory (Mem)

/-- Memory `m` holds a page in use: its header, and `l` as its free list up to `e`. -/
structure PageList (m : Mem) (base c : ℕ) (l : List Region) (e : ℕ) : Prop where
  size : sizeAt m base = c
  index : wordAt m base = indexOf base c l
  list : ∃ a, FreeList m a l e
  magic : ∀ r ∈ l, wordAt m r.start = toWord pageMagic

theorem Page.repr_iff {m : Mem} {pg : Page} (h : pg.cls ≠ 0) :
    pg.Repr m ↔ PageList m pg.base pg.cls pg.runs pg.tail := by
  have hindex : pg.index = indexOf pg.base pg.cls pg.runs := if_neg h
  exact ⟨fun ⟨h₁, h₂, h₃, h₄⟩ => ⟨h₁, h₂.trans hindex, h₃, h₄⟩,
    fun ⟨h₁, h₂, h₃, h₄⟩ => ⟨h₁, h₂.trans hindex.symm, h₃, h₄⟩⟩

/-- The header at `base` and the records of `l` share no byte. -/
def Spread (base : ℕ) (l : List Region) : Prop :=
  Separated l ∧ ∀ r ∈ l, Apart base r.start

theorem Page.Valid.spread {pg : Page} (h : pg.Valid) : Spread pg.base pg.runs :=
  ⟨h.separated, fun _ hr => h.apart_base hr⟩

namespace PageList

variable {m m' : Mem} {base c e n k p : ℕ} {l l₁ l₂ : List Region} {a b q r : Region}

theorem indexOf_grow (b : Region) (n : ℕ) (l : List Region) :
    indexOf base c (grow b n l) = indexOf base c l := by
  cases l with
  | nil => rfl
  | cons r l =>
    change ((if r = b then (⟨r.start, r.len + n⟩ : Region) else r).start - base) / c = _
    split_ifs <;> rfl

theorem frame (h : PageList m base c l e) (hbase : SameRecord m m' base)
    (hl : ∀ r ∈ l, SameRecord m m' r.start) : PageList m' base c l e where
  size := hbase.size.trans h.size
  index := hbase.word.trans h.index
  list := h.list.imp fun _ ha => ha.frame hl
  magic r hr := (hl r hr).word.trans (h.magic r hr)

/-- Node `b`, which may have grown by `k` bytes already, grows by `n` bytes. -/
theorem regrow (h : PageList m base c (grow b k l) e) (hs : Spread base l) (hb : b ∈ l)
    (hn : b.len + n < 2147483648) :
    PageList (setSizeAt m b.start (b.len + n : ℕ)) base c (grow b n l) e where
  size := (SameRecord.setSizeAt (hs.2 b hb).symm _).size.trans h.size
  index := by
    rw [indexOf_grow, (SameRecord.setSizeAt (hs.2 b hb).symm _).word, h.index, indexOf_grow]
  list := h.list.imp fun _ ha => ha.regrow hs.1 hb hn
  magic r hr := by
    obtain ⟨x, hx, hrx⟩ := List.mem_map.mp hr
    have hmem : (if x = b then ⟨x.start, x.len + k⟩ else x) ∈ grow b k l :=
      List.mem_map.mpr ⟨x, hx, rfl⟩
    have hmagic := h.magic _ hmem
    have hstart : (if x = b then (⟨x.start, x.len + k⟩ : Region) else x).start = r.start := by
      rw [← hrx]
      split_ifs <;> rfl
    rw [hstart] at hmagic
    by_cases hbr : b.start = r.start
    · rw [hbr, wordAt_setSizeAt, hmagic]
    · have hxb : x ≠ b := by
        rintro rfl
        exact hbr (by rw [← hrx, if_pos rfl])
      have hrx' : r = x := by rw [← hrx, if_neg hxb]
      obtain ⟨s, t, hl⟩ := List.append_of_mem hb
      have hapart : Apart b.start r.start := by
        have hsep := hs.1
        rw [hl] at hsep hx
        rw [hrx']
        exact hsep.apart (by simpa [hxb] using hx)
      exact (SameRecord.setSizeAt hapart _).word.trans hmagic

/-- Node `a`, which comes after `q`, is bypassed. -/
theorem unlink (h : PageList m base c (l₁ ++ q :: a :: l₂) e)
    (hs : Spread base (l₁ ++ q :: a :: l₂)) :
    PageList (setNextAt m q.start (nextAt m a.start)) base c (l₁ ++ q :: l₂) e where
  size := (SameRecord.setNextAt (hs.2 q (by simp)).symm _).size.trans h.size
  index := by
    rw [(SameRecord.setNextAt (hs.2 q (by simp)).symm _).word, h.index]
    cases l₁ <;> rfl
  list := h.list.imp fun _ ha => ha.unlink hs.1
  magic r hr := by
    have hmem : r ∈ l₁ ++ q :: a :: l₂ := by
      simp only [List.mem_append, List.mem_cons] at hr ⊢
      rcases hr with h | h | h
      · exact .inl h
      · exact .inr (.inl h)
      · exact .inr (.inr (.inr h))
    by_cases hrq : r = q
    · rw [hrq, wordAt_setNextAt, h.magic q (by simp)]
    · have hapart : Apart q.start r.start := hs.1.apart (by simpa [hrq] using hmem)
      exact (SameRecord.setNextAt hapart _).word.trans (h.magic r hmem)

/-- The list starts at `b` instead; the nodes before `b` are dropped. -/
theorem restart (h : PageList m base c (l₁ ++ b :: l₂) e) (hs : Spread base (l₁ ++ b :: l₂))
    (hk : (b.start - base) / c < 4294967296) :
    PageList (setWordAt m base ((b.start - base) / c)) base c (b :: l₂) e where
  size := (sizeAt_setWordAt _ _ _).trans h.size
  index := wordAt_setWordAt _ _ hk
  list := by
    obtain ⟨a, ha⟩ := h.list
    obtain ⟨x, -, hx⟩ := FreeList.append.mp ha
    exact ⟨x, hx.frame fun r hr => .setWordAt (hs.2 r (by simp_all)) _⟩
  magic r hr := by
    have hmem : r ∈ l₁ ++ b :: l₂ := List.mem_append_right _ hr
    exact (SameRecord.setWordAt (hs.2 r hmem) _).word.trans (h.magic r hmem)

end PageList
/-- `x` is the address of a block of size `c` in the page at `base`. -/
def AtBlock (base c x : ℕ) : Prop := ∃ k, 0 < k ∧ x = base + k * c ∧ x + c ≤ base + pageBytes

theorem IsRun.atBlock {base c : ℕ} {r : Region} (h : IsRun base c r) :
    AtBlock base c r.start := by
  have hb := h.bounds
  obtain ⟨k, n, hk, hn, hstart, hlen, hstop⟩ := h
  exact ⟨k, hk, hstart, by unfold Region.stop at hstop; omega⟩

theorem AtBlock.index {base c x : ℕ} (h : AtBlock base c x) (hc : 0 < c) :
    base + (x - base) / c * c = x ∧ 0 < (x - base) / c ∧ (x - base) / c < 4294967296 := by
  obtain ⟨k, hk, rfl, hle⟩ := h
  have := Nat.le_mul_of_pos_right k hc
  have hpb : pageBytes = 65536 := rfl
  rw [index_mul_add hc]
  exact ⟨rfl, hk, by omega⟩

/-- Where the walk over a free list starts. -/
def headOf (base : ℕ) : List Region → ℕ
  | [] => base
  | r :: _ => r.start

/-- Where the walk over a free list leaves the nodes. -/
def endOf (base : ℕ) (l : List Region) (e : ℕ) : ℕ := if l = [] then base else e

/-- The memory after a node of `n` bytes was pushed at `p` in front of the list at `h`. -/
def pushMem (m : Mem) (base c p n h : ℕ) : Mem :=
  setWordAt (setNextAt (setSizeAt (setWordAt m p (toWord pageMagic)) p n) p h) base
    ((p - base) / c)

namespace PageList

variable {m m' : Mem} {base c e n k p : ℕ} {l l₁ l₂ : List Region} {a b q r : Region}

theorem head_eq (h : PageList m base c l e) (hc : 0 < c)
    (hl : ∀ r ∈ l, AtBlock base c r.start) : base + wordAt m base * c = headOf base l := by
  rw [h.index]
  cases l with
  | nil => simp [indexOf, headOf]
  | cons r l => exact ((hl r (by simp)).index hc).1

theorem walk (h : PageList m base c l e) {T : List ℕ}
    (hT : Path (nextAt m) (endOf base l e) T 0) :
    Path (nextAt m) (headOf base l) (l.map Region.start ++ T) 0 := by
  obtain ⟨a, ha⟩ := h.list
  cases l with
  | nil => simpa [endOf, headOf] using hT
  | cons r l =>
    rw [endOf, if_neg (by simp)] at hT
    have hpath := ha.path
    rw [ha.start_eq] at hpath
    exact Path.append.mpr ⟨e, hpath, hT⟩

/-- A freed region at `p` becomes the first node. -/
theorem push (h : PageList m base c l e) (hs : Spread base l) (hp : ∀ r ∈ l, Apart p r.start)
    (hpb : Apart p base) (hn : n < 2147483648) (hk : (p - base) / c < 4294967296)
    (hhead : headOf base l < 18446744073709551616) :
    PageList (pushMem m base c p n (headOf base l)) base c (⟨p, n⟩ :: l) (endOf base l e) := by
  unfold pushMem
  set m₁ := setWordAt m p (toWord pageMagic) with hm₁
  set m₂ := setSizeAt m₁ p (n : ℤ) with hm₂
  set m₃ := setNextAt m₂ p (headOf base l) with hm₃
  have h₃ : ∀ x, Apart p x → SameRecord m m₃ x := fun x hx =>
    ((SameRecord.setWordAt hx _).trans (.setSizeAt hx _)).trans (.setNextAt hx _)
  have hpm : SameRecord m₃ (setWordAt m₃ base ((p - base) / c)) p := .setWordAt hpb.symm _
  have hl : ∀ r ∈ l, SameRecord m (setWordAt m₃ base ((p - base) / c)) r.start := fun r hr =>
    (h₃ _ (hp r hr)).trans (.setWordAt (hs.2 r hr) _)
  have hsize : sizeAt m₃ p = n := by
    rw [hm₃, sizeAt_setNextAt, hm₂, sizeAt_setSizeAt _ _ (by omega) (by omega)]
  have hnext : nextAt m₃ p = headOf base l := nextAt_setNextAt _ _ hhead
  have hword : wordAt m₃ p = toWord pageMagic := by
    rw [hm₃, wordAt_setNextAt, hm₂, wordAt_setSizeAt, hm₁, wordAt_setWordAt _ _ (toWord_lt _)]
  refine ⟨?_, wordAt_setWordAt _ _ hk, ⟨p, FreeList.cons.mpr ⟨rfl, hpm.size.trans hsize, ?_⟩⟩, ?_⟩
  · exact (sizeAt_setWordAt _ _ _).trans ((h₃ _ hpb).size.trans h.size)
  · rw [hpm.next, hnext]
    obtain ⟨a, ha⟩ := h.list
    cases l with
    | nil => exact FreeList.nil.mpr rfl
    | cons r l =>
      rw [ha.start_eq] at ha
      exact ha.frame hl
  · intro r hr
    rcases List.mem_cons.mp hr with rfl | hr
    · exact hpm.word.trans hword
    · exact (hl r hr).word.trans (h.magic r hr)

end PageList

section Rules

variable {F : Footprint Struct Global Lock} {s : PmmState} {base c e node : ℕ}
  {l : List Region}

/-- Where the header at `ph` says that its free list starts. -/
def headAt (m : Mem) (ph : ℕ) : ℕ := addPtr ph (toWord (wordAt m ph * sizeAt m ph))

theorem PageList.headAt_eq {m : Mem} (h : PageList m base c l e) (hc : SizeClass c)
    (hmax : base + pageBytes < 18446744073709551616) (hl : ∀ r ∈ l, AtBlock base c r.start) :
    headAt m base = headOf base l := by
  have hge := hc.ge
  have hpb : pageBytes = 65536 := rfl
  have hhead := h.head_eq (by omega) hl
  have hle : headOf base l ≤ base + pageBytes := by
    cases l with
    | nil => exact Nat.le_add_right _ _
    | cons r l =>
      obtain ⟨k, -, -, hle⟩ := hl r (by simp)
      exact le_trans (Nat.le_add_right _ _) hle
  have hword : toWord ((wordAt m base : ℤ) * (c : ℤ)) = wordAt m base * c := by
    rw [← Int.natCast_mul]
    unfold toWord
    omega
  rw [headAt, h.size, hword, addPtr_of_lt (by omega), hhead]

theorem wp_freeListHead (h : PageList s.mem base c l e) (hc : SizeClass c)
    (hmax : base + pageBytes < 18446744073709551616) (hl : ∀ r ∈ l, AtBlock base c r.start)
    (hsees : F.Sees .pageheader base 16) (Q : ℕ → PmmState → Prop) :
    wp F.Allows (freeListHead base) s Q ↔ Q (headOf base l) s := by
  rw [← h.headAt_eq hc hmax hl]
  unfold freeListHead
  simp only [wp_bind, wp_readWord hsees, wp_readSize hsees, wp_pure]
  rfl

theorem wp_setFreeListHead (hsize : sizeAt s.mem base = c) (hc : SizeClass c)
    (hmax : base + pageBytes < 18446744073709551616) (hnode : AtBlock base c node)
    (hown : F.Updates .pageheader base) (Q : Unit → PmmState → Prop) :
    wp F.Allows (setFreeListHead base node) s Q ↔
      Q () (s.setMem (setWordAt s.mem base ((node - base) / c))) := by
  have hge := hc.ge
  have hle := hc.le
  have htoSize : toSize (c : ℤ) = c := toSize_natCast (by omega)
  obtain ⟨k, hk, hkeq, hkle⟩ := hnode
  have hsub : subPtr node base = node - base := subPtr_of_le (by omega) (by omega)
  unfold setFreeListHead
  simp only [wp_bind, wp_readSize hown.toSees, hsize, htoSize, hsub,
    wp_divide (show c ≠ 0 by omega), wp_updateWord hown]

theorem wp_markIfEmpty (hsize : sizeAt s.mem base = c) (hnode : F.Sees .pagefreenode node 16)
    (hown : F.Updates .pageheader base) (Q : Unit → PmmState → Prop) :
    wp F.Allows (markIfEmpty base node) s Q ↔
      if sizeAt s.mem node = (pageBytes : ℤ) - c then Q () (s.setMem (setSizeAt s.mem base 0))
      else Q () s := by
  unfold markIfEmpty
  simp only [wp_bind, wp_readSize hnode, wp_readSize hown.toSees, hsize, wp_ite,
    wp_updateSize hown, wp_pure]

end Rules
end KmallocKfree
