import KmallocKfree.Layout
import KmallocKfree.Footprint
import KmallocKfree.Regions
import KmallocKfree.LinkedWalk

/-!
# Records in memory

The four structures of the allocator are one 16-byte record: a link and two
words. This module reads and writes records, gives the `wp` rule of each field
access, and states when a memory holds a linked list of regions.
-/
namespace KmallocKfree

open ByteMemory (Mem)
open Prog

def nextAt (m : Mem) (p : ℕ) : ℕ := ByteMemory.load m p 8
def sizeAt (m : Mem) (p : ℕ) : ℤ := toInt (ByteMemory.load m (p + 8) 4)
def wordAt (m : Mem) (p : ℕ) : ℕ := ByteMemory.load m (p + 12) 4

def setNextAt (m : Mem) (p v : ℕ) : Mem := ByteMemory.store m p 8 v
def setSizeAt (m : Mem) (p : ℕ) (i : ℤ) : Mem := ByteMemory.store m (p + 8) 4 (toWord i)
def setWordAt (m : Mem) (p v : ℕ) : Mem := ByteMemory.store m (p + 12) 4 v

section Values

variable (m : Mem) (p : ℕ)

theorem nextAt_lt : nextAt m p < 18446744073709551616 := ByteMemory.load_lt m p 8

/-- A blank record has no link. -/
theorem nextAt_blank (h : ∀ x, p ≤ x → x < p + 16 → m x = 0) : nextAt m p = 0 := by
  unfold nextAt
  exact ByteMemory.load_blank fun x h₁ h₂ => h x h₁ (by omega)

theorem sizeAt_bounds : -2147483648 ≤ sizeAt m p ∧ sizeAt m p < 2147483648 :=
  toInt_bounds (ByteMemory.load_lt m (p + 8) 4)

theorem nextAt_setNextAt {v : ℕ} (h : v < 18446744073709551616) :
    nextAt (setNextAt m p v) p = v := by
  rw [nextAt, setNextAt, ByteMemory.load_store_same]
  exact Nat.mod_eq_of_lt h

@[simp] theorem sizeAt_setNextAt (v : ℕ) : sizeAt (setNextAt m p v) p = sizeAt m p := by
  rw [sizeAt, setNextAt, ByteMemory.load_store_disjoint (by omega), sizeAt]

@[simp] theorem wordAt_setNextAt (v : ℕ) : wordAt (setNextAt m p v) p = wordAt m p := by
  rw [wordAt, setNextAt, ByteMemory.load_store_disjoint (by omega), wordAt]

@[simp] theorem nextAt_setSizeAt (i : ℤ) : nextAt (setSizeAt m p i) p = nextAt m p := by
  rw [nextAt, setSizeAt, ByteMemory.load_store_disjoint (by omega), nextAt]

theorem sizeAt_setSizeAt_toInt (i : ℤ) : sizeAt (setSizeAt m p i) p = toInt (toWord i) := by
  have hmod : toWord i % 256 ^ 4 = toWord i := Nat.mod_eq_of_lt (toWord_lt i)
  rw [sizeAt, setSizeAt, ByteMemory.load_store_same, hmod]

theorem sizeAt_setSizeAt {i : ℤ} (h : -2147483648 ≤ i) (h' : i < 2147483648) :
    sizeAt (setSizeAt m p i) p = i := by
  rw [sizeAt_setSizeAt_toInt, toInt_toWord h h']

@[simp] theorem wordAt_setSizeAt (i : ℤ) : wordAt (setSizeAt m p i) p = wordAt m p := by
  rw [wordAt, setSizeAt, ByteMemory.load_store_disjoint (by omega), wordAt]

@[simp] theorem nextAt_setWordAt (v : ℕ) : nextAt (setWordAt m p v) p = nextAt m p := by
  rw [nextAt, setWordAt, ByteMemory.load_store_disjoint (by omega), nextAt]

@[simp] theorem sizeAt_setWordAt (v : ℕ) : sizeAt (setWordAt m p v) p = sizeAt m p := by
  rw [sizeAt, setWordAt, ByteMemory.load_store_disjoint (by omega), sizeAt]

theorem wordAt_setWordAt {v : ℕ} (h : v < 4294967296) : wordAt (setWordAt m p v) p = v := by
  rw [wordAt, setWordAt, ByteMemory.load_store_same]
  exact Nat.mod_eq_of_lt h

theorem setNextAt_outside {x : ℕ} (h : x < p ∨ p + 16 ≤ x) (v : ℕ) : setNextAt m p v x = m x :=
  ByteMemory.store_outside (by omega)

theorem setSizeAt_outside {x : ℕ} (h : x < p ∨ p + 16 ≤ x) (i : ℤ) : setSizeAt m p i x = m x :=
  ByteMemory.store_outside (by omega)

theorem setWordAt_outside {x : ℕ} (h : x < p ∨ p + 16 ≤ x) (v : ℕ) : setWordAt m p v x = m x :=
  ByteMemory.store_outside (by omega)

end Values

/-- The record at `q` is the same in both memories. -/
def SameRecord (m m' : Mem) (q : ℕ) : Prop := ∀ x, q ≤ x → x < q + 16 → m' x = m x

/-- The records at `p` and `q` do not share a byte. -/
def Apart (p q : ℕ) : Prop := p + 16 ≤ q ∨ q + 16 ≤ p

theorem Apart.symm {p q : ℕ} (h : Apart p q) : Apart q p := Or.symm h

theorem Apart.ne {p q : ℕ} (h : Apart p q) : p ≠ q := by
  unfold Apart at h
  omega

/-- Disjoint regions, each with room for a record at its start. -/
theorem Region.Disj.apart {r t : Region} (h : r.Disj t) (hr : 16 ≤ r.len) (ht : 16 ≤ t.len) :
    Apart r.start t.start := by
  unfold Disj stop at h
  unfold Apart
  omega

namespace SameRecord

variable {m m' m'' : Mem} {p q n : ℕ}

theorem next (h : SameRecord m m' q) : nextAt m' q = nextAt m q :=
  ByteMemory.load_congr fun x h₁ h₂ => h x (by omega) (by omega)

theorem size (h : SameRecord m m' q) : sizeAt m' q = sizeAt m q :=
  congrArg toInt (ByteMemory.load_congr fun x h₁ h₂ => h x (by omega) (by omega))

theorem word (h : SameRecord m m' q) : wordAt m' q = wordAt m q :=
  ByteMemory.load_congr fun x h₁ h₂ => h x (by omega) (by omega)

theorem refl (m : Mem) (q : ℕ) : SameRecord m m q := fun _ _ _ => rfl

theorem trans (h : SameRecord m m' q) (h' : SameRecord m' m'' q) : SameRecord m m'' q :=
  fun x h₁ h₂ => (h' x h₁ h₂).trans (h x h₁ h₂)

theorem setNextAt (h : Apart p q) (v : ℕ) : SameRecord m (setNextAt m p v) q :=
  fun _ _ _ => ByteMemory.store_outside (by unfold Apart at h; omega)

theorem setSizeAt (h : Apart p q) (i : ℤ) : SameRecord m (setSizeAt m p i) q :=
  fun _ _ _ => ByteMemory.store_outside (by unfold Apart at h; omega)

theorem setWordAt (h : Apart p q) (v : ℕ) : SameRecord m (setWordAt m p v) q :=
  fun _ _ _ => ByteMemory.store_outside (by unfold Apart at h; omega)

theorem fill (h : q + 16 ≤ p ∨ p + n ≤ q) : SameRecord m (ByteMemory.fill m p n 0) q :=
  fun _ _ _ => ByteMemory.fill_outside (by omega)

end SameRecord

section Rules

variable {F : Footprint Struct Global Lock} {k : Struct} {p n : ℕ} {s : PmmState}

theorem wp_readPtr (h : F.Sees k p 16) (Q : ℕ → PmmState → Prop) :
    wp F.Allows (readPtr k p) s Q ↔ Q (nextAt s.mem p) s := by
  have hop : F.Allows (.load k p 0 8) := h.load (by omega)
  simp [readPtr, perform, wp, hop, Op.run, h.ne_null, nextAt]

theorem wp_readWord (h : F.Sees k p 16) (Q : ℕ → PmmState → Prop) :
    wp F.Allows (readWord k p 12) s Q ↔ Q (wordAt s.mem p) s := by
  have hop : F.Allows (.load k p 12 4) := h.load (by omega)
  simp [readWord, perform, wp, hop, Op.run, h.ne_null, wordAt]

theorem wp_readSize (h : F.Sees k p 16) (Q : ℤ → PmmState → Prop) :
    wp F.Allows (readInt k p 8) s Q ↔ Q (sizeAt s.mem p) s := by
  have hop : F.Allows (.load k p 8 4) := h.load (by omega)
  simp [readInt, readWord, perform, wp, hop, Op.run, h.ne_null, sizeAt]

theorem wp_readMagic (h : F.Sees k p 16) (Q : ℤ → PmmState → Prop) :
    wp F.Allows (readInt k p 12) s Q ↔ Q (toInt (wordAt s.mem p)) s := by
  have hop : F.Allows (.load k p 12 4) := h.load (by omega)
  simp [readInt, readWord, perform, wp, hop, Op.run, h.ne_null, wordAt]

/-- A link may be written where only the first 8 bytes of the record are owned. -/
theorem wp_writeLink (h : F.Sees k p 16) (hlink : ∀ x, p ≤ x → x < p + 8 → F.writes x) (v : ℕ)
    (Q : Unit → PmmState → Prop) :
    wp F.Allows (writePtr k p v) s Q ↔ Q () (s.setMem (setNextAt s.mem p v)) := by
  have hop : F.Allows (.store k p 0 8 v) := ⟨h.derefs, hlink⟩
  simp [writePtr, perform, wp, hop, Op.run, h.ne_null, setNextAt]

theorem wp_writePtr (h : F.Owns k p 16) (v : ℕ) (Q : Unit → PmmState → Prop) :
    wp F.Allows (writePtr k p v) s Q ↔ Q () (s.setMem (setNextAt s.mem p v)) :=
  wp_writeLink h.toSees (fun x h₁ h₂ => h.writes x h₁ (by omega)) v Q

theorem wp_updateSize (h : F.Updates k p) (i : ℤ) (Q : Unit → PmmState → Prop) :
    wp F.Allows (writeInt k p 8 i) s Q ↔ Q () (s.setMem (setSizeAt s.mem p i)) := by
  have hop : F.Allows (.store k p 8 4 (toWord i)) :=
    ⟨h.derefs, fun x h₁ h₂ => h.writes x h₁ (by omega)⟩
  simp [writeInt, writeWord, perform, wp, hop, Op.run, h.ne_null, setSizeAt]

theorem wp_writeSize (h : F.Owns k p 16) (i : ℤ) (Q : Unit → PmmState → Prop) :
    wp F.Allows (writeInt k p 8 i) s Q ↔ Q () (s.setMem (setSizeAt s.mem p i)) :=
  wp_updateSize (.of_owns h) i Q

theorem wp_writeMagic (h : F.Owns k p 16) (i : ℤ) (Q : Unit → PmmState → Prop) :
    wp F.Allows (writeInt k p 12 i) s Q ↔ Q () (s.setMem (setWordAt s.mem p (toWord i))) := by
  have hop : F.Allows (.store k p 12 4 (toWord i)) := h.store (by omega) _
  simp [writeInt, writeWord, perform, wp, hop, Op.run, h.ne_null, setWordAt]

theorem wp_updateWord (h : F.Updates k p) (v : ℕ) (Q : Unit → PmmState → Prop) :
    wp F.Allows (writeWord k p 12 v) s Q ↔ Q () (s.setMem (setWordAt s.mem p v)) := by
  have hop : F.Allows (.store k p 12 4 v) :=
    ⟨h.derefs, fun x h₁ h₂ => h.writes x (by omega) (by omega)⟩
  simp [writeWord, perform, wp, hop, Op.run, h.ne_null, setWordAt]

theorem wp_writeWord (h : F.Owns k p 16) (v : ℕ) (Q : Unit → PmmState → Prop) :
    wp F.Allows (writeWord k p 12 v) s Q ↔ Q () (s.setMem (setWordAt s.mem p v)) :=
  wp_updateWord (.of_owns h) v Q

theorem wp_memset0 (h : F.Owns k p n) (Q : Unit → PmmState → Prop) :
    wp F.Allows (memset0 k p n) s Q ↔ Q () (s.setMem (ByteMemory.fill s.mem p n 0)) := by
  have hop : F.Allows (.fill k p n) := ⟨h.derefs, h.writes⟩
  simp [memset0, perform, wp, hop, Op.run, h.ne_null]

theorem wp_getGlobal {x : Global} (h : F.gets x) (Q : ℕ → PmmState → Prop) :
    wp F.Allows (getGlobal x) s Q ↔ Q (s.var x) s := by
  have hop : F.Allows (.get x) := h
  simp [getGlobal, perform, wp, hop, Op.run]

theorem wp_setGlobal {x : Global} (h : F.sets x) (v : ℕ) (Q : Unit → PmmState → Prop) :
    wp F.Allows (setGlobal x v) s Q ↔ Q () (s.setVar x v) := by
  have hop : F.Allows (.set x v) := h
  simp [setGlobal, perform, wp, hop, Op.run]

end Rules

attribute [irreducible] nextAt sizeAt wordAt setNextAt setSizeAt setWordAt

/-- Memory `m` links the regions of `l`, in order, from `a` to `e`, and each
record states the length of its region. -/
structure FreeList (m : Mem) (a : ℕ) (l : List Region) (e : ℕ) : Prop where
  path : Path (nextAt m) a (l.map Region.start) e
  size : ∀ r ∈ l, sizeAt m r.start = r.len

instance (m : Mem) (a : ℕ) (l : List Region) (e : ℕ) : Decidable (FreeList m a l e) :=
  decidable_of_iff (Path (nextAt m) a (l.map Region.start) e ∧ ∀ r ∈ l, sizeAt m r.start = r.len)
    ⟨fun h => ⟨h.1, h.2⟩, fun h => ⟨h.path, h.size⟩⟩

namespace FreeList

variable {m m' : Mem} {a b e : ℕ} {l l₁ l₂ : List Region} {q r : Region}

theorem nil : FreeList m a [] e ↔ a = e := ⟨fun h => h.path, fun h => ⟨h, by simp⟩⟩

theorem cons : FreeList m a (r :: l) e ↔
    a = r.start ∧ sizeAt m r.start = r.len ∧ FreeList m (nextAt m r.start) l e := by
  constructor
  · rintro ⟨⟨h₁, h₂⟩, hsize⟩
    exact ⟨h₁, hsize r List.mem_cons_self, h₂,
      fun x hx => hsize x (List.mem_cons_of_mem _ hx)⟩
  · rintro ⟨h₁, h₂, h₃⟩
    refine ⟨⟨h₁, h₃.path⟩, fun x hx => ?_⟩
    rcases List.mem_cons.mp hx with rfl | hx
    · exact h₂
    · exact h₃.size x hx

theorem append : FreeList m a (l₁ ++ l₂) e ↔ ∃ c, FreeList m a l₁ c ∧ FreeList m c l₂ e := by
  constructor
  · rintro ⟨hpath, hsize⟩
    rw [List.map_append] at hpath
    obtain ⟨c, h₁, h₂⟩ := Path.append.mp hpath
    exact ⟨c, ⟨h₁, fun x hx => hsize x (List.mem_append_left _ hx)⟩,
      h₂, fun x hx => hsize x (List.mem_append_right _ hx)⟩
  · rintro ⟨c, h₁, h₂⟩
    refine ⟨?_, fun x hx => ?_⟩
    · rw [List.map_append]
      exact Path.append.mpr ⟨c, h₁.path, h₂.path⟩
    · rcases List.mem_append.mp hx with hx | hx
      · exact h₁.size x hx
      · exact h₂.size x hx

/-- A list only reads the records of its own regions. -/
theorem frame (h : FreeList m a l e) (hm : ∀ r ∈ l, SameRecord m m' r.start) :
    FreeList m' a l e := by
  refine ⟨h.path.congr fun x hx => ?_, fun r hr => (hm r hr).size.trans (h.size r hr)⟩
  obtain ⟨r, hr, rfl⟩ := List.mem_map.mp hx
  exact (hm r hr).next

/-- Let the last record of a list point elsewhere. -/
theorem redirect (h : FreeList m a (l ++ [q]) e) (hb : b < 18446744073709551616)
    (hl : ∀ r ∈ l, Apart q.start r.start) :
    FreeList (setNextAt m q.start b) a (l ++ [q]) b := by
  obtain ⟨c, h₁, h₂⟩ := append.mp h
  obtain ⟨rfl, hsize, -⟩ := cons.mp h₂
  refine append.mpr ⟨q.start, h₁.frame fun r hr => .setNextAt (hl r hr) b, cons.mpr ⟨rfl, ?_, ?_⟩⟩
  · rw [sizeAt_setNextAt, hsize]
  · exact nil.mpr (nextAt_setNextAt m q.start hb)

theorem start_eq (h : FreeList m a (r :: l) e) : a = r.start := h.path.1

theorem last_next (h : FreeList m a (l ++ [q]) e) : nextAt m q.start = e := by
  obtain ⟨c, -, h₂⟩ := append.mp h
  exact nil.mp (cons.mp h₂).2.2

/-- Let one record of the list state another length. -/
theorem resize {n : ℕ} (h : FreeList m a (l₁ ++ r :: l₂) e) (hn : n < 2147483648)
    (hl : ∀ t ∈ l₁ ++ l₂, Apart r.start t.start) :
    FreeList (setSizeAt m r.start n) a (l₁ ++ ⟨r.start, n⟩ :: l₂) e := by
  obtain ⟨c, h₁, h₂⟩ := append.mp h
  obtain ⟨rfl, -, h₃⟩ := cons.mp h₂
  refine append.mpr ⟨_, h₁.frame fun t ht => .setSizeAt (hl t (by simp [ht])) _,
    cons.mpr ⟨rfl, sizeAt_setSizeAt _ _ (by omega) (by omega), ?_⟩⟩
  rw [nextAt_setSizeAt]
  exact h₃.frame fun t ht => .setSizeAt (hl t (by simp [ht])) _

/-- The list up to `q` followed by the list from `b` on. -/
theorem splice {c : ℕ} (h₁ : FreeList m a (l₁ ++ [q]) c) (h₂ : FreeList m b l₂ e)
    (hb : b < 18446744073709551616) (hl₁ : ∀ r ∈ l₁, Apart q.start r.start)
    (hl₂ : ∀ r ∈ l₂, Apart q.start r.start) :
    FreeList (setNextAt m q.start b) a (l₁ ++ [q] ++ l₂) e :=
  append.mpr ⟨b, h₁.redirect hb hl₁, h₂.frame fun r hr => .setNextAt (hl₂ r hr) b⟩

end FreeList

/-- No two records of the list share a byte. -/
def Separated (l : List Region) : Prop := l.Pairwise fun x y => Apart x.start y.start

namespace Separated

variable {l l₁ l₂ : List Region} {r t : Region}

theorem perm (h : l₁.Perm l₂) : Separated l₁ ↔ Separated l₂ :=
  h.pairwise_iff fun h => Apart.symm h

theorem apart (h : Separated (l₁ ++ r :: l₂)) (ht : t ∈ l₁ ++ l₂) : Apart r.start t.start :=
  (List.pairwise_cons.mp ((perm List.perm_middle).mp h)).1 t ht

theorem nodup (h : Separated l) : (l.map Region.start).Nodup :=
  List.pairwise_map.mpr (h.imp fun h => h.ne)

end Separated
end KmallocKfree
