import KmallocKfree.Interleaving
import KmallocKfree.Commuting

/-!
# The locks of the allocator

`kalloc` and `kfree` keep a locking discipline, whatever the memory holds: the lock of
the caller's page list comes before the heap lock, `head` and the fields of a `freenode` are
read and written under the heap lock only, those of a page header or of a block of a page
under the caller's page lock, and every path that returns has released both. The `memset`
calls of `kfree` go through pointers to bytes, and no lock is asked for them here.
-/
namespace KmallocKfree

open Prog Discipline

/-- The lock that guards what a pointer of this type points to, on this CPU. -/
def Struct.guard (cpu : ℕ) : Struct → Option Lock
  | .freenode => some .heapLock
  | .pageheader => some (.pagelist cpu)
  | .pagefreenode => some (.pagelist cpu)
  | _ => none

/-- `head` is guarded for reading and writing, the heads of the page lists for writing. -/
def Op.guard (cpu : ℕ) : Op Struct Global Lock → Option Lock
  | .load k _ _ _ => k.guard cpu
  | .store k _ _ _ _ => k.guard cpu
  | .fill k _ _ => k.guard cpu
  | .get .head => some .heapLock
  | .set .head _ => some .heapLock
  | .set (.pagehead _) _ => some (.pagelist cpu)
  | _ => none

/-- Page lists before the heap; the assertion after a lock was taken must hold. -/
def pmmLocks (p : Platform) : Discipline Struct Global Lock Check where
  rank
    | .pagelist _ => 0
    | .heapLock => 1
  dom
    | .pagelist cpu => cpu < p.cpuCount
    | .heapLock => True
  needs cpu o l := o.guard cpu = some l
  never e := e = .lockTaken

/-- Among the locks is the one that guards the pointer type. -/
def Guarded (cpu : ℕ) (held : List Lock) (k : Struct) : Prop :=
  match k.guard cpu with
  | some l => l ∈ held
  | none => True

section Fields

variable {p : Platform} {held : List Lock} {k : Struct} {cpu q off n v : ℕ} {i : ℤ}

theorem guarded_iff : (∀ l, k.guard cpu = some l → l ∈ held) ↔ Guarded cpu held k := by
  unfold Guarded
  cases k.guard cpu <;> simp

@[simp] theorem guarded_freenode : Guarded cpu held .freenode ↔ .heapLock ∈ held := Iff.rfl

@[simp] theorem guarded_pageheader : Guarded cpu held .pageheader ↔ .pagelist cpu ∈ held :=
  Iff.rfl

@[simp] theorem guarded_pagefreenode : Guarded cpu held .pagefreenode ↔ .pagelist cpu ∈ held :=
  Iff.rfl

@[simp] theorem guarded_header : Guarded cpu held .header := trivial

@[simp] theorem guard_store : (Op.store k q off n v).guard cpu = k.guard cpu := rfl

@[simp] theorem guard_fill : (Op.fill k q n).guard cpu = k.guard cpu := rfl

@[simp] theorem guard_getHead : (Op.get Global.head).guard cpu = some .heapLock := rfl

@[simp] theorem guard_getPagehead {j : ℕ} : (Op.get (Global.pagehead j)).guard cpu = none := rfl

@[simp] theorem guard_setHead : (Op.set Global.head v).guard cpu = some .heapLock := rfl

@[simp] theorem guard_setPagehead {j : ℕ} :
    (Op.set (Global.pagehead j) v).guard cpu = some (.pagelist cpu) := rfl

@[simp] theorem guarded_bytes : Guarded cpu held .bytes := trivial

@[simp] theorem keeps_readPtr (Q : ℕ → List Lock → Prop) :
    (pmmLocks p).Keeps cpu held (readPtr k q) Q ↔ Guarded cpu held k ∧ ∀ v, Q v held := by
  unfold readPtr
  rw [keeps_perform (o := .load k q 0 8) trivial, ← guarded_iff]
  rfl

@[simp] theorem keeps_readWord (Q : ℕ → List Lock → Prop) :
    (pmmLocks p).Keeps cpu held (readWord k q off) Q ↔ Guarded cpu held k ∧ ∀ v, Q v held := by
  unfold readWord
  rw [keeps_perform (o := .load k q off 4) trivial, ← guarded_iff]
  rfl

@[simp] theorem keeps_readInt (Q : ℤ → List Lock → Prop) :
    (pmmLocks p).Keeps cpu held (readInt k q off) Q ↔
      Guarded cpu held k ∧ ∀ w, Q (toInt w) held := by
  simp [readInt]

@[simp] theorem keeps_writePtr (Q : Unit → List Lock → Prop) :
    (pmmLocks p).Keeps cpu held (writePtr k q v) Q ↔ Guarded cpu held k ∧ Q () held := by
  unfold writePtr
  rw [keeps_bind, keeps_perform (o := .store k q 0 8 v) trivial, ← guarded_iff]
  simp [pmmLocks]

@[simp] theorem keeps_writeWord (Q : Unit → List Lock → Prop) :
    (pmmLocks p).Keeps cpu held (writeWord k q off v) Q ↔ Guarded cpu held k ∧ Q () held := by
  unfold writeWord
  rw [keeps_bind, keeps_perform (o := .store k q off 4 v) trivial, ← guarded_iff]
  simp [pmmLocks]

@[simp] theorem keeps_writeInt (Q : Unit → List Lock → Prop) :
    (pmmLocks p).Keeps cpu held (writeInt k q off i) Q ↔ Guarded cpu held k ∧ Q () held :=
  keeps_writeWord Q

@[simp] theorem keeps_memset0 (Q : Unit → List Lock → Prop) :
    (pmmLocks p).Keeps cpu held (memset0 k q n) Q ↔ Guarded cpu held k ∧ Q () held := by
  unfold memset0
  rw [keeps_bind, keeps_perform (o := .fill k q n) trivial, ← guarded_iff]
  simp [pmmLocks]

@[simp] theorem keeps_getHead (Q : ℕ → List Lock → Prop) :
    (pmmLocks p).Keeps cpu held (getGlobal .head) Q ↔ .heapLock ∈ held ∧ ∀ v, Q v held := by
  unfold getGlobal
  rw [keeps_perform (o := .get Global.head) trivial]
  simp [pmmLocks]

@[simp] theorem keeps_getPagehead {j : ℕ} (Q : ℕ → List Lock → Prop) :
    (pmmLocks p).Keeps cpu held (getGlobal (.pagehead j)) Q ↔ ∀ v, Q v held := by
  unfold getGlobal
  rw [keeps_perform (o := .get (Global.pagehead j)) trivial]
  simp [pmmLocks]

@[simp] theorem keeps_setHead (Q : Unit → List Lock → Prop) :
    (pmmLocks p).Keeps cpu held (setGlobal .head v) Q ↔ .heapLock ∈ held ∧ Q () held := by
  unfold setGlobal
  rw [keeps_bind, keeps_perform (o := .set Global.head v) trivial]
  simp [pmmLocks]

@[simp] theorem keeps_setPagehead {j : ℕ} (Q : Unit → List Lock → Prop) :
    (pmmLocks p).Keeps cpu held (setGlobal (.pagehead j) v) Q ↔
      .pagelist cpu ∈ held ∧ Q () held := by
  unfold setGlobal
  rw [keeps_bind, keeps_perform (o := .set (Global.pagehead j) v) trivial]
  simp [pmmLocks]

@[simp] theorem keeps_assert {e : Check} {c : Prop} [Decidable c] (he : e ≠ .lockTaken)
    (Q : Unit → List Lock → Prop) :
    (pmmLocks p).Keeps cpu held (check e c) Q ↔ (c → Q () held) := by
  unfold check
  split_ifs with hc
  · simp [hc]
  · refine ⟨fun _ h => absurd h hc, fun _ e' he' => ?_⟩
    cases he'
    exact he

@[simp] theorem keeps_divide {a b : ℕ} (Q : ℕ → List Lock → Prop) :
    (pmmLocks p).Keeps cpu held (divide a b) Q ↔ (b ≠ 0 → Q (a / b) held) := by
  unfold divide
  split_ifs with hb
  · exact ⟨fun _ h => absurd hb h, fun _ e he => by cases he⟩
  · simp [hb]

/-- A lock is taken after locks of lower rank, and the assertion behind it holds. -/
theorem keeps_lock {l : Lock} {Q : Unit → List Lock → Prop} (hdom : (pmmLocks p).dom l)
    (hrank : ∀ h ∈ held, (pmmLocks p).rank h < (pmmLocks p).rank l) (hQ : Q () (l :: held)) :
    (pmmLocks p).Keeps cpu held (lock l) Q := by
  refine ⟨hdom, hrank, List.mem_cons_self, ?_⟩
  exact hQ

@[simp] theorem keeps_unlock {l : Lock} (Q : Unit → List Lock → Prop) :
    (pmmLocks p).Keeps cpu held (unlock l) Q ↔ l ∈ held ∧ Q () (held.erase l) :=
  ⟨fun h => ⟨h.1, h.2.2⟩, fun h => ⟨h.1, rfl, h.2⟩⟩

end Fields

section Functions

variable {p : Platform} {held : List Lock} {cpu x y z n : ℕ}

/-- The program keeps the discipline and gives back the locks it starts with. -/
def Steady {α : Type} (p : Platform) (cpu : ℕ) (held : List Lock) (c : Code α) : Prop :=
  (pmmLocks p).Keeps cpu held c fun _ held' => held' = held

/-- After a part that gives back its locks the rest has to keep the discipline. -/
theorem Steady.bind {α β : Type} {c : Code α} {f : α → Code β} {Q : β → List Lock → Prop}
    (h : Steady p cpu held c) (hQ : ∀ a, (pmmLocks p).Keeps cpu held (f a) Q) :
    (pmmLocks p).Keeps cpu held (c >>= f) Q :=
  keeps_bind.mpr (keeps_mono h fun a _ heq => heq ▸ hQ a)

section Lists

variable {k : Struct} (h : Guarded cpu held k)
include h

theorem steady_neighbours : Steady p cpu held (neighbours (readPtr k) x y) := by
  apply keeps_walk
  · intro a b
    rfl
  · intro a
    simpa using h

theorem steady_predecessor : Steady p cpu held (predecessor (readPtr k) x y) := by
  apply keeps_walk
  · intro a b
    simpa using h
  · intro a
    simpa using h

theorem steady_endsAt : Steady p cpu held (endsAt (fun q => readInt k q 8) x y) := by
  unfold Steady endsAt
  split_ifs
  · simpa using h
  · rfl

end Lists

section Heap

variable (h : .heapLock ∈ held)
include h

theorem steady_firstFit : Steady p cpu held (firstFit x) := by
  apply keeps_walk
  · intro a b
    simp [h]
  · intro a
    simp [h]

theorem steady_takeWholeNode : Steady p cpu held (takeWholeNode x y) := by
  simp [Steady, takeWholeNode, h]

theorem steady_splitNode : Steady p cpu held (splitNode x y) := by
  simp [Steady, splitNode, h]

theorem steady_highestFit : Steady p cpu held (highestFit n x) := by
  apply keeps_walk
  · intro a b
    simp [h]
  · intro a
    simp [h]

theorem steady_hugeUnlink : Steady p cpu held (hugeUnlink x) := by
  unfold Steady hugeUnlink
  rw [keeps_bind, keeps_getHead]
  refine ⟨h, fun head => ?_⟩
  apply (steady_predecessor (k := .freenode) h).bind
  intro pre
  simp [h]

theorem steady_hugeMergeBefore : Steady p cpu held (hugeMergeBefore x n y z) := by
  unfold Steady hugeMergeBefore
  simp only [keeps_bind, keeps_readInt, keeps_writeInt]
  refine ⟨h, fun a => ⟨h, ?_⟩⟩
  split_ifs
  · simp only [keeps_bind, keeps_readInt, keeps_writeInt]
    exact ⟨h, fun b => ⟨h, fun c => ⟨h, steady_hugeUnlink h⟩⟩⟩
  · rfl

theorem steady_hugeMergeAfter : Steady p cpu held (hugeMergeAfter x n y) := by
  unfold Steady hugeMergeAfter
  simp only [keeps_bind, keeps_readInt, keeps_writeInt, keeps_getHead, keeps_writePtr,
    keeps_setHead]
  refine ⟨h, fun a => ⟨h, h, fun b => ⟨h, h, ?_⟩⟩⟩
  apply keeps_mono (steady_predecessor (k := .freenode) h)
  rintro pre _ rfl
  simp [h]

theorem steady_hugePushNode : Steady p cpu held (hugePushNode x n) := by
  simp [Steady, hugePushNode, h]

end Heap

/-- `allockpage` takes the heap lock and gives it back. -/
theorem steady_allockpage (hrank : ∀ l ∈ held, (pmmLocks p).rank l < 1) :
    Steady p cpu held allockpage := by
  have hmem : Lock.heapLock ∈ Lock.heapLock :: held := List.mem_cons_self
  unfold Steady allockpage
  rw [keeps_bind]
  refine keeps_lock (l := .heapLock) trivial hrank ?_
  rw [keeps_bind, keeps_getHead]
  refine ⟨hmem, fun head => ?_⟩
  apply (steady_firstFit hmem).bind
  intro fit
  rw [keeps_ite]
  split_ifs with hfit
  · rw [keeps_bind, keeps_readInt]
    refine ⟨hmem, fun w => ?_⟩
    simp only
    split_ifs
    · apply (steady_takeWholeNode hmem).bind
      simp
    · apply (steady_splitNode hmem).bind
      simp
  · simp

theorem steady_kallocHugeMemory : Steady p cpu [] (kallocHugeMemory n) := by
  have hmem : Lock.heapLock ∈ [Lock.heapLock] := List.mem_singleton_self _
  unfold Steady kallocHugeMemory
  rw [keeps_bind]
  refine keeps_lock (l := .heapLock) trivial (by simp) ?_
  rw [keeps_bind, keeps_getHead]
  refine ⟨hmem, fun head => ?_⟩
  apply (steady_highestFit hmem).bind
  intro node
  simp

section Page

variable (h : .pagelist cpu ∈ held)
include h

theorem steady_initFirstPage : Steady p cpu held (initFirstPage x n) := by
  simp [Steady, initFirstPage, h]

theorem steady_findSized : Steady p cpu held (findSized n x) := by
  apply keeps_walk
  · intro a b
    simp [h]
  · intro a
    simp [h]

theorem steady_findEmpty : Steady p cpu held (findEmpty x) := by
  apply keeps_walk
  · intro a b
    simp [h]
  · intro a
    simp [h]

theorem steady_dropHeadNode : Steady p cpu held (dropHeadNode x y n) := by
  simp [Steady, dropHeadNode, h]

theorem steady_advanceHeadNode : Steady p cpu held (advanceHeadNode x y n) := by
  simp [Steady, advanceHeadNode, h]

theorem steady_scanPagelist : Steady p cpu held (scanPagelist x y) := by
  apply keeps_walk
  · intro a b
    rw [keeps_ite]
    split_ifs <;> rfl
  · intro a
    simp [h]

theorem steady_scanCpus (i : ℕ) : Steady p cpu held (scanCpus x n i) := by
  induction n generalizing i with
  | zero => rfl
  | succ n ih =>
    unfold Steady scanCpus
    rw [keeps_bind, keeps_getPagehead]
    intro head
    apply (steady_scanPagelist h).bind
    intro found
    rw [keeps_ite]
    split_ifs
    · rfl
    · exact ih (i + 1)

theorem steady_freeListHead : Steady p cpu held (freeListHead x) := by
  simp [Steady, freeListHead, h]

theorem steady_setFreeListHead : Steady p cpu held (setFreeListHead x y) := by
  simp [Steady, setFreeListHead, h]

theorem steady_markIfEmpty : Steady p cpu held (markIfEmpty x y) := by
  simp [Steady, markIfEmpty, h]

theorem steady_pageUnlink : Steady p cpu held (pageUnlink x y z) := by
  apply (steady_freeListHead h).bind
  intro head
  apply (steady_predecessor (k := .pagefreenode) h).bind
  intro pre
  rw [keeps_ite]
  split_ifs
  · simp [h]
  · exact steady_setFreeListHead h

theorem steady_mergeBefore : Steady p cpu held (mergeBefore x n y z) := by
  unfold Steady mergeBefore
  simp only [keeps_bind, keeps_readInt, keeps_writeInt]
  refine ⟨h, fun a => ⟨h, fun b => ⟨h, h, fun c => ?_⟩⟩⟩
  split_ifs
  · simp only [keeps_bind, keeps_readInt, keeps_writeInt]
    refine ⟨h, fun d => ⟨h, fun e => ⟨h, ?_⟩⟩⟩
    apply keeps_mono (steady_pageUnlink h)
    rintro _ _ rfl
    exact steady_markIfEmpty h
  · exact steady_markIfEmpty h

theorem steady_mergeAfter : Steady p cpu held (mergeAfter x y z) := by
  unfold Steady mergeAfter
  simp only [keeps_bind, keeps_readInt, keeps_writeInt]
  refine ⟨h, h, fun a => ⟨h, fun b => ⟨h, ?_⟩⟩⟩
  apply keeps_mono (steady_freeListHead h)
  rintro head _ rfl
  rw [keeps_writePtr]
  refine ⟨h, ?_⟩
  apply keeps_mono (steady_setFreeListHead h)
  rintro _ _ rfl
  rw [keeps_readWord]
  refine ⟨h, fun index => ?_⟩
  rw [keeps_assert (e := .mergedIndexPositive) (by decide)]
  intro _
  apply keeps_mono (steady_freeListHead h)
  rintro head _ rfl
  apply keeps_mono (steady_predecessor (k := .pagefreenode) h)
  rintro pre _ rfl
  simp only [keeps_readPtr, keeps_writePtr]
  exact ⟨h, fun rest => ⟨h, steady_markIfEmpty h⟩⟩

theorem steady_pushNode : Steady p cpu held (pushNode x y) := by
  simp [Steady, pushNode, freeListHead, setFreeListHead, h]

end Page

/-- Every path behind the lock of a page list releases it. -/
def Releases {α : Type} (p : Platform) (cpu : ℕ) (c : Code α) : Prop :=
  (pmmLocks p).Keeps cpu [.pagelist cpu] c fun _ held => held = []

theorem releases_kallocFast : Releases p cpu (kallocFast cpu x n) := by
  have h : Lock.pagelist cpu ∈ [Lock.pagelist cpu] := List.mem_singleton_self _
  unfold Releases kallocFast
  simp only [keeps_bind, keeps_readInt, keeps_readWord]
  refine ⟨h, fun w => ?_⟩
  rw [keeps_assert (e := .fastSizeMatches) (by decide)]
  refine fun _ => ⟨h, fun index => ⟨h, fun rest => ?_⟩⟩
  rw [keeps_ite]
  split_ifs
  · simp only [keeps_bind, keeps_writeInt, keeps_readInt]
    refine ⟨h, h, fun left => ?_⟩
    rw [keeps_ite]
    split_ifs
    · apply (steady_dropHeadNode h).bind
      simp
    · apply (steady_advanceHeadNode h).bind
      simp
  · rw [keeps_bind, keeps_unlock]
    exact ⟨h, fun e he => by cases he⟩

theorem releases_takeFirstBlock : Releases p cpu (takeFirstBlock cpu x n) := by
  simp [Releases, takeFirstBlock]

theorem releases_kallocSlow : Releases p cpu (kallocSlow cpu n) := by
  have h : Lock.pagelist cpu ∈ [Lock.pagelist cpu] := List.mem_singleton_self _
  unfold Releases kallocSlow
  rw [keeps_bind, keeps_getPagehead]
  intro head
  apply (steady_findEmpty h).bind
  intro page
  rw [keeps_ite]
  split_ifs
  · rw [keeps_bind, keeps_writeInt]
    exact ⟨h, releases_takeFirstBlock⟩
  · apply (steady_allockpage (by simp [pmmLocks])).bind
    intro fresh
    rw [keeps_ite]
    split_ifs
    · simp only [keeps_bind, keeps_getPagehead, keeps_writePtr, keeps_writeInt, keeps_writeWord,
        keeps_setPagehead]
      exact fun rest => ⟨h, h, h, h, releases_takeFirstBlock⟩
    · simp

theorem steady_kallocPaged (hcpu : cpu < p.cpuCount) : Steady p cpu [] (kallocPaged cpu n) := by
  unfold Steady kallocPaged
  rw [keeps_bind]
  refine keeps_lock (l := .pagelist cpu) hcpu (by simp) ?_
  rw [keeps_bind, keeps_getPagehead]
  intro head
  apply (steady_findSized (List.mem_singleton_self _)).bind
  intro page
  rw [keeps_ite]
  split_ifs
  · exact releases_kallocFast
  · exact releases_kallocSlow

theorem steady_kallocFirst (hcpu : cpu < p.cpuCount) : Steady p cpu [] (kallocFirst cpu n) := by
  unfold Steady kallocFirst
  rw [keeps_bind]
  refine keeps_lock (l := .pagelist cpu) hcpu (by simp) ?_
  apply (steady_allockpage (by simp [pmmLocks])).bind
  intro page
  simp only [keeps_bind, keeps_setPagehead, keeps_getPagehead]
  refine ⟨List.mem_singleton_self _, fun page => ?_⟩
  rw [keeps_assert (e := .firstPageAllocated) (by decide)]
  intro _
  apply keeps_mono (steady_initFirstPage (List.mem_singleton_self _))
  rintro _ _ rfl
  simp

theorem steady_kallocSmall (hcpu : cpu < p.cpuCount) :
    Steady p cpu [] (kallocSmall p cpu n) := by
  unfold Steady kallocSmall
  rw [keeps_bind, keeps_assert (e := .cpuInRange) (by decide)]
  intro _
  rw [keeps_bind, keeps_getPagehead]
  intro page
  split_ifs
  · apply (steady_kallocFirst hcpu).bind
    intro _
    exact steady_kallocPaged hcpu
  · exact steady_kallocPaged hcpu

/-- Every path of `kalloc` that returns has released the locks it took. -/
theorem steady_kalloc (hcpu : cpu < p.cpuCount) : Steady p cpu [] (kalloc p cpu n) := by
  unfold kalloc
  split_ifs
  · exact steady_kallocSmall hcpu
  · exact rfl
  · exact steady_kallocHugeMemory
  · exact steady_kallocSmall hcpu

/-- The free path releases the lock of the caller's page list after any of its merges. -/
theorem releases_kfreePage : Releases p cpu (kfreePage cpu x y) := by
  have h : Lock.pagelist cpu ∈ [Lock.pagelist cpu] := List.mem_singleton_self _
  unfold Releases kfreePage
  simp only [keeps_bind, keeps_readInt, keeps_memset0]
  refine ⟨h, fun w => ⟨trivial, ?_⟩⟩
  apply keeps_mono (steady_freeListHead h)
  rintro head _ rfl
  apply keeps_mono (steady_neighbours (k := .pagefreenode) h)
  rintro near _ rfl
  apply keeps_mono (steady_endsAt (k := .pagefreenode) h)
  rintro merges _ rfl
  split_ifs
  · apply (steady_mergeBefore h).bind
    simp
  · rw [keeps_bind, keeps_readInt]
    refine ⟨h, fun w => ?_⟩
    split_ifs
    · apply (steady_mergeAfter h).bind
      simp
    · apply (steady_pushNode h).bind
      simp

/-- The lock of the page list goes back before the heap lock is taken. -/
theorem releases_kfreeHuge : Releases p cpu (kfreeHuge cpu x) := by
  have h : Lock.heapLock ∈ [Lock.heapLock] := List.mem_singleton_self _
  unfold Releases kfreeHuge
  rw [keeps_bind, keeps_unlock]
  refine ⟨List.mem_singleton_self _, ?_⟩
  rw [List.erase_cons_head, keeps_bind]
  refine keeps_lock (l := .heapLock) trivial (by simp) ?_
  simp only [keeps_bind, keeps_getHead, keeps_readInt]
  refine ⟨h, fun head => ⟨trivial, fun magic => ?_⟩⟩
  rw [keeps_assert (e := .headerMagic) (by decide)]
  intro _
  simp only [keeps_memset0]
  refine ⟨trivial, fun size => ⟨trivial, fun again => ⟨trivial, ?_⟩⟩⟩
  apply keeps_mono (steady_neighbours (k := .freenode) h)
  rintro near _ rfl
  apply keeps_mono (steady_endsAt (k := .freenode) h)
  rintro merges _ rfl
  split_ifs
  · apply (steady_hugeMergeBefore h).bind
    simp
  · apply (steady_hugeMergeAfter h).bind
    simp
  · apply (steady_hugePushNode h).bind
    simp

/-- Every path of `kfree` that returns has released the locks it took. -/
theorem steady_kfree (hcpu : cpu < p.cpuCount) : Steady p cpu [] (kfree p cpu x) := by
  unfold Steady kfree
  rw [keeps_bind, keeps_assert (e := .ptrNotNull) (by decide)]
  intro _
  rw [keeps_bind]
  refine keeps_lock (l := .pagelist cpu) hcpu (by simp) ?_
  apply (steady_scanCpus (List.mem_singleton_self _) 0).bind
  intro found
  rw [keeps_ite]
  split_ifs
  · rw [keeps_bind, keeps_assert (e := .pageFlagged) (by decide)]
    intro _
    exact releases_kfreePage
  · exact releases_kfreeHuge

theorem steady_call (hcpu : cpu < p.cpuCount) (c : Call) : Steady p cpu [] (c.run p cpu) := by
  cases c with
  | alloc n => exact steady_kalloc hcpu
  | free ptr =>
    apply (steady_kfree hcpu).bind
    intro _
    rfl

end Functions

section Discipline

variable {p : Platform} {c : Config Struct Global Lock Check ℕ}
  {C : Config Struct Global Lock Check ℕ → Event → Prop}

/-- The CPUs run calls of `kalloc` and `kfree`, each any number of them, from a store
whose locks are free. -/
def pmmMachine (p : Platform) : Machine (Config Struct Global Lock Check ℕ) Event :=
  concurrent (fun i code => i < p.cpuCount ∧ ∃ call : Call, code = call.run p i) (Unlocked p)

/-- The operation reads or writes `head`. -/
def HeadOp : Op Struct Global Lock → Prop
  | .get x => x = .head
  | .set x _ => x = .head
  | _ => False

theorem HeadOp.guard {o : Op Struct Global Lock} (h : HeadOp o) (i : ℕ) :
    Data o ∧ o.guard i = some .heapLock := by
  cases o with
  | get x =>
    obtain rfl : x = .head := h
    exact ⟨trivial, rfl⟩
  | set x v =>
    obtain rfl : x = .head := h
    exact ⟨trivial, rfl⟩
  | _ => exact h.elim

/-- What holds of the locks at any time. -/
structure Disciplined (c : Config Struct Global Lock Check ℕ) : Prop where
  exclusive : ∀ i j l, l ∈ (c.thread i).held → l ∈ (c.thread j).held → i = j
  taken : ∀ i, (c.thread i).code ≠ some (.fail (.assertion .lockTaken))
  head : ∀ i o k, (c.thread i).code = some (.op o k) → HeadOp o → .heapLock ∈ (c.thread i).held
  no_self_wait : ∀ i l, Waits c i l → l ∉ (c.thread i).held
  acyclic : ∀ i, ¬ Relation.TransGen (WaitsFor c) i i
  /-- Unless an assertion, a panic or a processor fault has stopped a CPU. -/
  progress : (∀ i f, (c.thread i).code = some (.fail f) → f = .divergence) →
    ∀ i l, Waits c i l → ∃ j, (c.thread j).held ≠ [] ∧ ∃ c', Moves j c c'
  released : ∀ i v, (c.thread i).code = some (.ret v) → (c.thread i).held = []

/-- A configuration in order is disciplined. -/
theorem disciplined_of_orderly (h : Orderly (pmmLocks p) c) : Disciplined c where
  exclusive _ _ _ hi hj := h.holder_unique hi hj
  taken _ := h.not_failed rfl
  head i _ _ hcode ho := h.needs_held hcode (ho.guard i).1 (ho.guard i).2
  no_self_wait _ _ hw := h.not_held_of_waits hw
  acyclic _ := h.acyclic
  progress hrun i l hw := by
    have hrank : ∀ l, (pmmLocks p).rank l < 2 := by
      intro l
      cases l <;> simp [pmmLocks]
    exact h.progress hrank hrun hw
  released i _ hcode := h.code i _ hcode

/-- Every configuration that the calls reach is in order. -/
theorem orderly_reached (h : (pmmMachine p).Reach C c) : Orderly (pmmLocks p) c := by
  refine orderly_of_reach ?_ ?_ h
  · intro s hs l hl
    cases l with
    | heapLock => exact hs.1
    | pagelist cpu => exact hs.2 cpu hl
  · rintro i _ ⟨hi, call, rfl⟩
    exact steady_call hi call

/-- The locking discipline of `kalloc` and `kfree`, in every interleaving of the calls of
any number of CPUs, and whatever is written to the memory in between. -/
theorem lock_discipline (h : (pmmMachine p).Reach C c) : Disciplined c :=
  disciplined_of_orderly (orderly_reached h)

end Discipline
end KmallocKfree
