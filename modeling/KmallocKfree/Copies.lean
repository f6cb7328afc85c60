import KmallocKfree.Assignments
import KmallocKfree.Strings
import Mathlib.Data.List.Range

/-!
# `memmove` and `memcpy`

Both make the assignments `dst[i] := src[i]`, upwards or downwards. `memmove` chooses the
direction in which no byte is read after it was written, so that the bytes are copied as they
were before the call. `memcpy` goes up, which is right for blocks that do not overlap; but it
returns the pointer that it has moved.
-/
namespace KmallocKfree.CString

open ByteMemory (Mem)

/-- The assignments of a copy of `n` bytes. -/
def moves (dst src n : ℕ) : List (ℕ × ℕ) :=
  (List.range n).map fun i => (addPtr dst i, addPtr src i)

variable {m : Mem} {dst src d s n : ℕ}

section Addresses

theorem mem_moves {a : ℕ × ℕ} :
    a ∈ moves dst src n ↔ ∃ i < n, a = (addPtr dst i, addPtr src i) := by
  simp only [moves, List.mem_map, List.mem_range, eq_comm]

end Addresses

section Loops

theorem copyUp_eq (hd : d < 18446744073709551616) (hs : s < 18446744073709551616) :
    copyUp n d s m = (addPtr d n, assign m (moves d s n)) := by
  induction n generalizing d s m with
  | zero => rw [addPtr_zero hd]; rfl
  | succ n ih =>
    have hmoves : moves d s (n + 1) = (d, s) :: moves (addPtr d 1) (addPtr s 1) n := by
      rw [moves, List.range_succ_eq_map, List.map_cons, List.map_map, addPtr_zero hd,
        addPtr_zero hs, moves]
      congr 1
      apply List.map_congr_left
      intro i _
      rw [addPtr_addPtr, addPtr_addPtr, Nat.add_comm 1 i]
      rfl
    rw [copyUp, ih addPtr_lt addPtr_lt, addPtr_addPtr, Nat.add_comm 1 n, hmoves, assign]

theorem copyDown_eq :
    copyDown n (addPtr d n) (addPtr s n) m = assign m (moves d s n).reverse := by
  induction n generalizing m with
  | zero => rfl
  | succ n ih =>
    have hmoves : (moves d s (n + 1)).reverse =
        (addPtr d n, addPtr s n) :: (moves d s n).reverse := by
      rw [moves, List.range_succ, List.map_append, List.reverse_append]
      rfl
    simp only [copyDown, subPtr_addPtr, ih, hmoves, assign]

/-- Upwards, when no byte is read that was written before. -/
theorem ordered_moves (hn : n ≤ 18446744073709551616)
    (h : ∀ i < n, ∀ j < i, addPtr d j ≠ addPtr s i) : Ordered (moves d s n) := by
  rw [Ordered, moves, List.pairwise_map]
  refine List.pairwise_lt_range.imp_of_mem fun {i j} hi hj hij => ?_
  rw [List.mem_range] at hi hj
  exact ⟨h j hj i hij, fun heq => hij.ne (addPtr_inj (by omega) (by omega) heq)⟩

/-- Downwards. -/
theorem ordered_reverse (hn : n ≤ 18446744073709551616)
    (h : ∀ i < n, ∀ j < i, addPtr d i ≠ addPtr s j) : Ordered (moves d s n).reverse := by
  rw [Ordered, List.pairwise_reverse, moves, List.pairwise_map]
  refine List.pairwise_lt_range.imp_of_mem fun {i j} hi hj hij => ?_
  rw [List.mem_range] at hi hj
  exact ⟨h j hj i hij, fun heq => hij.ne (addPtr_inj (by omega) (by omega) heq.symm)⟩

end Loops

section Memmove

/-- When the direction is right for the blocks, `memmove` makes all assignments at once. -/
theorem memmove_eq (hd : dst < 18446744073709551616) (hs : src < 18446744073709551616)
    (hn : n ≤ 18446744073709551616)
    (hup : dst ≤ src → ∀ i < n, ∀ j < i, addPtr dst j ≠ addPtr src i)
    (hdown : src < dst → ∀ i < n, ∀ j < i, addPtr dst i ≠ addPtr src j) :
    ∃ l, Ordered l ∧ (∀ a, a ∈ l ↔ a ∈ moves dst src n) ∧
      memmove dst src n m = (dst, assign m l) := by
  unfold memmove
  by_cases hle : dst ≤ src
  · refine ⟨moves dst src n, ordered_moves hn (hup hle), fun _ => Iff.rfl, ?_⟩
    rw [if_pos hle, copyUp_eq hd hs]
  · refine ⟨(moves dst src n).reverse, ordered_reverse hn (hdown (not_le.mp hle)), fun _ =>
      List.mem_reverse, ?_⟩
    rw [if_neg hle, copyDown_eq]

/-- `memmove` copies the bytes that the source had, for every overlap, and leaves every byte
outside the destination as it was. -/
theorem memmove_correct (hd : dst + n ≤ 18446744073709551616)
    (hs : src + n ≤ 18446744073709551616) :
    (∀ i < n, (memmove dst src n m).2 (dst + i) = m (src + i)) ∧
      ∀ x, x < dst ∨ dst + n ≤ x → (memmove dst src n m).2 x = m x := by
  by_cases hn : n = 0
  · subst hn
    have hsame : (memmove dst src 0 m).2 = m := by
      unfold memmove
      split_ifs <;> rfl
    rw [hsame]
    exact ⟨fun i hi => absurd hi (Nat.not_lt_zero i), fun _ _ => rfl⟩
  have hdst : ∀ i < n, addPtr dst i = dst + i := fun i hi => addPtr_of_lt (by omega)
  have hsrc : ∀ i < n, addPtr src i = src + i := fun i hi => addPtr_of_lt (by omega)
  obtain ⟨l, hordered, hmem, hrun⟩ := memmove_eq (m := m) (show dst < _ by omega)
    (show src < _ by omega) (show n ≤ _ by omega)
    (fun hle i hi j hj => by rw [hdst j (by omega), hsrc i hi]; omega)
    (fun hlt i hi j hj => by rw [hdst i hi, hsrc j (by omega)]; omega)
  rw [hrun]
  constructor
  · intro i hi
    have hin : (dst + i, src + i) ∈ l := (hmem _).mpr (mem_moves.mpr ⟨i, hi, by
      rw [hdst i hi, hsrc i hi]⟩)
    exact assign_of_mem hordered hin
  · intro x hx
    apply assign_of_not_mem
    intro a ha
    obtain ⟨i, hi, rfl⟩ := mem_moves.mp ((hmem a).mp ha)
    rw [hdst i hi]
    omega

/-- A memory that holds its addresses, modulo 256. -/
def numbered : Mem := fun x => UInt8.ofNat x

/-- Two bytes up within a block of four. -/
theorem memmove_correct_overlap :
    (∀ i < 4, (memmove 102 100 4 numbered).2 (102 + i) = numbered (100 + i)) ∧
      ∀ x, x < 102 ∨ 102 + 4 ≤ x → (memmove 102 100 4 numbered).2 x = numbered x :=
  memmove_correct (by decide) (by decide)

end Memmove

section Memcpy

theorem disjoint_copies (hd : dst < 18446744073709551616) (hs : src < 18446744073709551616)
    (hn : n < 18446744073709551616) (h : ∀ i < n, ∀ j < n, addPtr dst i ≠ addPtr src j) :
    (memcpy dst src n m).2 = (memmove dst src n m).2 ∧ (memmove dst src n m).1 = dst ∧
      (memcpy dst src n m).1 = addPtr dst n := by
  have hup : ∀ i < n, ∀ j < i, addPtr dst j ≠ addPtr src i := fun i hi j hj =>
    h j (by omega) i hi
  obtain ⟨l, hordered, hmem, hrun⟩ := memmove_eq (m := m) hd hs hn.le (fun _ => hup)
    (fun _ i hi j hj => h i hi j (by omega))
  rw [hrun, memcpy, copyUp_eq hd hs]
  exact ⟨assign_congr (ordered_moves hn.le hup) hordered fun a => (hmem a).symm, rfl, rfl⟩

/-- On disjoint blocks `memcpy` and `memmove` leave the same memory. They return the same
pointer, the destination, only when nothing is copied. -/
theorem memcpy_memmove_iff (hd : dst < 18446744073709551616) (hs : src < 18446744073709551616)
    (hn : n < 18446744073709551616) (h : ∀ i < n, ∀ j < n, addPtr dst i ≠ addPtr src j) :
    (memcpy dst src n m).2 = (memmove dst src n m).2 ∧
      ((memcpy dst src n m).1 = (memmove dst src n m).1 ∧ (memmove dst src n m).1 = dst ↔
        n = 0) := by
  obtain ⟨hmem, hmove, hcpy⟩ := disjoint_copies (m := m) hd hs hn h
  rw [hmove, hcpy]
  refine ⟨hmem, ?_, ?_⟩
  · intro heq
    have hzero : addPtr dst n = addPtr dst 0 := by rw [heq.1, addPtr_zero hd]
    exact addPtr_inj hn (by omega) hzero
  · intro hzero
    subst hzero
    exact ⟨addPtr_zero hd, rfl⟩

theorem memcpy_memmove_four :
    (memcpy 100 200 4 numbered).2 = (memmove 100 200 4 numbered).2 ∧
      ((memcpy 100 200 4 numbered).1 = (memmove 100 200 4 numbered).1 ∧
        (memmove 100 200 4 numbered).1 = 100 ↔ 4 = 0) := by
  refine memcpy_memmove_iff (by decide) (by decide) (by decide) fun i hi j hj => ?_
  rw [addPtr_of_lt (by omega), addPtr_of_lt (by omega)]
  omega

/-- One byte is copied from 200 to 100: `memcpy` returns 101. -/
theorem memcpy_returns_end : ¬ ∀ (m : Mem) (dst src n : ℕ), dst < 18446744073709551616 →
    src < 18446744073709551616 → n < 18446744073709551616 →
    (∀ i < n, ∀ j < n, addPtr dst i ≠ addPtr src j) →
    (memcpy dst src n m).2 = (memmove dst src n m).2 ∧ (memcpy dst src n m).1 = dst ∧
      (memmove dst src n m).1 = dst := by
  intro hall
  have hdisjoint : ∀ i < 1, ∀ j < 1, addPtr 100 i ≠ addPtr 200 j := by decide
  obtain ⟨-, hret, -⟩ := hall (fun _ => 0) 100 200 1 (by decide) (by decide) (by decide) hdisjoint
  exact absurd hret (by decide)

end Memcpy
end KmallocKfree.CString
