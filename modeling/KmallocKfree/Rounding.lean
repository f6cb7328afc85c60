import KmallocKfree.Pmm
import Mathlib.Data.Nat.Log
import Mathlib.Tactic.Ring
import Mathlib.Tactic.Linarith
import Mathlib.Tactic.Positivity

/-!
# Rounding requests

`kalloc` doubles 32 until it reaches the request. The result is the least power of
two that is at least 32 and at least the request; up to 16 KiB it is a size class,
and it divides a page.
-/
namespace KmallocKfree

/-- The block sizes of pages: powers of two from 32 B to 16 KiB. -/
structure SizeClass (c : ℕ) : Prop where
  ge : 32 ≤ c
  le : c ≤ 16384
  dvd : c ∣ pageBytes

/-- The doubling loop stops at the first value that reaches `size`. -/
theorem powvalFrom_spec {size fuel powval : ℕ} (h : size ≤ powval * 2 ^ fuel) :
    ∃ i, powvalFrom size fuel powval = powval * 2 ^ i ∧ size ≤ powval * 2 ^ i ∧
      ∀ j < i, powval * 2 ^ j < size := by
  induction fuel generalizing powval with
  | zero => exact ⟨0, by simp [powvalFrom], by simpa using h, by simp⟩
  | succ fuel ih =>
    unfold powvalFrom
    split_ifs with hlt
    · have hstep : powval * 2 * 2 ^ fuel = powval * 2 ^ (fuel + 1) := by rw [pow_succ']; ring
      obtain ⟨i, heq, hle, hmin⟩ := @ih (powval * 2) (by rwa [hstep])
      refine ⟨i + 1, by rw [heq, pow_succ']; ring, by rw [pow_succ']; linarith, ?_⟩
      intro j hj
      cases j with
      | zero => simpa using hlt
      | succ j =>
        have := hmin j (by omega)
        rw [pow_succ']
        linarith
    · exact ⟨0, by simp, by simpa using not_lt.mp hlt, by simp⟩

/-- A request of at most 16 MiB is rounded to the least power of two, from 32 on,
that holds it. -/
theorem roundSize_spec {n : ℕ} (h : n ≤ 16777216) :
    ∃ i, roundSize n = 32 * 2 ^ i ∧ n ≤ 32 * 2 ^ i ∧ ∀ j < i, 32 * 2 ^ j < n := by
  unfold roundSize
  split_ifs with hn
  · exact ⟨0, rfl, by simpa using hn, by simp⟩
  · exact powvalFrom_spec (le_trans h (by decide))

theorem roundSize_eq_pow {n : ℕ} (h : n ≤ 16777216) :
    roundSize n = 2 ^ Nat.clog 2 (max n 32) := by
  obtain ⟨i, heq, hle, hmin⟩ := roundSize_spec h
  have hpow : ∀ j, 32 * 2 ^ j = 2 ^ (j + 5) := by
    intro j
    rw [pow_add]
    ring
  have hmax : max n 32 ≤ 2 ^ (i + 5) := by
    apply max_le
    · rwa [← hpow]
    · change 2 ^ 5 ≤ 2 ^ (i + 5)
      exact Nat.pow_le_pow_right Nat.two_pos (Nat.le_add_left 5 i)
  have hle' : Nat.clog 2 (max n 32) ≤ i + 5 := (Nat.clog_le_iff_le_pow Nat.one_lt_two).mpr hmax
  have hge : i + 5 ≤ Nat.clog 2 (max n 32) := by
    by_contra hlt
    obtain ⟨k, hk⟩ : ∃ k, Nat.clog 2 (max n 32) = k + 5 := by
      have h5 : Nat.clog 2 (2 ^ 5) ≤ Nat.clog 2 (max n 32) := Nat.clog_mono_right 2 (by simp)
      rw [Nat.clog_pow 2 5 Nat.one_lt_two] at h5
      exact ⟨Nat.clog 2 (max n 32) - 5, by omega⟩
    have hfit := Nat.le_pow_clog Nat.one_lt_two (max n 32)
    rw [hk, ← hpow] at hfit
    have := hmin k (by omega)
    have := le_max_left n 32
    omega
  rw [heq, hpow, Nat.le_antisymm hle' hge]

theorem le_roundSize {n : ℕ} (h : n ≤ 16777216) : n ≤ roundSize n := by
  obtain ⟨i, heq, hle, -⟩ := roundSize_spec h
  rwa [heq]

/-- Rounding stays below a power of two that holds the request. -/
theorem roundSize_le_of_le {n k : ℕ} (hn : n ≤ 32 * 2 ^ k) (h : n ≤ 16777216) :
    ∃ i ≤ k, roundSize n = 32 * 2 ^ i := by
  obtain ⟨i, heq, -, hmin⟩ := roundSize_spec h
  refine ⟨i, ?_, heq⟩
  by_contra hlt
  exact absurd (hmin k (by omega)) (by omega)

theorem sizeClass_roundSize {n : ℕ} (h : n ≤ 16384) : SizeClass (roundSize n) := by
  obtain ⟨i, hi, heq⟩ := roundSize_le_of_le (k := 9) (by omega) (by omega : n ≤ 16777216)
  have hle : 2 ^ i ≤ 2 ^ 9 := Nat.pow_le_pow_right (by omega) hi
  have hpos : 0 < 2 ^ i := by positivity
  have hpage : pageBytes = 32 * 2 ^ 11 := rfl
  refine ⟨by omega, by omega, ?_⟩
  rw [heq, hpage]
  exact Nat.mul_dvd_mul_left 32 (Nat.pow_dvd_pow 2 (by omega))

/-- A large request is rounded to a power of two from 32 KiB to 16 MiB. -/
theorem roundSize_huge {n : ℕ} (h : 16384 < n) (h' : n ≤ 16777216) :
    32768 ≤ roundSize n ∧ roundSize n ≤ 16777216 ∧ 32768 ∣ roundSize n := by
  obtain ⟨i, hi, heq⟩ := roundSize_le_of_le (k := 19) (by omega) h'
  have hlow : n ≤ 32 * 2 ^ i := by rw [← heq]; exact le_roundSize h'
  have hi10 : 10 ≤ i := by
    by_contra hlt
    have : 2 ^ i ≤ 2 ^ 9 := Nat.pow_le_pow_right (by omega) (by omega)
    omega
  have hle : 2 ^ i ≤ 2 ^ 19 := Nat.pow_le_pow_right (by omega) hi
  have hge : 2 ^ 10 ≤ 2 ^ i := Nat.pow_le_pow_right (by omega) hi10
  refine ⟨by omega, by omega, ?_⟩
  rw [heq, show 32768 = 32 * 2 ^ 10 by norm_num]
  exact Nat.mul_dvd_mul_left 32 (Nat.pow_dvd_pow 2 hi10)

end KmallocKfree
