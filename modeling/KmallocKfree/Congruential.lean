import Mathlib.Data.Nat.ModEq
import Mathlib.Data.Nat.Prime.Basic
import Mathlib.Order.Interval.Finset.Nat
import Mathlib.Tactic.Ring

/-!
# Linear congruential sequences

`x` becomes `a * x + c`. When `a` is 1 modulo 4 and `c` is odd, the sequence modulo `2 ^ w` comes
back to a number after `2 ^ w` steps and not earlier, and so passes through all numbers below
`2 ^ w`. Everything follows from how often 2 divides the sums `1 + a + ... + a ^ (n - 1)`: as
often as `n`.
-/
namespace KmallocKfree.Congruential

/-- `1 + a + ... + a ^ (n - 1)`. -/
def powerSum (a : ℕ) : ℕ → ℕ
  | 0 => 0
  | n + 1 => a * powerSum a n + 1

/-- The sequence before it is reduced. -/
def state (a c x : ℕ) : ℕ → ℕ
  | 0 => x
  | n + 1 => a * state a c x n + c

variable {a c x k n w : ℕ}

section PowerSums

theorem powerSum_double (a n : ℕ) : powerSum a (n + n) = (a ^ n + 1) * powerSum a n := by
  have hadd : ∀ m, powerSum a (m + n) = a ^ m * powerSum a n + powerSum a m := by
    intro m
    induction m with
    | zero => simp [powerSum]
    | succ m ih =>
      rw [Nat.add_right_comm, powerSum, ih, powerSum]
      ring
  rw [hadd]
  ring

theorem powerSum_mod_two (ha : a % 4 = 1) : powerSum a n % 2 = n % 2 := by
  induction n with
  | zero => rfl
  | succ n ih =>
    have hodd : a % 2 = 1 := by omega
    rw [powerSum, Nat.add_mod, Nat.mul_mod, hodd, ih]
    omega

theorem pow_mod_four (ha : a % 4 = 1) : a ^ n % 4 = 1 := by
  rw [Nat.pow_mod, ha, Nat.one_pow]

/-- 2 divides the sum as often as the number of its terms. -/
theorem dvd_powerSum (ha : a % 4 = 1) : 2 ^ w ∣ powerSum a n ↔ 2 ^ w ∣ n := by
  induction w generalizing n with
  | zero => simp
  | succ w ih =>
    have hparity := powerSum_mod_two (n := n) ha
    have htwo : 2 ∣ 2 ^ (w + 1) := dvd_pow_self 2 (Nat.succ_ne_zero w)
    rcases Nat.even_or_odd' n with ⟨j, hj | hj⟩
    · have hfour := pow_mod_four (n := j) ha
      obtain ⟨q, hq⟩ : ∃ q, a ^ j + 1 = 2 * (2 * q + 1) := ⟨(a ^ j - 1) / 4, by omega⟩
      have hcop : (2 ^ w).Coprime (2 * q + 1) := by
        apply Nat.Coprime.pow_left
        simp
      rw [hj, two_mul j, powerSum_double, hq, Nat.mul_assoc, ← two_mul j, pow_succ',
        Nat.mul_dvd_mul_iff_left two_pos, Nat.mul_dvd_mul_iff_left two_pos,
        hcop.dvd_mul_left, ih]
    · constructor
      · intro h
        have := Nat.dvd_trans htwo h
        omega
      · intro h
        have := Nat.dvd_trans htwo h
        omega

/-- A number that `2 ^ (w + 1)` does not divide has a multiple that `2 ^ w` divides but not
`2 ^ (w + 1)`. -/
theorem exists_half (h : ¬ 2 ^ (w + 1) ∣ k) : ∃ u, 2 ^ w ∣ k * u ∧ ¬ 2 ^ (w + 1) ∣ k * u := by
  induction w with
  | zero => exact ⟨1, by simp, by simpa using h⟩
  | succ w ih =>
    by_cases hdvd : 2 ^ (w + 1) ∣ k
    · exact ⟨1, by simpa using hdvd, by simpa using h⟩
    · obtain ⟨u, hu, hnot⟩ := ih hdvd
      refine ⟨2 * u, ?_, ?_⟩
      · rw [Nat.mul_left_comm, pow_succ', Nat.mul_dvd_mul_iff_left two_pos]
        exact hu
      · rw [Nat.mul_left_comm, pow_succ' 2 (w + 1), Nat.mul_dvd_mul_iff_left two_pos]
        exact hnot

end PowerSums

section Sequences

/-- How far the sequence gets in `k` steps. -/
theorem state_add (ha : 0 < a) : state a c x (n + k) =
    state a c x n + ((a - 1) * state a c x n + c) * powerSum a k := by
  obtain ⟨b, rfl⟩ : ∃ b, a = b + 1 := ⟨a - 1, by omega⟩
  induction k with
  | zero => simp [powerSum]
  | succ k ih =>
    rw [← Nat.add_assoc, state, ih, powerSum, Nat.add_sub_cancel]
    ring

/-- The factor in front of the sum is odd. -/
theorem coprime_factor (ha : a % 4 = 1) (hc : c % 2 = 1) (y : ℕ) :
    (2 ^ w).Coprime ((a - 1) * y + c) := by
  apply Nat.Coprime.pow_left
  obtain ⟨b, hb⟩ : ∃ b, a - 1 = 2 * b := ⟨(a - 1) / 2, by omega⟩
  rw [Nat.coprime_two_left, hb, Nat.odd_iff, Nat.mul_assoc]
  omega

/-- The sequence comes back after the multiples of `2 ^ w`. -/
theorem state_mod_iff (ha : a % 4 = 1) (hc : c % 2 = 1) :
    state a c x (n + k) % 2 ^ w = state a c x n % 2 ^ w ↔ 2 ^ w ∣ k := by
  have hmod := Nat.modEq_iff_dvd' (n := 2 ^ w) (Nat.le_add_right (state a c x n)
    (((a - 1) * state a c x n + c) * powerSum a k))
  rw [Nat.add_sub_cancel_left, (coprime_factor ha hc _).dvd_mul_left, dvd_powerSum ha] at hmod
  rw [state_add (by omega), ← hmod]
  exact eq_comm

theorem state_injOn (ha : a % 4 = 1) (hc : c % 2 = 1) :
    Set.InjOn (fun i => state a c x (n + i) % 2 ^ w) (Finset.range (2 ^ w)) := by
  have hle : ∀ i j, j < 2 ^ w → i ≤ j →
      state a c x (n + i) % 2 ^ w = state a c x (n + j) % 2 ^ w → i = j := by
    intro i j hj hij heq
    obtain ⟨k, rfl⟩ := Nat.exists_eq_add_of_le hij
    rw [← Nat.add_assoc] at heq
    have hk := (state_mod_iff ha hc).mp heq.symm
    have := Nat.eq_zero_of_dvd_of_lt hk (by omega)
    omega
  intro i hi j hj heq
  have hi := Finset.mem_range.mp hi
  have hj := Finset.mem_range.mp hj
  rcases Nat.le_total i j with hij | hij
  · exact hle i j hj hij heq
  · exact (hle j i hi hij heq.symm).symm

/-- In `2 ^ w` steps the sequence has a property as often as the numbers below `2 ^ w` have
it. -/
theorem count_state (ha : a % 4 = 1) (hc : c % 2 = 1) (P : ℕ → Prop) [DecidablePred P] :
    ((Finset.range (2 ^ w)).filter fun i => P (state a c x (n + i) % 2 ^ w)).card =
      ((Finset.range (2 ^ w)).filter P).card := by
  have hinj := state_injOn (x := x) (n := n) (w := w) ha hc
  have himage : (Finset.range (2 ^ w)).image (fun i => state a c x (n + i) % 2 ^ w) =
      Finset.range (2 ^ w) := by
    apply Finset.eq_of_subset_of_card_le
    · intro y hy
      obtain ⟨i, -, rfl⟩ := Finset.mem_image.mp hy
      exact Finset.mem_range.mpr (Nat.mod_lt _ (Nat.two_pow_pos w))
    · rw [Finset.card_image_of_injOn hinj]
  have hcard := Finset.card_image_of_injOn (hinj.mono (fun i hi => (Finset.mem_filter.mp hi).1 :
    ↑((Finset.range (2 ^ w)).filter fun i => P (state a c x (n + i) % 2 ^ w)) ⊆ _))
  rw [← hcard, ← Finset.filter_image, himage]

end Sequences
end KmallocKfree.Congruential
