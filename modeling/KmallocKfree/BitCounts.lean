import Mathlib.Data.Nat.Bitwise
import Mathlib.Tactic.Positivity
import Mathlib.Tactic.SplitIfs

/-!
# Counting zeros by halves

The zeros at either end of a number of `w` bits. A count over two parts is the count of
the outer part, and goes on in the inner one if the outer part has nothing but zeros.
-/
namespace KmallocKfree

/-- The zeros in front of a number of `w` bits. -/
def leadingZeros : ℕ → ℕ → ℕ
  | 0, _ => 0
  | w + 1, x => if x.testBit w then 0 else leadingZeros w x + 1

/-- The zeros behind a number of `w` bits. -/
def trailingZeros : ℕ → ℕ → ℕ
  | 0, _ => 0
  | w + 1, x => if x.testBit 0 then 0 else trailingZeros w (x / 2) + 1

theorem mod_two_pow_succ_eq_zero (x j : ℕ) :
    x % 2 ^ (j + 1) = 0 ↔ x.testBit j = false ∧ x % 2 ^ j = 0 := by
  have hbit : x.testBit j = decide (x / 2 ^ j % 2 = 1) := Nat.testBit_eq_decide_div_mod_eq
  rw [hbit, pow_succ, Nat.mod_mul]
  have : 0 < 2 ^ j := by positivity
  simp only [decide_eq_false_iff_not]
  constructor
  · intro h
    have hmod : x % 2 ^ j = 0 := by omega
    have hprod : 2 ^ j * (x / 2 ^ j % 2) = 0 := by omega
    rcases Nat.mul_eq_zero.mp hprod with h' | h' <;> omega
  · rintro ⟨hbit', hmod⟩
    have hzero : x / 2 ^ j % 2 = 0 := by omega
    rw [hzero, hmod, Nat.mul_zero]

theorem leadingZeros_add (j k x : ℕ) : leadingZeros (j + k) x =
    if x / 2 ^ k % 2 ^ j = 0 then j + leadingZeros k x else leadingZeros j (x / 2 ^ k) := by
  induction j with
  | zero => simp [Nat.mod_one]
  | succ j ih =>
    have hbit : x.testBit (j + k) = (x / 2 ^ k).testBit j := by
      rw [Nat.testBit_div_two_pow, Nat.add_comm]
    rw [Nat.add_right_comm, leadingZeros, leadingZeros, ih, hbit]
    simp only [mod_two_pow_succ_eq_zero]
    cases (x / 2 ^ k).testBit j
    · by_cases h : x / 2 ^ k % 2 ^ j = 0
      · simp [h]
        omega
      · simp [h]
    · simp

theorem mod_two_pow_succ_eq_zero' (x j : ℕ) :
    x % 2 ^ (j + 1) = 0 ↔ x.testBit 0 = false ∧ x / 2 % 2 ^ j = 0 := by
  rw [pow_succ', Nat.mod_mul]
  simp

theorem trailingZeros_add (j k x : ℕ) : trailingZeros (j + k) x =
    if x % 2 ^ j = 0 then j + trailingZeros k (x / 2 ^ j) else trailingZeros j x := by
  induction j generalizing x with
  | zero => simp [Nat.mod_one]
  | succ j ih =>
    rw [Nat.add_right_comm, trailingZeros, trailingZeros, ih, Nat.div_div_eq_div_mul,
      ← pow_succ']
    simp only [mod_two_pow_succ_eq_zero']
    cases x.testBit 0
    · by_cases h : x / 2 % 2 ^ j = 0
      · simp [h]
        omega
      · simp [h]
    · simp

theorem leadingZeros_le (w x : ℕ) : leadingZeros w x ≤ w := by
  induction w with
  | zero => exact le_rfl
  | succ w ih =>
    rw [leadingZeros]
    split_ifs <;> omega

theorem trailingZeros_le (w x : ℕ) : trailingZeros w x ≤ w := by
  induction w generalizing x with
  | zero => exact le_rfl
  | succ w ih =>
    have := ih (x / 2)
    rw [trailingZeros]
    split_ifs <;> omega

theorem trailingZeros_mod (w x : ℕ) : trailingZeros w (x % 2 ^ w) = trailingZeros w x := by
  induction w generalizing x with
  | zero => rfl
  | succ w ih =>
    have hbit : (x % 2 ^ (w + 1)).testBit 0 = x.testBit 0 := by
      rw [Nat.testBit_mod_two_pow]
      simp
    have hhalf : x % 2 ^ (w + 1) / 2 = x / 2 % 2 ^ w := by
      rw [pow_succ', Nat.mod_mul_right_div_self]
    rw [trailingZeros, trailingZeros, hbit, hhalf, ih]

/-- The bits that a count passes are zeros, and the bit that ends it is none. -/
theorem trailingZeros_spec (w x : ℕ) : (∀ i < trailingZeros w x, x.testBit i = false) ∧
    (trailingZeros w x < w → x.testBit (trailingZeros w x) = true) := by
  induction w generalizing x with
  | zero => exact ⟨fun i hi => absurd hi (Nat.not_lt_zero i), fun h => absurd h (lt_irrefl 0)⟩
  | succ w ih =>
    obtain ⟨hzero, hone⟩ := ih (x / 2)
    rw [trailingZeros]
    by_cases hbit : x.testBit 0 = true
    · rw [if_pos hbit]
      exact ⟨fun i hi => absurd hi (Nat.not_lt_zero i), fun _ => hbit⟩
    · rw [if_neg hbit]
      refine ⟨?_, fun h => ?_⟩
      · intro i hi
        cases i with
        | zero => simpa using hbit
        | succ i => rw [Nat.testBit_succ]; exact hzero i (by omega)
      · rw [Nat.testBit_succ]
        exact hone (by omega)

section BitVectors

variable {w : ℕ}

theorem clzAuxRec_eq (x : BitVec w) (n : ℕ) (h : n < w) :
    x.clzAuxRec n = BitVec.ofNat w (w - 1 - n + leadingZeros (n + 1) x.toNat) := by
  induction n with
  | zero =>
    rw [BitVec.clzAuxRec_zero, BitVec.getLsbD, leadingZeros, leadingZeros]
    split_ifs
    · rfl
    · congr 1
      omega
  | succ n ih =>
    rw [BitVec.clzAuxRec_succ, BitVec.getLsbD, leadingZeros, ih (by omega)]
    split_ifs
    · rfl
    · congr 1
      omega

theorem toNat_clz (x : BitVec w) : x.clz.toNat = leadingZeros w x.toNat := by
  cases w with
  | zero => simp [BitVec.of_length_zero, leadingZeros]
  | succ w =>
    have hle := leadingZeros_le (w + 1) x.toNat
    have hpow : w + 1 < 2 ^ (w + 1) := Nat.lt_two_pow_self
    rw [BitVec.clz, clzAuxRec_eq x _ (by omega), BitVec.toNat_ofNat, Nat.add_sub_cancel,
      Nat.sub_self, Nat.zero_add, Nat.mod_eq_of_lt (by omega)]

theorem toNat_ctz (x : BitVec w) : x.ctz.toNat = trailingZeros w x.toNat := by
  have hle := trailingZeros_le w x.toNat
  obtain ⟨hzero, hone⟩ := trailingZeros_spec w x.toNat
  by_cases hx : x = 0
  · subst hx
    have hnat : (0 : BitVec w).toNat = 0 := BitVec.toNat_zero
    rw [hnat] at hle hone ⊢
    have hctz : (0 : BitVec w).ctz = BitVec.ofNat w w := by
      rw [BitVec.ctz_eq_reverse_clz]
      exact BitVec.clz_eq_iff_eq_zero.mpr (BitVec.reverse_eq_zero_iff.mpr rfl)
    have hpow : w < 2 ^ w := Nat.lt_two_pow_self
    have hall : trailingZeros w 0 = w := by
      by_contra hne
      have hbit := hone (by omega)
      simp at hbit
    rw [hctz, BitVec.toNat_ofNat, Nat.mod_eq_of_lt hpow, hall]
  · have htrue : x.toNat.testBit x.ctz.toNat = true := BitVec.getLsbD_true_ctz_of_ne_zero hx
    have hlt : x.ctz.toNat < w := by
      have := BitVec.ctz_lt_iff_ne_zero.mpr hx
      rw [BitVec.lt_def] at this
      exact lt_of_lt_of_le this (by simp)
    rcases Nat.lt_trichotomy x.ctz.toNat (trailingZeros w x.toNat) with h | h | h
    · rw [hzero _ h] at htrue
      exact absurd htrue (by decide)
    · exact h
    · have hfalse := BitVec.getLsbD_false_of_lt_ctz h
      rw [BitVec.getLsbD, hone (by omega)] at hfalse
      exact absurd hfalse (by decide)

end BitVectors
end KmallocKfree
