import Mathlib.Data.Nat.Digits.Defs
import Mathlib.Tactic.Ring
import Mathlib.Tactic.SplitIfs

/-!
# Numerals by repeated division

The digits of a number in base `b` as a program finds them: it divides the number by `b`
until it is 0 to count the digits, and then divides by falling powers of `b`, which gives
the most significant digit first. The digits are those of `Nat.toDigits`.
-/
namespace KmallocKfree

/-- Divide by `b` until the number is 0, at most `fuel` times, and count on from `cnt`. -/
def countDigits (b : ℕ) : ℕ → ℕ → ℕ → ℕ
  | 0, _, cnt => cnt
  | fuel + 1, v, cnt => if v = 0 then cnt else countDigits b fuel (v / b) (cnt + 1)

/-- `k` digits of `v`, the most significant first. -/
def leadingDigits (b : ℕ) : ℕ → ℕ → List ℕ
  | 0, _ => []
  | k + 1, v => v / b ^ k :: leadingDigits b k (v % b ^ k)

variable {b fuel v cnt k : ℕ}

theorem countDigits_zero : countDigits b fuel 0 cnt = cnt := by
  cases fuel <;> simp [countDigits]

theorem countDigits_eq (hb : 1 < b) (hpos : v ≠ 0) (hfuel : v < b ^ fuel) :
    countDigits b fuel v cnt = cnt + (Nat.toDigits b v).length := by
  induction fuel generalizing v cnt with
  | zero => simp at hfuel; omega
  | succ fuel ih =>
    rw [countDigits, if_neg hpos]
    by_cases hlt : v < b
    · rw [Nat.div_eq_of_lt hlt, countDigits_zero, Nat.toDigits_of_lt_base hlt]
      rfl
    · have hquot : v / b ≠ 0 := by
        have := Nat.div_pos (not_lt.mp hlt) (by omega)
        omega
      have hsmall : v / b < b ^ fuel := by
        apply Nat.div_lt_of_lt_mul
        rwa [← Nat.pow_succ']
      rw [ih hquot hsmall, Nat.toDigits_of_base_le hb (not_lt.mp hlt), List.length_append]
      simp only [List.length_singleton]
      omega

theorem base_pos (hv : v < b ^ (k + 1)) : 0 < b := by
  apply Nat.pos_of_ne_zero
  rintro rfl
  rw [Nat.zero_pow (Nat.succ_pos k)] at hv
  exact Nat.not_lt_zero _ hv

/-- The last digit is the remainder, the others are the digits of the quotient. -/
theorem leadingDigits_succ (hv : v < b ^ (k + 1)) :
    leadingDigits b (k + 1) v = leadingDigits b k (v / b) ++ [v % b] := by
  induction k generalizing v with
  | zero =>
    have hlt : v < b := by simpa using hv
    simp [leadingDigits, Nat.mod_eq_of_lt hlt]
  | succ k ih =>
    have hmod : v % b ^ (k + 1) < b ^ (k + 1) := Nat.mod_lt _ (Nat.pow_pos (base_pos hv))
    have hhead : v / b ^ (k + 1) = v / b / b ^ k := by
      rw [Nat.div_div_eq_div_mul, Nat.pow_succ']
    have htail : v % b ^ (k + 1) / b = v / b % b ^ k := by
      rw [Nat.pow_succ', Nat.mod_mul_right_div_self]
    have hlast : v % b ^ (k + 1) % b = v % b := Nat.mod_mod_of_dvd _ (Dvd.intro_left _ rfl)
    rw [leadingDigits, ih hmod, hhead, htail, hlast]
    rfl

theorem lt_pow_length (hb : 1 < b) (v : ℕ) : v < b ^ (Nat.toDigits b v).length :=
  (Nat.length_toDigits_le_iff hb Nat.length_toDigits_pos).mp le_rfl

/-- As many digits as the number has are its numeral. -/
theorem map_leadingDigits (hb : 1 < b) (v : ℕ) :
    (leadingDigits b (Nat.toDigits b v).length v).map Nat.digitChar = Nat.toDigits b v := by
  induction v using Nat.strong_induction_on with
  | _ v ih =>
    by_cases hlt : v < b
    · rw [Nat.toDigits_of_lt_base hlt]
      simp [leadingDigits]
    · have hbound : v < b ^ ((Nat.toDigits b (v / b)).length + 1) := by
        have hquot : v / b < b ^ (Nat.toDigits b (v / b)).length :=
          (Nat.length_toDigits_le_iff hb Nat.length_toDigits_pos).mp le_rfl
        rw [Nat.pow_succ]
        exact (Nat.div_lt_iff_lt_mul (by omega)).mp hquot
      have hsmaller : v / b < v := Nat.div_lt_self (by omega) hb
      rw [Nat.toDigits_of_base_le hb (not_lt.mp hlt), List.length_append,
        List.length_singleton, leadingDigits_succ hbound, List.map_append, ih _ hsmaller]
      rfl

/-- A numeral has no more digits than the number needs. -/
theorem pow_length_le (hb : 1 < b) (hv : v ≠ 0) : b ^ ((Nat.toDigits b v).length - 1) ≤ v := by
  by_cases hone : (Nat.toDigits b v).length - 1 = 0
  · rw [hone, Nat.pow_zero]
    omega
  · by_contra hlt
    have hle := (Nat.length_toDigits_le_iff hb (by omega)).mpr (not_le.mp hlt)
    omega

theorem lt_of_mem_leadingDigits (hv : v < b ^ k) {d : ℕ} (hd : d ∈ leadingDigits b k v) :
    d < b := by
  induction k generalizing v with
  | zero => exact absurd hd List.not_mem_nil
  | succ k ih =>
    obtain rfl | hd := List.mem_cons.mp hd
    · apply Nat.div_lt_of_lt_mul
      rwa [← Nat.pow_succ]
    · exact ih (Nat.mod_lt _ (Nat.pow_pos (base_pos hv))) hd

/-- The digits of a numeral are digits of the base. -/
theorem mem_toDigits (hb : 1 < b) {c : Char} (hc : c ∈ Nat.toDigits b v) :
    ∃ d < b, c = d.digitChar := by
  rw [← map_leadingDigits hb] at hc
  obtain ⟨d, hd, rfl⟩ := List.mem_map.mp hc
  exact ⟨d, lt_of_mem_leadingDigits (lt_pow_length hb v) hd, rfl⟩

/-- The digits read back, from the most significant on. -/
theorem foldl_leadingDigits (hv : v < b ^ k) (a : ℕ) :
    (leadingDigits b k v).foldl (fun n d => b * n + d) a = a * b ^ k + v := by
  induction k generalizing v a with
  | zero =>
    have hzero : v = 0 := by simpa using hv
    simp [leadingDigits, hzero]
  | succ k ih =>
    have hsplit := Nat.div_add_mod v (b ^ k)
    rw [leadingDigits, List.foldl_cons, ih (Nat.mod_lt _ (Nat.pow_pos (base_pos hv)))]
    calc (b * a + v / b ^ k) * b ^ k + v % b ^ k
        = a * (b ^ k * b) + (b ^ k * (v / b ^ k) + v % b ^ k) := by ring
      _ = a * b ^ (k + 1) + v := by rw [hsplit, Nat.pow_succ]

/-- There is no leading zero. -/
theorem head_leadingDigits (hb : 1 < b) (hv : v ≠ 0) :
    (leadingDigits b (Nat.toDigits b v).length v).head? ≠ some 0 := by
  have hle := pow_length_le hb hv
  obtain ⟨k, hk⟩ : ∃ k, (Nat.toDigits b v).length = k + 1 :=
    ⟨_, (Nat.succ_pred_eq_of_pos Nat.length_toDigits_pos).symm⟩
  rw [hk, Nat.add_sub_cancel] at hle
  rw [hk, leadingDigits, List.head?_cons]
  intro hzero
  have hquot : 0 < v / b ^ k := Nat.div_pos hle (Nat.pow_pos (by omega))
  have heq := Option.some.inj hzero
  omega

end KmallocKfree
