import KmallocKfree.Int64
import KmallocKfree.RestoringDivision
import Mathlib.Data.Nat.Basic

/-!
# The loop of the long division

Two words are one number, a round shifts the pair of registers by one bit, and the loop
carries `Dividing` to its end. The comparison in a round reads the sign of a difference:
it is right because the divisor is at most half of the range, or the loop has one round
and the dividend is in the upper half as well.
-/
namespace KmallocKfree.Int64

section Words

theorem Dwords.all_toNat (x : Dwords) :
    x.all.toNat = x.high.toNat * 4294967296 + x.low.toNat := by
  have hlow := x.low.isLt
  have happ := BitVec.toNat_append x.high x.low
  rw [← Nat.shiftLeft_add_eq_or_of_lt hlow, Nat.shiftLeft_eq] at happ
  exact happ

@[simp] theorem Dwords.all_ofAll (a : BitVec 64) : (Dwords.ofAll a).all = a := by
  refine BitVec.eq_of_toNat_eq ?_
  simp only [Dwords.all_toNat, Dwords.ofAll, BitVec.toNat_setWidth, BitVec.toNat_ushiftRight,
    Nat.shiftRight_eq_div_pow]
  have := a.isLt
  omega

/-- A word shifted up, with the high bits of another that fit below it. -/
theorem toNat_shl_or {x y : BitVec 32} {s : ℕ} (hs : s ≤ 32) (hy : y.toNat < 2 ^ s) :
    (x <<< s ||| y).toNat = x.toNat * 2 ^ s % 4294967296 + y.toNat := by
  have hmod : x.toNat * 2 ^ s % 4294967296 = 2 ^ s * (x.toNat % 2 ^ (32 - s)) := by
    have hpow : 4294967296 = 2 ^ s * 2 ^ (32 - s) := by
      rw [← pow_add, Nat.add_sub_cancel' hs]
      rfl
    rw [hpow, Nat.mul_comm, Nat.mul_mod_mul_left]
  rw [BitVec.toNat_or, BitVec.toNat_shiftLeft, Nat.shiftLeft_eq, hmod,
    ← Nat.two_pow_add_eq_or_of_lt hy]

theorem toNat_shl_one_or (x y : BitVec 32) :
    (x <<< 1 ||| y >>> 31).toNat = 2 * x.toNat % 4294967296 + y.toNat / 2147483648 := by
  have hy := y.isLt
  have htop : (y >>> 31).toNat = y.toNat / 2147483648 := by
    rw [BitVec.toNat_ushiftRight, Nat.shiftRight_eq_div_pow]
  rw [toNat_shl_or (by omega) (by omega), htop, Nat.mul_comm, pow_one]

/-- The sign of a number, in all bits. -/
theorem sshiftRight_sign (x : BitVec 64) :
    x.sshiftRight 63 = if 9223372036854775808 ≤ x.toNat then BitVec.allOnes 64 else 0 := by
  have hlt := x.isLt
  refine BitVec.eq_of_toNat_eq ?_
  rw [BitVec.toNat_sshiftRight, BitVec.msb_eq_decide, Nat.shiftRight_eq_div_pow]
  split_ifs with h h' h' <;> simp at * <;> omega

end Words

section Loop

variable {d : Dwords} {x : Registers} {n k : ℕ}

/-- The registers of the loop hold a division in progress. -/
def Registers.Holds (x : Registers) (n k : ℕ) (d : Dwords) : Prop :=
  Dividing 64 n d.all.toNat k x.q.all.toNat x.r.all.toNat x.carry.toNat

/-- The difference of divisor and remainder has the sign of the comparison. -/
def Comparable (n k : ℕ) (d : Dwords) : Prop :=
  d.all.toNat ≤ 9223372036854775808 ∨ k ≤ 1 ∧ 9223372036854775808 ≤ n

theorem divRound_r_shifted (x : Registers) (h : 2 * x.r.all.toNat < 18446744073709551616) :
    (Dwords.all ⟨(x.r.low <<< 1) ||| (x.q.high >>> 31),
      (x.r.high <<< 1) ||| (x.r.low >>> 31)⟩).toNat =
      2 * x.r.all.toNat + x.q.all.toNat / 2 ^ 63 := by
  have := x.r.low.isLt
  have := x.r.high.isLt
  have := x.q.low.isLt
  have := x.q.high.isLt
  simp only [Dwords.all_toNat, toNat_shl_one_or] at *
  omega

theorem divRound_q (d : Dwords) (hc : x.carry.toNat < 2) :
    (divRound d x).q.all.toNat = x.q.all.toNat % 2 ^ 63 * 2 + x.carry.toNat := by
  have := x.q.low.isLt
  have := x.q.high.isLt
  simp only [divRound, Dwords.all_toNat, toNat_shl_one_or]
  rw [toNat_shl_or (by omega) (by omega)]
  omega

/-- The divisor is taken off where it fits. -/
theorem divRound_r {y : ℕ} (hy : y = 2 * x.r.all.toNat + x.q.all.toNat / 2 ^ 63)
    (hlt : y < 18446744073709551616) (hsign : d.all.toNat ≤ y →
      y - d.all.toNat < 9223372036854775808)
    (hsign' : y < d.all.toNat → d.all.toNat - y ≤ 9223372036854775808) :
    (divRound d x).r.all.toNat = (if d.all.toNat ≤ y then y - d.all.toNat else y) ∧
      (divRound d x).carry.toNat = if d.all.toNat ≤ y then 1 else 0 := by
  have hr := divRound_r_shifted x (by omega)
  have hd := d.all.isLt
  rw [← hy] at hr
  simp only [divRound, Dwords.all_ofAll]
  generalize Dwords.all ⟨(x.r.low <<< 1) ||| (x.q.high >>> 31),
    (x.r.high <<< 1) ||| (x.r.low >>> 31)⟩ = r at hr ⊢
  have hdiff : (d.all - r - 1).toNat =
      (d.all.toNat + (18446744073709551616 - y) + 18446744073709551615) %
        18446744073709551616 := by
    simp only [BitVec.toNat_sub, hr]
    simp
    omega
  rw [sshiftRight_sign, hdiff]
  by_cases h : d.all.toNat ≤ y
  · rw [if_pos (by have := hsign h; omega), if_pos h, if_pos h, BitVec.and_allOnes]
    refine ⟨?_, by decide⟩
    rw [BitVec.toNat_sub, hr]
    omega
  · rw [if_neg (by have := hsign' (by omega); omega), if_neg h, if_neg h]
    exact ⟨by simpa using hr, by decide⟩

theorem divRound_holds (h : x.Holds n (k + 1) d) (hn : n < 18446744073709551616)
    (hk : k < 64) (hd : 0 < d.all.toNat) (hcmp : Comparable n (k + 1) d) :
    (divRound d x).Holds n k d := by
  have hn' : n < 2 ^ 64 := hn
  have hstep := h.step hn' hk hd
  have hnext := h.next_lt hn' hk hd
  have hcarry : x.carry.toNat < 2 := h.carry ▸ Nat.mod_lt _ (by omega)
  have hrange : 2 * x.r.all.toNat + x.q.all.toNat / 2 ^ (64 - 1) = n ∧
      9223372036854775808 ≤ n ∨ d.all.toNat ≤ 9223372036854775808 := by
    rcases hcmp with hcmp | ⟨hk1, hhalf⟩
    · exact .inr hcmp
    · by_cases hbig : d.all.toNat ≤ 9223372036854775808
      · exact .inr hbig
      · obtain rfl : k = 0 := by omega
        have htop := (h.top hn' hk).1
        have hrem := h.rem
        rw [Nat.mod_eq_of_lt (by omega)] at hrem
        exact .inl ⟨by omega, hhalf⟩
  have hlt := d.all.isLt
  obtain ⟨hr, hc⟩ := divRound_r (d := d) (x := x) rfl (by omega) (by omega) (by omega)
  unfold Registers.Holds
  rw [divRound_q d hcarry, hr, hc]
  exact hstep

/-- The loop ends with remainder and quotient of the dividend. -/
theorem divLoop_holds (hn : n < 18446744073709551616) (hd : 0 < d.all.toNat) :
    ∀ (k : ℕ) (x : Registers), k ≤ 64 → x.Holds n k d → Comparable n k d →
      (divLoop d k x).Holds n 0 d := by
  intro k
  induction k with
  | zero => intro x _ h _; exact h
  | succ k ih =>
    intro x hk h hcmp
    refine ih (divRound d x) (by omega) (divRound_holds h hn (by omega) hd hcmp) ?_
    rcases hcmp with hcmp | ⟨hk1, hhalf⟩
    · exact .inl hcmp
    · exact .inr ⟨by omega, hhalf⟩

/-- Quotient and remainder, as `__udivmoddi4` hands them over. -/
def answer (a b : BitVec 64) (rem : Bool) : BitVec 64 × Option (BitVec 64) :=
  (a / b, if rem then some (a % b) else none)

/-- The loop divides, from registers that hold the dividend shifted down and up. -/
theorem divRest_eq {a : BitVec 64} {q r : Dwords} {sr : BitVec 32} (rem : Bool)
    (hq : q.all = a <<< (64 - sr.toNat)) (hr : r.all = a >>> sr.toNat) (hsr : sr.toNat ≤ 64)
    (hlt : a.toNat / 2 ^ sr.toNat < d.all.toNat) (hcmp : Comparable a.toNat sr.toNat d) :
    divRest d q r sr rem = .ok (answer a d.all rem) := by
  have hd : 0 < d.all.toNat := Nat.zero_lt_of_lt hlt
  have hstart : Registers.Holds ⟨q, r, 0⟩ a.toNat sr.toNat d := by
    unfold Registers.Holds
    rw [hq, hr, BitVec.toNat_shiftLeft, BitVec.toNat_ushiftRight, Nat.shiftLeft_eq,
      Nat.shiftRight_eq_div_pow]
    exact Dividing.start hsr hlt
  have hend := divLoop_holds a.isLt hd _ _ hsr hstart hcmp
  obtain ⟨hrem, hquot⟩ := Dividing.done hend
  have hcarry : (divLoop d sr.toNat ⟨q, r, 0⟩).carry.toNat < 2 :=
    hend.carry ▸ Nat.mod_lt _ (by omega)
  unfold divRest answer
  generalize divLoop d sr.toNat ⟨q, r, 0⟩ = x at hrem hquot hcarry ⊢
  have hmod : x.r.all = a % d.all := BitVec.eq_of_toNat_eq (by rw [hrem, BitVec.toNat_umod])
  have hdiv : x.q.all <<< 1 ||| x.carry.setWidth 64 = a / d.all := by
    refine BitVec.eq_of_toNat_eq ?_
    have hq' : x.q.all.toNat * 2 < 18446744073709551616 := by
      have := Nat.div_le_self a.toNat d.all.toNat
      have := a.isLt
      omega
    have hc' : (x.carry.setWidth 64).toNat = x.carry.toNat := by
      rw [BitVec.toNat_setWidth]
      omega
    rw [BitVec.toNat_or, BitVec.toNat_shiftLeft, hc', Nat.shiftLeft_eq, pow_one,
      Nat.mod_eq_of_lt hq', Nat.mul_comm, BitVec.toNat_udiv, ← hquot]
    have hc : x.carry.toNat < 2 ^ 1 := hcarry
    exact (Nat.two_pow_add_eq_or_of_lt hc _).symm
  simp only [hmod, hdiv]
  cases rem <;> rfl

end Loop
end KmallocKfree.Int64
