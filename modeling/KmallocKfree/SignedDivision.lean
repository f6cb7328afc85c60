import KmallocKfree.UnsignedDivision

/-!
# Signed division

`__divdi3`, `__moddi3` and `__divmoddi4` divide absolute values and put the sign back, all
with the sign spread over a word and no branch. The absolute value of the least number
is that number again, which the unsigned division reads right.
-/
namespace KmallocKfree.Int64

variable {a b : BitVec 64}

theorem sign_eq (a : BitVec 64) : a.sshiftRight 63 = if a.msb then BitVec.allOnes 64 else 0 := by
  rw [sshiftRight_sign, BitVec.msb_eq_decide]
  simp

theorem negateIf_allOnes (a : BitVec 64) : negateIf (BitVec.allOnes 64) a = -a := by
  unfold negateIf
  rw [BitVec.xor_allOnes, BitVec.neg_eq_not_add]
  exact BitVec.eq_of_toNat_eq (by
    rw [BitVec.toNat_sub, BitVec.toNat_add]
    simp
    omega)

theorem negateIf_zero (a : BitVec 64) : negateIf 0 a = a := by
  simp [negateIf]

/-- The absolute value. -/
theorem negateIf_sign (a : BitVec 64) : negateIf (a.sshiftRight 63) a = a.abs := by
  rw [sign_eq, BitVec.abs]
  cases a.msb
  · exact negateIf_zero a
  · exact negateIf_allOnes a

theorem abs_ne_zero (h : b ≠ 0) : b.abs ≠ 0 := by
  rw [BitVec.abs]
  split_ifs
  · exact fun hz => h (by simpa using hz)
  · exact h

theorem sdiv_eq_ofInt (a b : BitVec 64) : a.sdiv b = BitVec.ofInt 64 (a.toInt.tdiv b.toInt) :=
  BitVec.eq_of_toInt_eq (by rw [BitVec.toInt_sdiv, BitVec.toInt_ofInt])

theorem srem_eq_ofInt (a b : BitVec 64) : a.srem b = BitVec.ofInt 64 (a.toInt.tmod b.toInt) := by
  rw [← BitVec.toInt_srem, BitVec.ofInt_toInt]

/-- What `__divmoddi4` stores is the remainder, also where the quotient wraps. -/
theorem sub_sdiv_mul (a b : BitVec 64) : a - a.sdiv b * b = a.srem b := by
  rw [srem_eq_ofInt, sdiv_eq_ofInt, Int.tmod_def, Int.mul_comm b.toInt, Int.sub_eq_add_neg,
    BitVec.ofInt_add, BitVec.ofInt_neg, BitVec.ofInt_mul, BitVec.ofInt_toInt, BitVec.ofInt_toInt,
    BitVec.sub_eq_add_neg]

theorem divdi3_zero (a : BitVec 64) : divdi3 a 0 = .error .divisionByZero := by
  simp only [divdi3, udivmoddi4_eq]
  rfl

theorem moddi3_zero (a r : BitVec 64) : moddi3 a 0 r = .error .divisionByZero := by
  simp only [moddi3, udivmoddi4_eq]
  rfl

/-- The sign of the quotient is that of one operand unless the other one is negative. -/
theorem divdi3_of_ne (h : b ≠ 0) : divdi3 a b = .ok (a.sdiv b) := by
  unfold divdi3
  simp only [negateIf_sign]
  rw [udivmoddi4_of_ne (abs_ne_zero h)]
  refine congrArg Except.ok ?_
  simp only [answer, sign_eq, BitVec.sdiv_eq, BitVec.abs]
  cases a.msb <;> cases b.msb
  · exact negateIf_zero _
  · exact negateIf_allOnes _
  · exact negateIf_allOnes _
  · exact negateIf_zero _

/-- The sign of the remainder is that of the dividend. -/
theorem moddi3_of_ne (h : b ≠ 0) (r : BitVec 64) : moddi3 a b r = .ok (a.srem b) := by
  unfold moddi3
  simp only [negateIf_sign]
  rw [udivmoddi4_of_ne (abs_ne_zero h)]
  refine congrArg Except.ok ?_
  simp only [answer, sign_eq, BitVec.srem_eq, BitVec.abs]
  cases a.msb <;> cases b.msb
  · exact negateIf_zero _
  · exact negateIf_zero _
  · exact negateIf_allOnes _
  · exact negateIf_allOnes _

/-- The signed routines compute the quotient that is rounded towards zero and its remainder,
with the sign of the dividend, for any two numbers: a quotient out of range wraps. Dividing
by zero is the only way to undefined behaviour. -/
theorem signed_division (a b r : BitVec 64) :
    divdi3 a b = (if b = 0 then .error .divisionByZero
      else .ok (BitVec.ofInt 64 (a.toInt.tdiv b.toInt))) ∧
    moddi3 a b r = (if b = 0 then .error .divisionByZero
      else .ok (BitVec.ofInt 64 (a.toInt.tmod b.toInt))) ∧
    divmoddi4 a b = if b = 0 then .error .divisionByZero
      else .ok (BitVec.ofInt 64 (a.toInt.tdiv b.toInt),
        BitVec.ofInt 64 (a.toInt.tmod b.toInt)) := by
  unfold divmoddi4
  by_cases h : b = 0
  · subst h
    rw [divdi3_zero, moddi3_zero]
    exact ⟨rfl, rfl, rfl⟩
  · rw [divdi3_of_ne h, moddi3_of_ne h, if_neg h, if_neg h, if_neg h, ← sdiv_eq_ofInt,
      ← srem_eq_ofInt, ← sub_sdiv_mul]
    exact ⟨rfl, rfl, rfl⟩

end KmallocKfree.Int64
