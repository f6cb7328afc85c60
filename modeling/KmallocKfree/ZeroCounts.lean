import KmallocKfree.BitCounts
import KmallocKfree.BitFields
import KmallocKfree.UnsignedDivision

/-!
# The counts of zeros

`__clzsi2` and `__ctzsi2` halve the part of the word that they look at four times, with no
branch, and count the last two bits; `__clzdi2` and `__ctzdi2` choose the word to look at.
They agree with the counts of the zeros of any number, zero itself among them, although
they only promise this for the others.
-/
namespace KmallocKfree.Int64

section Stages

variable {j k : ℕ}

/-- `(x == 0) << j`. -/
theorem isZero_shl (y : BitVec 32) (hj : 2 ^ j = k) (hk : k ≤ 16) :
    (isZero y <<< j).toNat = if y = 0 then k else 0 := by
  unfold isZero
  split_ifs
  · rw [BitVec.toNat_shiftLeft, Nat.shiftLeft_eq, hj]
    simp
    omega
  · simp

/-- Half of the leading part has only zeros, or the count goes on in it. -/
theorem clz_stage (x mask size : BitVec 32) (hj : 2 ^ j = k) (hk : k ≤ 16) (hsize : size.toNat = k)
    (hmask : mask.toNat = (2 ^ k - 1) * 2 ^ k) (hx : x.toNat < 2 ^ (k + k)) :
    leadingZeros (k + k) x.toNat = (isZero (x &&& mask) <<< j).toNat +
      leadingZeros k (x >>> (size - isZero (x &&& mask) <<< j)).toNat ∧
    (x >>> (size - isZero (x &&& mask) <<< j)).toNat < 2 ^ k ∧
    (isZero (x &&& mask) <<< j).toNat ≤ k := by
  have ht := isZero_shl (x &&& mask) hj hk
  have hupper : x.toNat / 2 ^ k < 2 ^ k := by
    rwa [Nat.div_lt_iff_lt_mul (by positivity), ← pow_add]
  have hand : x &&& mask = 0 ↔ x.toNat / 2 ^ k = 0 := by
    rw [← BitVec.toNat_inj, BitVec.toNat_and, hmask, and_field, Nat.mod_eq_of_lt hupper]
    simp
  have hsub : (size - isZero (x &&& mask) <<< j).toNat = if x &&& mask = 0 then 0 else k := by
    rw [BitVec.toNat_sub, ht, hsize]
    split_ifs <;> omega
  rw [leadingZeros_add, Nat.mod_eq_of_lt hupper, BitVec.ushiftRight_eq', hsub, ht,
    BitVec.toNat_ushiftRight, Nat.shiftRight_eq_div_pow]
  by_cases h : x &&& mask = 0
  · have hzero := hand.mp h
    rw [if_pos h, if_pos hzero, if_pos h, pow_zero, Nat.div_one]
    refine ⟨rfl, ?_, le_rfl⟩
    exact (Nat.div_eq_zero_iff_lt (by positivity)).mp hzero
  · have hne : x.toNat / 2 ^ k ≠ 0 := fun h' => h (hand.mpr h')
    rw [if_neg h, if_neg hne, if_neg h]
    exact ⟨by omega, hupper, by omega⟩

/-- Half of the trailing part has only zeros, or the count goes on in it. -/
theorem ctz_stage (x mask : BitVec 32) (hj : 2 ^ j = k) (hk : k ≤ 16)
    (hmask : mask.toNat = 2 ^ k - 1) :
    trailingZeros (k + k) x.toNat = (isZero (x &&& mask) <<< j).toNat +
      trailingZeros k (x >>> (isZero (x &&& mask) <<< j)).toNat ∧
    (isZero (x &&& mask) <<< j).toNat ≤ k := by
  have ht := isZero_shl (x &&& mask) hj hk
  have hand : x &&& mask = 0 ↔ x.toNat % 2 ^ k = 0 := by
    rw [← BitVec.toNat_inj, BitVec.toNat_and, hmask, Nat.and_two_pow_sub_one_eq_mod]
    simp
  rw [trailingZeros_add, BitVec.ushiftRight_eq', ht, BitVec.toNat_ushiftRight,
    Nat.shiftRight_eq_div_pow]
  by_cases h : x &&& mask = 0
  · rw [if_pos h, if_pos (hand.mp h)]
    exact ⟨rfl, le_rfl⟩
  · rw [if_neg h, if_neg (fun h' => h (hand.mpr h')), pow_zero, Nat.div_one, Nat.zero_add]
    exact ⟨rfl, by omega⟩

/-- `(2 - x) & -((x & 2) == 0)`, for two bits. -/
theorem clz_last {x : BitVec 32} (hx : x.toNat < 4) :
    ((2 - x) &&& -isZero (x &&& 2)).toNat = leadingZeros 2 x.toNat := by
  have hall : ∀ n < 4, ((2 - BitVec.ofNat 32 n) &&& -isZero (BitVec.ofNat 32 n &&& 2)).toNat =
      leadingZeros 2 n := by decide
  have := hall x.toNat hx
  rwa [BitVec.ofNat_toNat, BitVec.setWidth_eq] at this

/-- `(2 - (x >> 1)) & -((x & 1) == 0)`, for the last two bits. -/
theorem ctz_last (x : BitVec 32) :
    ((2 - (x &&& 3) >>> 1) &&& -isZero ((x &&& 3) &&& 1)).toNat = trailingZeros 2 x.toNat := by
  have hall : ∀ n < 4, ((2 - (BitVec.ofNat 32 n) >>> 1) &&&
      -isZero (BitVec.ofNat 32 n &&& 1)).toNat = trailingZeros 2 n := by decide
  have hmod : (x &&& 3).toNat = x.toNat % 4 := by
    rw [BitVec.toNat_and]
    exact Nat.and_two_pow_sub_one_eq_mod x.toNat 2
  have hlast : trailingZeros 2 (x.toNat % 4) = trailingZeros 2 x.toNat := by
    simp only [trailingZeros, Nat.testBit_zero]
    have h2 : x.toNat % 4 / 2 % 2 = x.toNat / 2 % 2 := by omega
    rw [h2, Nat.mod_mod_of_dvd _ (by decide)]
  have := hall (x &&& 3).toNat (by omega)
  rw [BitVec.ofNat_toNat, BitVec.setWidth_eq] at this
  rw [this, hmod, hlast]

end Stages

theorem toNat_clzsi2 (a : BitVec 32) : (clzsi2 a).toNat = leadingZeros 32 a.toNat := by
  unfold clzsi2
  dsimp only
  obtain ⟨h16, hx16, ht16⟩ := clz_stage a 0xFFFF0000 16
    (j := 4) (k := 16) rfl le_rfl rfl rfl a.isLt
  generalize isZero (a &&& 0xFFFF0000) <<< 4 = t at *
  generalize a >>> (16 - t) = x at *
  obtain ⟨h8, hx8, ht8⟩ := clz_stage x 0xFF00 8
    (j := 3) (k := 8) rfl (by omega) rfl rfl hx16
  generalize isZero (x &&& 0xFF00) <<< 3 = u at *
  generalize x >>> (8 - u) = y at *
  obtain ⟨h4, hx4, ht4⟩ := clz_stage y 0xF0 4
    (j := 2) (k := 4) rfl (by omega) rfl rfl hx8
  generalize isZero (y &&& 0xF0) <<< 2 = v at *
  generalize y >>> (4 - v) = z at *
  obtain ⟨h2, hx2, ht2⟩ := clz_stage z 0xC 2
    (j := 1) (k := 2) rfl (by omega) rfl rfl hx4
  generalize isZero (z &&& 0xC) <<< 1 = w at *
  generalize z >>> (2 - w) = l at *
  have hlast := clz_last hx2
  have hle := leadingZeros_le 2 l.toNat
  simp only [Nat.reduceAdd] at h16 h8 h4 h2
  simp only [BitVec.toNat_add, hlast]
  omega

theorem toNat_ctzsi2 (a : BitVec 32) : (ctzsi2 a).toNat = trailingZeros 32 a.toNat := by
  unfold ctzsi2
  dsimp only
  obtain ⟨h16, ht16⟩ := ctz_stage a 0x0000FFFF (j := 4) (k := 16) rfl le_rfl rfl
  generalize isZero (a &&& 0x0000FFFF) <<< 4 = t at *
  generalize a >>> t = x at *
  obtain ⟨h8, ht8⟩ := ctz_stage x 0x00FF (j := 3) (k := 8) rfl (by omega) rfl
  generalize isZero (x &&& 0x00FF) <<< 3 = u at *
  generalize x >>> u = y at *
  obtain ⟨h4, ht4⟩ := ctz_stage y 0x0F (j := 2) (k := 4) rfl (by omega) rfl
  generalize isZero (y &&& 0x0F) <<< 2 = v at *
  generalize y >>> v = z at *
  obtain ⟨h2, ht2⟩ := ctz_stage z 0x3 (j := 1) (k := 2) rfl (by omega) rfl
  generalize isZero (z &&& 0x3) <<< 1 = w at *
  generalize z >>> w = l at *
  have hlast := ctz_last l
  have hle := trailingZeros_le 2 l.toNat
  simp only [Nat.reduceAdd] at h16 h8 h4 h2
  simp only [BitVec.toNat_add, hlast]
  omega

section Words

theorem mask_of_zero (x y : BitVec 32) {z : BitVec 32} (h : z = 0) :
    ((x &&& ~~~(-isZero z)) ||| (y &&& -isZero z)) = y ∧ -isZero z &&& 32 = 32 := by
  subst h
  have hmask : -isZero 0 = BitVec.allOnes 32 := by decide
  rw [hmask, BitVec.not_allOnes, BitVec.and_zero, BitVec.and_allOnes, BitVec.zero_or]
  exact ⟨rfl, by decide⟩

theorem mask_of_ne_zero (x y : BitVec 32) {z : BitVec 32} (h : z ≠ 0) :
    ((x &&& ~~~(-isZero z)) ||| (y &&& -isZero z)) = x ∧ -isZero z &&& 32 = 0 := by
  have hmask : -isZero z = 0#32 := by
    rw [isZero, if_neg h]
    rfl
  rw [hmask, BitVec.not_zero, BitVec.and_allOnes, BitVec.and_zero, BitVec.or_zero]
  exact ⟨rfl, by decide⟩

theorem toNat_clzdi2 (a : BitVec 64) : (clzdi2 a).toNat = leadingZeros 64 a.toNat := by
  obtain ⟨n, rfl⟩ : ∃ n : Dwords, a = n.all := ⟨.ofAll a, (Dwords.all_ofAll a).symm⟩
  have hall := n.all_toNat
  have hlow := n.low.isLt
  have hhigh := n.high.isLt
  have hdiv : n.all.toNat / 2 ^ 32 = n.high.toNat := by omega
  have hsplit := leadingZeros_add 32 32 n.all.toNat
  rw [hdiv, Nat.mod_eq_of_lt hhigh] at hsplit
  simp only [Nat.reduceAdd] at hsplit
  unfold clzdi2
  simp only [Dwords.ofAll_all]
  by_cases h : n.high = 0
  · have hall' : n.all.toNat = n.low.toNat := by
      rw [hall, h]
      simp
    have hle := leadingZeros_le 32 n.low.toNat
    rw [if_pos (by rw [h]; rfl), hall'] at hsplit
    obtain ⟨hword, hbits⟩ := mask_of_zero n.high n.low h
    rw [hword, hbits, BitVec.toNat_add, toNat_clzsi2, hall', hsplit]
    simp
    omega
  · have hne : n.high.toNat ≠ 0 := fun h' => h (BitVec.eq_of_toNat_eq h')
    rw [if_neg hne] at hsplit
    obtain ⟨hword, hbits⟩ := mask_of_ne_zero n.high n.low h
    rw [hword, hbits, BitVec.toNat_add, toNat_clzsi2]
    have hle := leadingZeros_le 32 n.high.toNat
    simp
    omega

theorem toNat_ctzdi2 (a : BitVec 64) : (ctzdi2 a).toNat = trailingZeros 64 a.toNat := by
  obtain ⟨n, rfl⟩ : ∃ n : Dwords, a = n.all := ⟨.ofAll a, (Dwords.all_ofAll a).symm⟩
  have hall := n.all_toNat
  have hlow := n.low.isLt
  have hdiv : n.all.toNat / 2 ^ 32 = n.high.toNat := by omega
  have hmod : n.all.toNat % 2 ^ 32 = n.low.toNat := by omega
  have hsplit := trailingZeros_add 32 32 n.all.toNat
  rw [hdiv, hmod] at hsplit
  simp only [Nat.reduceAdd] at hsplit
  unfold ctzdi2
  simp only [Dwords.ofAll_all]
  rw [BitVec.or_comm]
  by_cases h : n.low = 0
  · have hle := trailingZeros_le 32 n.high.toNat
    rw [if_pos (by rw [h]; rfl)] at hsplit
    obtain ⟨hword, hbits⟩ := mask_of_zero n.low n.high h
    rw [hword, hbits, BitVec.toNat_add, toNat_ctzsi2, hsplit]
    simp
    omega
  · have hne : n.low.toNat ≠ 0 := fun h' => h (BitVec.eq_of_toNat_eq h')
    rw [if_neg hne] at hsplit
    obtain ⟨hword, hbits⟩ := mask_of_ne_zero n.low n.high h
    rw [hword, hbits, BitVec.toNat_add, toNat_ctzsi2, ← hmod, trailingZeros_mod]
    have hle := trailingZeros_le 32 n.all.toNat
    simp
    omega

end Words

/-- The routines count the zeros in front of and behind any number of their width. -/
theorem zero_counts (a : BitVec 32) (b : BitVec 64) :
    clzsi2 a = a.clz ∧ ctzsi2 a = a.ctz ∧
      clzdi2 b = b.clz.setWidth 32 ∧ ctzdi2 b = b.ctz.setWidth 32 := by
  have hclz := leadingZeros_le 64 b.toNat
  have hctz := trailingZeros_le 64 b.toNat
  refine ⟨?_, ?_, ?_, ?_⟩
  · exact BitVec.eq_of_toNat_eq (by rw [toNat_clzsi2, toNat_clz])
  · exact BitVec.eq_of_toNat_eq (by rw [toNat_ctzsi2, toNat_ctz])
  · refine BitVec.eq_of_toNat_eq ?_
    rw [toNat_clzdi2, BitVec.toNat_setWidth, toNat_clz, Nat.mod_eq_of_lt (by omega)]
  · refine BitVec.eq_of_toNat_eq ?_
    rw [toNat_ctzdi2, BitVec.toNat_setWidth, toNat_ctz, Nat.mod_eq_of_lt (by omega)]

end KmallocKfree.Int64
