import KmallocKfree.LongDivision

/-!
# Unsigned division

`__udivmoddi4` divides: every branch gives quotient and remainder, and only a zero divisor
leaves the behaviour undefined. No shift is by the width of a word, no bits of a zero are
counted, and the three ways to fill the registers of the loop are one shift.
-/
namespace KmallocKfree.Int64

variable {n d : Dwords}

theorem Dwords.ofAll_all (x : Dwords) : Dwords.ofAll x.all = x := by
  have hall := x.all_toNat
  have := x.low.isLt
  have := x.high.isLt
  obtain ⟨low, high⟩ := x
  simp only [Dwords.ofAll, Dwords.mk.injEq]
  constructor <;> refine BitVec.eq_of_toNat_eq ?_ <;>
    simp only [BitVec.toNat_setWidth, BitVec.toNat_ushiftRight, Nat.shiftRight_eq_div_pow] <;>
    dsimp only at * <;> omega

section Operations

variable {x y : BitVec 32} {α : Type}

theorem div_of_ne (h : y ≠ 0) : div x y = pure (x / y) := if_neg h

theorem mod_of_ne (h : y ≠ 0) : mod x y = pure (x % y) := if_neg h

theorem shl_of_lt (h : y < 32) : shl x y = pure (x <<< y.toNat) := if_pos h

theorem shr_of_lt (h : y < 32) : shr x y = pure (x >>> y.toNat) := if_pos h

theorem clz_of_ne (h : x ≠ 0) : clz x = pure x.clz := if_neg h

theorem ctz_of_ne (h : x ≠ 0) : ctz x = pure x.ctz := if_neg h

theorem store_pure (rem : Bool) (v : BitVec 64) :
    store rem (pure v) = pure (if rem then some v else none) := by
  cases rem <;> rfl

theorem map_pure' (f : α → BitVec 64) (v : α) :
    f <$> (pure v : Except Undefined α) = pure (f v) := rfl

end Operations

section Registers

variable {s : ℕ}

theorem shl_high (h : s ≤ 32) :
    Dwords.all ⟨0, n.low <<< (32 - s)⟩ = n.all <<< (64 - s) := by
  refine BitVec.eq_of_getLsbD_eq ?_
  intro i hi
  unfold Dwords.all
  simp only [BitVec.getLsbD_append, BitVec.getLsbD_shiftLeft]
  grind

theorem shr_words (h : 0 < s) (h' : s < 32) :
    Dwords.all ⟨(n.high <<< (32 - s)) ||| (n.low >>> s), n.high >>> s⟩ = n.all >>> s := by
  refine BitVec.eq_of_getLsbD_eq ?_
  intro i hi
  unfold Dwords.all
  simp only [BitVec.getLsbD_append, BitVec.getLsbD_or, BitVec.getLsbD_shiftLeft,
    BitVec.getLsbD_ushiftRight]
  grind

theorem shl_words (h : 32 < s) (h' : s < 64) :
    Dwords.all ⟨n.low <<< (64 - s), (n.high <<< (64 - s)) ||| (n.low >>> (s - 32))⟩ =
      n.all <<< (64 - s) := by
  refine BitVec.eq_of_getLsbD_eq ?_
  intro i hi
  unfold Dwords.all
  simp only [BitVec.getLsbD_append, BitVec.getLsbD_or, BitVec.getLsbD_shiftLeft,
    BitVec.getLsbD_ushiftRight]
  grind

theorem shr_low (h : 32 ≤ s) :
    Dwords.all ⟨n.high >>> (s - 32), 0⟩ = n.all >>> s := by
  refine BitVec.eq_of_getLsbD_eq ?_
  intro i hi
  unfold Dwords.all
  simp only [BitVec.getLsbD_append, BitVec.getLsbD_ushiftRight]
  grind

end Registers

section LeadingZeros

/-- A number of 64 bits with `c` zeros in front. -/
structure Leading (x c : ℕ) : Prop where
  lower : 2 ^ (63 - c) ≤ x
  upper : x < 2 ^ (64 - c)
  le : c ≤ 63

theorem clz_bounds {x : BitVec 32} (h : x ≠ 0) :
    2 ^ (31 - x.clz.toNat) ≤ x.toNat ∧ x.toNat < 2 ^ (32 - x.clz.toNat) ∧ x.clz.toNat ≤ 31 := by
  have hlt : x.clz.toNat < 32 := by
    have := BitVec.clz_lt_iff_ne_zero.mpr h
    simpa [BitVec.lt_def] using this
  exact ⟨BitVec.two_pow_sub_clz_le_toNat_of_ne_zero (by omega) h,
    BitVec.toNat_lt_two_pow_sub_clz, by omega⟩

theorem Leading.of_high (h : n.high ≠ 0) : Leading n.all.toNat n.high.clz.toNat := by
  obtain ⟨hlo, hup, hle⟩ := clz_bounds h
  have hlow := n.low.isLt
  have hpow : ∀ c : ℕ, c ≤ 32 → 2 ^ (64 - c) = 2 ^ (32 - c) * 4294967296 := fun c hc => by
    rw [show 64 - c = 32 - c + 32 by omega, pow_add]
    rfl
  have hpow' := hpow (n.high.clz.toNat + 1) (by omega)
  rw [Nat.add_comm, ← Nat.sub_sub, ← Nat.sub_sub] at hpow'
  refine ⟨?_, ?_, by omega⟩
  · rw [Dwords.all_toNat]
    exact hpow'.trans_le (le_trans (Nat.mul_le_mul_right _ hlo) (Nat.le_add_right _ _))
  · rw [Dwords.all_toNat, hpow _ (by omega)]
    have := Nat.mul_le_mul_right 4294967296 (Nat.succ_le_of_lt hup)
    omega

theorem Leading.of_low (h : n.high = 0) (h' : n.low ≠ 0) :
    Leading n.all.toNat (32 + n.low.clz.toNat) := by
  obtain ⟨hlo, hup, hle⟩ := clz_bounds h'
  have hall : n.all.toNat = n.low.toNat := by
    rw [Dwords.all_toNat, h]
    simp
  refine ⟨?_, ?_, by omega⟩
  · rwa [hall, show 63 - (32 + n.low.clz.toNat) = 31 - n.low.clz.toNat by omega]
  · rwa [hall, show 64 - (32 + n.low.clz.toNat) = 32 - n.low.clz.toNat by omega]

variable {x y c e : ℕ}

theorem Leading.lt (hx : Leading x c) (hy : Leading y e) (h : e < c) : x < y := by
  calc x < 2 ^ (64 - c) := hx.upper
    _ ≤ 2 ^ (63 - e) := Nat.pow_le_pow_right (by omega) (by omega)
    _ ≤ y := hy.lower

/-- Shifted down until it is one bit shorter than the divisor, the dividend is smaller. -/
theorem Leading.shifted_lt (hx : Leading x c) (hy : Leading y e) (h : c ≤ e) :
    x / 2 ^ (e - c + 1) < y := by
  have hpow : 2 ^ (64 - c) = 2 ^ (63 - e) * 2 ^ (e - c + 1) := by
    rw [← pow_add]
    congr 1
    have := hy.le
    omega
  have := hx.upper
  exact lt_of_lt_of_le (by rwa [Nat.div_lt_iff_lt_mul (by positivity), ← hpow]) hy.lower

theorem Leading.comparable (hx : Leading x c) (hy : Leading d.all.toNat e) (h : c ≤ e) :
    Comparable x (e - c + 1) d := by
  by_cases he : e = 0
  · obtain rfl : c = 0 := by omega
    exact .inr ⟨by omega, hx.lower⟩
  · have hle : 2 ^ (64 - e) ≤ 2 ^ 63 := Nat.pow_le_pow_right (by omega) (by omega)
    exact .inl (by have := hy.upper; omega)

end LeadingZeros

section Quotients

variable {rem : Bool}

/-- A dividend that is smaller than the divisor is the remainder. -/
theorem answer_of_lt {a b : BitVec 64} (h : a.toNat < b.toNat) :
    answer a b rem = (0, if rem then some a else none) := by
  have hdiv : a / b = 0 := BitVec.eq_of_toNat_eq (by
    rw [BitVec.toNat_udiv, Nat.div_eq_of_lt h]
    rfl)
  have hmod : a % b = a := BitVec.eq_of_toNat_eq (by
    rw [BitVec.toNat_umod, Nat.mod_eq_of_lt h])
  rw [answer, hdiv, hmod]

theorem answer_of_toNat {a b q r : BitVec 64} (hq : q.toNat = a.toNat / b.toNat)
    (hr : r.toNat = a.toNat % b.toNat) :
    (q, if rem then some r else none) = answer a b rem := by
  have hdiv : q = a / b := BitVec.eq_of_toNat_eq (by rw [hq, BitVec.toNat_udiv])
  have hmod : r = a % b := BitVec.eq_of_toNat_eq (by rw [hr, BitVec.toNat_umod])
  rw [answer, hdiv, hmod]

theorem toNat_setWidth_64 (x : BitVec 32) : (x.setWidth 64).toNat = x.toNat := by
  have := x.isLt
  rw [BitVec.toNat_setWidth]
  omega

/-- `x & (x - 1)` vanishes for a power of two only. -/
theorem pow_ctz {x : BitVec 32} (h : x ≠ 0) (h' : x &&& (x - 1) = 0) :
    x.ctz.toNat < 32 ∧ x.toNat = 2 ^ x.ctz.toNat ∧ (x - 1).toNat = 2 ^ x.ctz.toNat - 1 := by
  have hpos : x.toNat ≠ 0 := fun he => h (BitVec.eq_of_toNat_eq he)
  have hlt := x.isLt
  have hpred : (x - 1).toNat = x.toNat - 1 := by
    rw [BitVec.toNat_sub]
    simp
    omega
  have hand := congrArg BitVec.toNat h'
  rw [BitVec.toNat_and, hpred] at hand
  obtain ⟨k, hk⟩ := (Nat.and_sub_one_eq_zero_iff_isPowerOfTwo hpos).mp hand
  have hbit := BitVec.getLsbD_true_ctz_of_ne_zero h
  rw [BitVec.getLsbD, hk, Nat.testBit_two_pow, decide_eq_true_eq] at hbit
  subst hbit
  refine ⟨(Nat.pow_lt_pow_iff_right (by omega : 1 < 2)).mp (hk ▸ hlt), hk, by rw [hpred, hk]⟩

theorem clz_le_of_not_pow {x : BitVec 32} (h : x ≠ 0) (h' : ¬x &&& (x - 1) = 0) :
    x.clz.toNat ≤ 30 := by
  obtain ⟨hlo, hup, hle⟩ := clz_bounds h
  by_contra hlong
  have hclz : x.clz.toNat = 31 := by omega
  rw [hclz] at hlo hup
  have hone : x = 1 := BitVec.eq_of_toNat_eq (show x.toNat = 1 by omega)
  exact h' (by rw [hone]; decide)

end Quotients

section Branches

variable {sr : BitVec 32} (rem : Bool)

/-- The registers for a shift by less than a word. -/
theorem fill_below (h : 0 < sr.toNat) (h' : sr.toNat < 32)
    (hlt : n.all.toNat / 2 ^ sr.toNat < d.all.toNat)
    (hcmp : Comparable n.all.toNat sr.toNat d) :
    (do
      let q ← shl n.low (32 - sr)
      let high ← shl n.high (32 - sr)
      let low ← shr n.low sr
      let r ← shr n.high sr
      divRest d ⟨0, q⟩ ⟨high ||| low, r⟩ sr rem) = .ok (answer n.all d.all rem) := by
  have hsub : (32 - sr).toNat = 32 - sr.toNat := by
    rw [BitVec.toNat_sub]
    simp
    omega
  have hsr : sr < 32 := h'
  have hsr' : 32 - sr < 32 := by
    rw [BitVec.lt_def, hsub]
    simp
    omega
  simp only [shl_of_lt hsr', shr_of_lt hsr, pure_bind, hsub]
  exact divRest_eq rem (shl_high (by omega)) (shr_words h h') (by omega) hlt hcmp

/-- The registers for a shift by a word. -/
theorem fill_word (h : sr = 32) (hlt : n.all.toNat / 2 ^ sr.toNat < d.all.toNat)
    (hcmp : Comparable n.all.toNat sr.toNat d) :
    divRest d ⟨0, n.low⟩ ⟨n.high, 0⟩ sr rem = .ok (answer n.all d.all rem) := by
  subst h
  refine divRest_eq rem ?_ ?_ (by decide) hlt hcmp
  · simpa using shl_high (n := n) (s := 32) le_rfl
  · simpa using shr_low (n := n) (s := 32) le_rfl

/-- The registers for a shift by more than a word. -/
theorem fill_above (h : 32 < sr.toNat) (h' : sr.toNat < 64)
    (hlt : n.all.toNat / 2 ^ sr.toNat < d.all.toNat)
    (hcmp : Comparable n.all.toNat sr.toNat d) :
    (do
      let q ← shl n.low (64 - sr)
      let high ← shl n.high (64 - sr)
      let low ← shr n.low (sr - 32)
      let r ← shr n.high (sr - 32)
      divRest d ⟨q, high ||| low⟩ ⟨r, 0⟩ sr rem) = .ok (answer n.all d.all rem) := by
  have hsub : (64 - sr).toNat = 64 - sr.toNat := by
    rw [BitVec.toNat_sub]
    simp
    omega
  have hsub' : (sr - 32).toNat = sr.toNat - 32 := by
    rw [BitVec.toNat_sub]
    simp
    omega
  have hsr : 64 - sr < 32 := by
    rw [BitVec.lt_def, hsub]
    simp
    omega
  have hsr' : sr - 32 < 32 := by
    rw [BitVec.lt_def, hsub']
    simp
    omega
  simp only [shl_of_lt hsr, shr_of_lt hsr', pure_bind, hsub, hsub']
  exact divRest_eq rem (shl_words h h') (shr_low (by omega)) (by omega) hlt hcmp

theorem all_ne_zero (h : d.high ≠ 0 ∨ d.low ≠ 0) : d.all.toNat ≠ 0 := by
  rw [Dwords.all_toNat]
  intro hz
  rcases h with h | h
  · exact h (BitVec.eq_of_toNat_eq (by simp; omega))
  · exact h (BitVec.eq_of_toNat_eq (by simp; omega))

/-- The zeros in front of the divisor less those in front of the dividend: the difference
wraps if the divisor is longer. -/
theorem toNat_spread {x y : BitVec 32} (hx : x.toNat ≤ 31) (hy : y.toNat ≤ 31) :
    (x - y).toNat = if y.toNat ≤ x.toNat then x.toNat - y.toNat
      else 4294967296 + x.toNat - y.toNat := by
  rw [BitVec.toNat_sub]
  split_ifs <;> omega

/-- A dividend of one word. -/
theorem udivmoddi4_word (hn : n.high = 0) (hd : d.high ≠ 0 ∨ d.low ≠ 0) :
    udivmoddi4 n.all d.all rem = .ok (answer n.all d.all rem) := by
  have hnall : n.all.toNat = n.low.toNat := by
    rw [Dwords.all_toNat, hn]
    simp
  unfold udivmoddi4
  simp only [Dwords.ofAll_all]
  rw [if_pos hn]
  by_cases hhigh : d.high = 0
  · have hlow : d.low ≠ 0 := hd.resolve_left (not_not.mpr hhigh)
    have hdall : d.all.toNat = d.low.toNat := by
      rw [Dwords.all_toNat, hhigh]
      simp
    rw [if_pos hhigh, mod_of_ne hlow, div_of_ne hlow]
    simp only [map_pure', store_pure, pure_bind]
    refine congrArg Except.ok (answer_of_toNat ?_ ?_)
    · rw [toNat_setWidth_64, hnall, hdall, BitVec.toNat_udiv]
    · rw [toNat_setWidth_64, hnall, hdall, BitVec.toNat_umod]
  · rw [if_neg hhigh]
    simp only [store_pure, pure_bind]
    have hlt : n.all.toNat < d.all.toNat := by
      have := n.low.isLt
      have := (Leading.of_high hhigh).lower
      have hpow : 2 ^ 32 ≤ 2 ^ (63 - d.high.clz.toNat) :=
        Nat.pow_le_pow_right (by omega) (by have := (clz_bounds hhigh).2.2; omega)
      omega
    have hlow : n.low.setWidth 64 = n.all := BitVec.eq_of_toNat_eq (by
      rw [toNat_setWidth_64, hnall])
    rw [answer_of_lt hlt, hlow]
    rfl

/-- A divisor with both words. -/
theorem udivmoddi4_words (hn : n.high ≠ 0) (hlow : d.low ≠ 0) (hhigh : d.high ≠ 0) :
    udivmoddi4 n.all d.all rem = .ok (answer n.all d.all rem) := by
  have hcn := (clz_bounds hn).2.2
  have hcd := (clz_bounds hhigh).2.2
  have hspread := toNat_spread hcd hcn
  have hn' := Leading.of_high hn
  have hd' := Leading.of_high hhigh
  unfold udivmoddi4
  simp only [Dwords.ofAll_all]
  rw [if_neg hn, if_neg hlow, if_neg hhigh, clz_of_ne hn, clz_of_ne hhigh]
  simp only [pure_bind, store_pure]
  by_cases hle : n.high.clz.toNat ≤ d.high.clz.toNat
  · rw [if_pos hle] at hspread
    have hsr : (d.high.clz - n.high.clz + 1).toNat =
        d.high.clz.toNat - n.high.clz.toNat + 1 := by
      rw [BitVec.toNat_add, hspread]
      simp
      omega
    have hlt := hn'.shifted_lt hd' hle
    have hcmp := hn'.comparable hd' hle
    rw [← hsr] at hlt hcmp
    rw [if_neg (by rw [BitVec.lt_def, hspread]; simp; omega)]
    by_cases hword : d.high.clz - n.high.clz + 1 = 32
    · rw [if_pos hword]
      exact fill_word rem hword hlt hcmp
    · have hne : (d.high.clz - n.high.clz + 1).toNat ≠ 32 := fun he =>
        hword (BitVec.eq_of_toNat_eq he)
      rw [if_neg hword]
      exact fill_below rem (by omega) (by omega) hlt hcmp
  · rw [if_neg hle] at hspread
    rw [if_pos (by rw [BitVec.lt_def, hspread]; simp; omega),
      answer_of_lt (hn'.lt hd' (by omega))]
    rfl

/-- A divisor without a low word. -/
theorem udivmoddi4_high (hn : n.high ≠ 0) (hlow : d.low = 0) (hhigh : d.high ≠ 0) :
    udivmoddi4 n.all d.all rem = .ok (answer n.all d.all rem) := by
  have hcn := (clz_bounds hn).2.2
  have hcd := (clz_bounds hhigh).2.2
  have hspread := toNat_spread hcd hcn
  have hn' := Leading.of_high hn
  have hd' := Leading.of_high hhigh
  have hnall := n.all_toNat
  have hdall : d.all.toNat = d.high.toNat * 4294967296 := by
    rw [Dwords.all_toNat, hlow]
    simp
  unfold udivmoddi4
  simp only [Dwords.ofAll_all]
  rw [if_neg hn, if_pos hlow, if_neg hhigh]
  by_cases hnlow : n.low = 0
  · rw [if_pos hnlow, mod_of_ne hhigh, div_of_ne hhigh]
    simp only [map_pure', store_pure, pure_bind]
    have hnall' : n.all.toNat = n.high.toNat * 4294967296 := by
      rw [hnall, hnlow]
      simp
    refine congrArg Except.ok (answer_of_toNat ?_ ?_)
    · rw [toNat_setWidth_64, hnall', hdall, Nat.mul_div_mul_right _ _ (by omega),
        BitVec.toNat_udiv]
    · rw [Dwords.all_toNat, hnall', hdall, Nat.mul_mod_mul_right, BitVec.toNat_umod]
      simp
  rw [if_neg hnlow]
  by_cases hpow : d.high &&& (d.high - 1) = 0
  · obtain ⟨hctz, hval, hpred⟩ := pow_ctz hhigh hpow
    rw [if_pos hpow, ctz_of_ne hhigh]
    simp only [store_pure, pure_bind]
    rw [shr_of_lt hctz, pure_bind]
    have hlowlt := n.low.isLt
    have hdiv : n.all.toNat / 4294967296 = n.high.toNat := by omega
    have hmod : n.all.toNat % 4294967296 = n.low.toNat := by omega
    refine congrArg Except.ok (answer_of_toNat ?_ ?_)
    · rw [toNat_setWidth_64, BitVec.toNat_ushiftRight, Nat.shiftRight_eq_div_pow, hdall, hval,
        Nat.mul_comm, ← Nat.div_div_eq_div_mul, hdiv]
    · rw [Dwords.all_toNat, BitVec.toNat_and, hpred, Nat.and_two_pow_sub_one_eq_mod, hdall, hval,
        Nat.mul_comm (2 ^ _), Nat.mod_mul, hdiv, hmod]
      ring
  rw [if_neg hpow, clz_of_ne hn, clz_of_ne hhigh]
  simp only [pure_bind, store_pure]
  by_cases hle : n.high.clz.toNat ≤ d.high.clz.toNat
  · rw [if_pos hle] at hspread
    have hshort := clz_le_of_not_pow hhigh hpow
    have hsr : (d.high.clz - n.high.clz + 1).toNat =
        d.high.clz.toNat - n.high.clz.toNat + 1 := by
      rw [BitVec.toNat_add, hspread]
      simp
      omega
    have hlt := hn'.shifted_lt hd' hle
    have hcmp := hn'.comparable hd' hle
    rw [← hsr] at hlt hcmp
    rw [if_neg (by rw [BitVec.lt_def, hspread]; simp; omega)]
    exact fill_below rem (by omega) (by omega) hlt hcmp
  · rw [if_neg hle] at hspread
    rw [if_pos (by rw [BitVec.lt_def, hspread]; simp; omega),
      answer_of_lt (hn'.lt hd' (by omega))]
    rfl

/-- A divisor without a high word. -/
theorem udivmoddi4_low (hn : n.high ≠ 0) (hlow : d.low ≠ 0) (hhigh : d.high = 0) :
    udivmoddi4 n.all d.all rem = .ok (answer n.all d.all rem) := by
  have hcn := (clz_bounds hn).2.2
  have hn' := Leading.of_high hn
  have hd' := Leading.of_low hhigh hlow
  have hnall := n.all_toNat
  have hdall : d.all.toNat = d.low.toNat := by
    rw [Dwords.all_toNat, hhigh]
    simp
  unfold udivmoddi4
  simp only [Dwords.ofAll_all]
  rw [if_neg hn, if_neg hlow, if_pos hhigh]
  by_cases hpow : d.low &&& (d.low - 1) = 0
  · obtain ⟨hctz, hval, hpred⟩ := pow_ctz hlow hpow
    have hmod : ((n.low &&& (d.low - 1)).setWidth 64).toNat = n.all.toNat % d.all.toNat := by
      have hdvd : (2 ^ d.low.ctz.toNat : ℕ) ∣ 4294967296 :=
        ⟨2 ^ (32 - d.low.ctz.toNat), by rw [← pow_add, Nat.add_sub_cancel' (by omega)]; rfl⟩
      rw [toNat_setWidth_64, BitVec.toNat_and, hpred, Nat.and_two_pow_sub_one_eq_mod, hdall, hval,
        hnall, Nat.add_mod, Nat.mod_eq_zero_of_dvd (hdvd.mul_left _)]
      simp
    rw [if_pos hpow]
    simp only [store_pure, pure_bind]
    by_cases hone : d.low = 1
    · rw [if_pos hone]
      refine congrArg Except.ok (answer_of_toNat ?_ hmod)
      rw [hdall, hone]
      simp
    · rw [if_neg hone, ctz_of_ne hlow]
      simp only [pure_bind]
      have hpos : 0 < d.low.ctz.toNat := by
        refine Nat.pos_of_ne_zero (fun hz => hone (BitVec.eq_of_toNat_eq ?_))
        rw [hval, hz]
        rfl
      have hsub : (32 - d.low.ctz).toNat = 32 - d.low.ctz.toNat := by
        rw [BitVec.toNat_sub]
        simp
        omega
      have hsr : 32 - d.low.ctz < 32 := by
        rw [BitVec.lt_def, hsub]
        simp
        omega
      simp only [shl_of_lt hsr, shr_of_lt (show d.low.ctz < 32 from hctz), pure_bind, hsub]
      rw [shr_words hpos hctz]
      refine congrArg Except.ok (answer_of_toNat ?_ hmod)
      rw [BitVec.toNat_ushiftRight, Nat.shiftRight_eq_div_pow, hdall, hval]
  have hcd := clz_le_of_not_pow hlow hpow
  have hsr : (1 + 32 + d.low.clz - n.high.clz).toNat =
      32 + d.low.clz.toNat - n.high.clz.toNat + 1 := by
    rw [BitVec.toNat_sub, BitVec.toNat_add]
    simp
    omega
  have hlt := hn'.shifted_lt hd' (by omega)
  have hcmp := hn'.comparable hd' (by omega)
  rw [← hsr] at hlt hcmp
  rw [if_neg hpow, clz_of_ne hn, clz_of_ne hlow]
  simp only [pure_bind]
  by_cases hword : 1 + 32 + d.low.clz - n.high.clz = 32
  · rw [if_pos hword]
    exact fill_word rem hword hlt hcmp
  have hne : (1 + 32 + d.low.clz - n.high.clz).toNat ≠ 32 := fun he =>
    hword (BitVec.eq_of_toNat_eq he)
  rw [if_neg hword]
  by_cases hbelow : 1 + 32 + d.low.clz - n.high.clz < 32
  · rw [if_pos hbelow]
    exact fill_below rem (by omega) hbelow hlt hcmp
  · have hle : 32 ≤ (1 + 32 + d.low.clz - n.high.clz).toNat := Nat.le_of_not_lt hbelow
    rw [if_neg hbelow]
    exact fill_above rem (by omega) (by omega) hlt hcmp

/-- A division by zero. -/
theorem udivmoddi4_zero (hlow : d.low = 0) (hhigh : d.high = 0) :
    udivmoddi4 n.all d.all rem = .error .divisionByZero := by
  unfold udivmoddi4
  simp only [Dwords.ofAll_all]
  rw [hlow, hhigh]
  by_cases hn : n.high = 0
  · rw [if_pos hn]
    cases rem <;> rfl
  · rw [if_neg hn]
    cases rem <;> rfl

end Branches

/-- Quotient and remainder of any two numbers; only a division by zero is undefined. -/
theorem udivmoddi4_eq (a b : BitVec 64) (rem : Bool) :
    udivmoddi4 a b rem = if b = 0 then .error .divisionByZero else .ok (answer a b rem) := by
  obtain ⟨n, rfl⟩ : ∃ n : Dwords, a = n.all := ⟨.ofAll a, (Dwords.all_ofAll a).symm⟩
  obtain ⟨d, rfl⟩ : ∃ d : Dwords, b = d.all := ⟨.ofAll b, (Dwords.all_ofAll b).symm⟩
  have hzero : ∀ h : d.high ≠ 0 ∨ d.low ≠ 0, d.all ≠ 0 := fun h he =>
    all_ne_zero h (congrArg BitVec.toNat he)
  by_cases hlow : d.low = 0
  · by_cases hhigh : d.high = 0
    · rw [udivmoddi4_zero rem hlow hhigh, if_pos (by rw [Dwords.all, hlow, hhigh]; decide)]
    · rw [if_neg (hzero (.inl hhigh))]
      by_cases hn : n.high = 0
      · exact udivmoddi4_word rem hn (.inl hhigh)
      · exact udivmoddi4_high rem hn hlow hhigh
  · rw [if_neg (hzero (.inr hlow))]
    by_cases hn : n.high = 0
    · exact udivmoddi4_word rem hn (.inr hlow)
    · by_cases hhigh : d.high = 0
      · exact udivmoddi4_low rem hn hlow hhigh
      · exact udivmoddi4_words rem hn hlow hhigh

theorem udivmoddi4_of_ne {a b : BitVec 64} (h : b ≠ 0) (rem : Bool) :
    udivmoddi4 a b rem = .ok (answer a b rem) := by
  rw [udivmoddi4_eq, if_neg h]

/-- The unsigned routines compute quotient and remainder of any two numbers. Dividing by
zero is the only way to undefined behaviour. -/
theorem unsigned_division (a b r : BitVec 64) (rem : Bool) :
    udivmoddi4 a b rem = (if b = 0 then .error .divisionByZero
      else .ok (a / b, if rem then some (a % b) else none)) ∧
    udivdi3 a b = (if b = 0 then .error .divisionByZero else .ok (a / b)) ∧
    umoddi3 a b r = if b = 0 then .error .divisionByZero else .ok (a % b) := by
  refine ⟨udivmoddi4_eq a b rem, ?_, ?_⟩
  · unfold udivdi3
    rw [udivmoddi4_eq]
    split_ifs <;> rfl
  · unfold umoddi3
    rw [udivmoddi4_eq]
    split_ifs <;> rfl

end KmallocKfree.Int64
