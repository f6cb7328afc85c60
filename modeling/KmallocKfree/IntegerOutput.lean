import KmallocKfree.FormatBounds

/-!
# The integers that are printed

`%d` prints the decimal numeral of every `int` but the least, whose negation wraps to itself.
`%b` of a negative `int` goes wrong: the argument is widened to 64 bits, and each remainder is
narrowed to 32 and widened again. `vsnprintf` prints as `vsprintf` does as long as its checks
pass.
-/
namespace KmallocKfree

/-- The decimal numeral of an integer. -/
def decimal (v : ℤ) : List Char :=
  if v < 0 then '-' :: Nat.toDigits 10 v.natAbs else Nat.toDigits 10 v.natAbs

/-- A conversion gets through, and `e` stands behind the output it started with. -/
def Emits (r : Except Exit Printer) (out e : List Char) : Prop :=
  ∃ s', r = .ok s' ∧ s'.out = out ++ e

/-- What is emitted consists of the digits 0 and 1, and is the binary numeral of the `int` as
an `unsigned` or an `unsigned long` value. -/
def EmitsBinary (r : Except Exit Printer) (out : List Char) (v : ℤ) : Prop :=
  ∃ e, Emits r out e ∧ (∀ c ∈ e, c = '0' ∨ c = '1') ∧
    (e = Nat.toDigits 2 (toWord v) ∨ e = Nat.toDigits 2 (toSize v))

variable {s t start : Printer} {fmt p out e : List Char} {ap pArgs : List Arg} {v : ℤ} {c : Char}
  {n : ℕ}

section Reached

theorem atRound_printf (h : AtRound printfRound (.start fmt pArgs) s) : s.cnt = 0 :=
  h.cnt rfl fun _ _ _ _ hp hround => printfRound_advances hp hround

theorem atRound_vsprintf (h : AtRound vsprintfRound (.start fmt ap) s) : s.cnt = 0 :=
  h.cnt rfl fun _ _ _ _ hp hround => vsprintfRound_advances hp hround

/-- A round of `vsnprintf` is one of `vsprintf` whose characters pass their checks. -/
theorem vsnprintfRound_ok (h : vsnprintfRound n c s.counted = .ok t) : ∃ s' e,
    vsprintfRound c s = .ok s' ∧ t = s'.counted ∧ s'.out = s.out ++ e ∧
      ∃ l, storeAll n s.out e = .ok l := by
  cases hround : vsprintfRound c s with
  | error x =>
    rw [vsnprintfRound_error hround] at h
    cases h
  | ok s' =>
    obtain ⟨e, hout, hr⟩ := follows_round (n := n) hround
    rw [hr] at h
    obtain ⟨l, hl, h⟩ := ok_of_bind h
    cases h
    exact ⟨s', e, rfl, rfl, hout, l, hl⟩

/-- In every round of `vsnprintf` the count is that of the output, and all characters have
passed their checks. -/
theorem atRound_vsnprintf (h : AtRound (vsnprintfRound n) (.start fmt ap) s) :
    s.counted = s ∧ s.cnt = 0 ∧ ∀ k < s.out.length, Fits n k := by
  induction h with
  | start => exact ⟨rfl, rfl, fun k hk => absurd hk (Nat.not_lt_zero k)⟩
  | @round s t c p _ hp _ hround ih =>
    obtain ⟨hcounted, hcnt, hfits⟩ := ih
    rw [← hcounted] at hround
    obtain ⟨s', e, hround', rfl, hout, l, hl⟩ := vsnprintfRound_ok hround
    obtain ⟨q, hadv⟩ := vsprintfRound_advances hp hround'
    refine ⟨rfl, hadv.cnt hcnt, fun k hk => ?_⟩
    by_cases hold : k < s.out.length
    · exact hfits k hold
    · have hlen : s'.counted.out.length = s.out.length + e.length := by
        rw [← List.length_append, ← hout]
        rfl
      rw [hlen] at hk
      exact storeAll_ok hl (not_lt.mp hold) hk

end Reached

section Decimal

theorem emits_iff {e' : List Char} (ht : t.out = out ++ e) : Emits (.ok t) out e' ↔ e = e' := by
  constructor
  · rintro ⟨t', heq, hout⟩
    cases heq
    rw [ht] at hout
    exact List.append_cancel_left hout
  · intro heq
    exact ⟨t, rfl, heq ▸ ht⟩

theorem printed_iff (h : -2147483648 ≤ v) (h' : v < 2147483648) :
    printed v = decimal v ↔ v ≠ -2147483648 := by
  constructor
  · intro heq hmin
    subst hmin
    revert heq
    decide +kernel
  · intro hne
    exact printed_eq (by omega) h'

theorem vsprintf_printed (hs : s.cnt = 0) (hap : s.ap = .int v :: ap) :
    ∃ t, vsprintfConversion 'd' s = .ok t ∧ t.out = s.out ++ printed v := by
  obtain ⟨p, ap', out, ret, cnt⟩ := s
  obtain rfl : cnt = 0 := hs
  obtain rfl : ap' = .int v :: ap := hap
  obtain ⟨ret', hconv⟩ := @vsprintf_int out ap ret p v
  exact ⟨_, hconv, rfl⟩

/-- `printf` does what `vsprintf` does, and moves the pointer on. -/
theorem printfConversion_int :
    printfConversion 'd' s = (do let t ← vsprintfConversion 'd' s; .ok t.next) := by
  obtain hva | ⟨i, ap, -, hva⟩ := vaInt_cases s
  · simp only [printfConversion, vsprintfConversion, hva, bind, Except.bind]
  · simp only [printfConversion, vsprintfConversion, hva, bind, Except.bind, intDigits_emit]

theorem printf_decimal (h : -2147483648 ≤ v) (h' : v < 2147483648)
    (hs : AtRound printfRound (.start fmt pArgs) s) (hap : s.ap = .int v :: ap) :
    Emits (printfConversion 'd' s.next) s.out (decimal v) ↔ v ≠ -2147483648 := by
  have hcnt : s.cnt = 0 := atRound_printf hs
  obtain ⟨t, hconv, hout⟩ := vsprintf_printed (s := s.next) hcnt hap
  rw [printfConversion_int, hconv, ← printed_iff h h']
  exact emits_iff (t := t.next) hout

theorem vsprintf_decimal (h : -2147483648 ≤ v) (h' : v < 2147483648)
    (hs : AtRound vsprintfRound (.start fmt pArgs) s) (hap : s.ap = .int v :: ap) :
    Emits (vsprintfConversion 'd' s.next) s.out (decimal v) ↔ v ≠ -2147483648 := by
  have hcnt : s.cnt = 0 := atRound_vsprintf hs
  obtain ⟨t, hconv, hout⟩ := vsprintf_printed (s := s.next) hcnt hap
  rw [hconv, ← printed_iff h h']
  exact emits_iff hout

/-- Enough room is left for the numeral: then it is printed when the checks pass, which they
do up to a count of 2^31. -/
theorem vsnprintf_decimal (h : -2147483648 ≤ v) (h' : v < 2147483648)
    (hs : AtRound (vsnprintfRound n) (.start fmt pArgs) s) (hap : s.ap = .int v :: ap)
    (hroom : s.out.length + (decimal v).length ≤ n) :
    Emits (vsnprintfConversion n 'd' s.next) s.out (decimal v) ↔
      v ≠ -2147483648 ∧ Unwrapped n (s.out.length + (decimal v).length) := by
  obtain ⟨hcounted, hcnt, hfits⟩ := atRound_vsnprintf hs
  obtain ⟨t, hconv, hout⟩ := @vsprintf_printed s.next ap v hcnt hap
  obtain ⟨e, hout', hr⟩ := follows_int (n := n) hconv
  obtain rfl : printed v = e := List.append_cancel_left (hout.symm.trans hout')
  have hr : vsnprintfConversion n 'd' s.next =
      (do let _ ← storeAll n s.out (printed v); .ok t.counted) := by
    rw [← hcounted]
    exact hr
  have hemits : ∀ e, Emits (.ok t.counted) s.out e ↔ printed v = e := fun e => emits_iff hout
  rw [hr, ← printed_iff h h', ← fits_all hroom]
  constructor
  · rintro ⟨t', hok, hemit⟩
    obtain ⟨l, hl, hok⟩ := ok_of_bind hok
    have heq : printed v = decimal v := (hemits _).mp ⟨t', hok, hemit⟩
    refine ⟨heq, fun k hk => ?_⟩
    by_cases hold : k < s.out.length
    · exact hfits k hold
    · exact storeAll_ok hl (not_lt.mp hold) (heq ▸ hk)
  · rintro ⟨heq, hall⟩
    rw [storeAll_fits fun k _ hk => hall k (heq ▸ hk)]
    exact (hemits _).mpr heq

end Decimal

section Binary

/-- The digits of a negative `int` begin with 1 and 3. -/
theorem three_mem_digitChars (h : -2147483648 ≤ v) (hneg : v < 0) :
    '3' ∈ digitChars 2 (digitCount 2 v 0) v := by
  have hlo : 2 ^ 63 ≤ toSize v := by
    unfold toSize
    omega
  have hhi : toSize v < 2 ^ 64 := by
    unfold toSize
    omega
  have hlen : (Nat.toDigits 2 (toSize v)).length = 64 := by
    have hle := (Nat.length_toDigits_le_iff (by omega) (by omega)).mpr hhi
    have hnot := mt (Nat.length_toDigits_le_iff (by omega) (by omega)).mp (not_lt.mpr hlo)
    omega
  have hcount : digitCount 2 v 0 = 64 := by
    rw [digitCount, if_pos hneg.ne, countDigits_eq (by omega) (by omega) hhi, hlen]
  -- the remainder of the first digit is narrowed to the argument itself
  have hrest : wrapInt (toSize v % 2 ^ 63 : ℕ) = v := by
    unfold wrapInt toInt toWord toSize
    split_ifs <;> omega
  have hsecond : toSize v / 2 ^ 62 = 3 := by
    unfold toSize
    omega
  rw [hcount, digitChars, mPowN_eq (by decide), hrest, digitChars, mPowN_eq (by decide), hsecond]
  exact List.mem_cons_of_mem _ List.mem_cons_self

theorem printf_binary_eq (hs : s.cnt = 0) (hap : s.ap = .int v :: ap) :
    ∃ t, printfConversion 'b' s = .ok t ∧ t.out = s.out ++ digitChars 2 (digitCount 2 v 0) v := by
  obtain ⟨p, ap', out, ret, cnt⟩ := s
  obtain rfl : cnt = 0 := hs
  obtain rfl : ap' = .int v :: ap := hap
  simp only [printfConversion, vaInt, bind, Except.bind, intDigits_emit]
  exact ⟨_, rfl, rfl⟩

theorem printf_binary (h : -2147483648 ≤ v) (h' : v < 2147483648)
    (hs : AtRound printfRound (.start fmt pArgs) s) (hap : s.ap = .int v :: ap) :
    EmitsBinary (printfConversion 'b' s.next) s.out v ↔ 0 ≤ v := by
  have hcnt : s.cnt = 0 := atRound_printf hs
  obtain ⟨t, hconv, hout⟩ := printf_binary_eq (s := s.next) hcnt hap
  rw [hconv]
  constructor
  · rintro ⟨e, hemits, hdigits, -⟩
    obtain rfl := (emits_iff hout).mp hemits
    by_contra hneg
    obtain hthree | hthree := hdigits '3' (three_mem_digitChars h (not_le.mp hneg))
    · exact absurd hthree (by decide)
    · exact absurd hthree (by decide)
  · intro hpos
    obtain ⟨w, rfl⟩ := Int.eq_ofNat_of_zero_le hpos
    have hword : toWord (w : ℤ) = w := by
      unfold toWord
      omega
    refine ⟨Nat.toDigits 2 w, (emits_iff hout).mpr ?_, ?_, .inl (by rw [hword])⟩
    · exact digitChars_numeral (by omega) (by omega) (by omega)
    · intro c hc
      obtain ⟨d, hd, rfl⟩ := mem_toDigits (by omega) hc
      match d with
      | 0 => exact .inl rfl
      | 1 => exact .inr rfl
      | _ + 2 => omega

end Binary

section Conversions

/-- When the conversions of an `int` print its numeral, in every round of every call. -/
structure PrintsInt (v : ℤ) : Prop where
  printf : ∀ fmt pArgs s p ap, AtRound printfRound (.start fmt pArgs) s →
    s.pStr = '%' :: 'd' :: p → s.ap = .int v :: ap →
      (Emits (printfConversion 'd' s.next) s.out (decimal v) ↔ v ≠ -2147483648)
  vsprintf : ∀ fmt pArgs s p ap, AtRound vsprintfRound (.start fmt pArgs) s →
    s.pStr = '%' :: 'd' :: p → s.ap = .int v :: ap →
      (Emits (vsprintfConversion 'd' s.next) s.out (decimal v) ↔ v ≠ -2147483648)
  /-- With enough room for the numeral. -/
  vsnprintf : ∀ n fmt pArgs s p ap, AtRound (vsnprintfRound n) (.start fmt pArgs) s →
    s.pStr = '%' :: 'd' :: p → s.ap = .int v :: ap → s.out.length + (decimal v).length ≤ n →
      (Emits (vsnprintfConversion n 'd' s.next) s.out (decimal v) ↔
        v ≠ -2147483648 ∧ Unwrapped n (s.out.length + (decimal v).length))
  binary : ∀ fmt pArgs s p ap, AtRound printfRound (.start fmt pArgs) s →
    s.pStr = '%' :: 'b' :: p → s.ap = .int v :: ap →
      (EmitsBinary (printfConversion 'b' s.next) s.out v ↔ 0 ≤ v)

/-- For every `int`: `%d` prints the decimal numeral unless the `int` is the least, in
`vsnprintf` also only up to 2^31 characters; `%b` prints the binary numeral when the `int` is
not negative. -/
theorem prints_int (h : -2147483648 ≤ v) (h' : v < 2147483648) : PrintsInt v where
  printf _ _ _ _ _ hs _ hap := printf_decimal h h' hs hap
  vsprintf _ _ _ _ _ hs _ hap := vsprintf_decimal h h' hs hap
  vsnprintf _ _ _ _ _ _ hs _ hap hroom := vsnprintf_decimal h h' hs hap hroom
  binary _ _ _ _ _ hs _ hap := printf_binary h h' hs hap

theorem prints_int_number : PrintsInt (-42) := prints_int (by decide) (by decide)

/-- `printf("%d", -2147483648)`. -/
theorem least_int_garbled : ¬ ∀ v : ℤ, -2147483648 ≤ v → v < 2147483648 →
    ∀ fmt pArgs s p ap, AtRound printfRound (.start fmt pArgs) s → s.pStr = '%' :: 'd' :: p →
      s.ap = .int v :: ap → Emits (printfConversion 'd' s.next) s.out (decimal v) := by
  intro hall
  have hemits := hall (-2147483648) (by decide) (by decide) ['%', 'd'] [.int (-2147483648)] _
    [nul] [] .start rfl rfl
  exact (printf_decimal (by decide) (by decide) .start rfl).mp hemits rfl

end Conversions
end KmallocKfree
