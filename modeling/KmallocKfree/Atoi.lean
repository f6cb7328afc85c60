import KmallocKfree.IntegerOutput
import KmallocKfree.TerminatedStrings
import Mathlib.Order.Lattice

/-!
# `atoi`

It skips spaces and reads digits up to the first other character. The sums are those of `int`, and
wrap around on the way to the largest numbers, but to the right result. There are no signs: what
`%d` prints for a negative number is read as 0.
-/
namespace KmallocKfree.CString

open Prog

/-- `while (*nptr == ' ') { nptr ++; }`. -/
def spaceRound (k : Param) (nptr : ℕ) : StringCode (ℕ ⊕ ℕ) := do
  let c ← readByte k nptr
  if schar c = 32 then pure (.inl (addPtr nptr 1)) else pure (.inr nptr)

/-- The loop over the digits; `x.1` is `nptr` and `x.2` is `x`. -/
def digitRound (k : Param) (x : ℕ × ℤ) : StringCode ((ℕ × ℤ) ⊕ ℤ) := do
  let c ← readByte k x.1
  if schar c ≥ 48 ∧ schar c ≤ 57 then
    pure (.inl (addPtr x.1 1, wrapInt (wrapInt (wrapInt (x.2 * 10) + schar c) - 48)))
  else pure (.inr x.2)

def atoi (k : Param) (nptr : ℕ) : StringCode ℤ := do
  let nptr ← iterate (spaceRound k) loopBound nptr
  iterate (digitRound k) loopBound (nptr, 0)

/-- A space. -/
def Space (c : UInt8) : Prop := c.toNat = 32

def Digit (c : UInt8) : Prop := 48 ≤ c.toNat ∧ c.toNat ≤ 57

instance : DecidablePred Space := fun _ => inferInstanceAs (Decidable (_ = _))
instance : DecidablePred Digit := fun _ => inferInstanceAs (Decidable (_ ∧ _))

/-- The digits behind the spaces. -/
def leadingNumeral (l : List UInt8) : List Char :=
  ((l.dropWhile fun c => Space c).takeWhile fun c => Digit c).map Char.ofUInt8

variable {P : Op Param Empty Empty → Prop} {s : StringState} {k : Param} {l : List UInt8}
  {c : UInt8} {p n acc : ℕ} {v : ℤ}

section Loops

theorem schar_space : schar c.toNat = 32 ↔ Space c := by
  have hbyte : c.toNat < 256 := c.toNat_lt
  unfold schar Space
  split_ifs <;> omega

theorem schar_digit : (schar c.toNat ≥ 48 ∧ schar c.toNat ≤ 57) ↔ Digit c := by
  have hbyte : c.toNat < 256 := c.toNat_lt
  unfold schar Digit
  split_ifs <;> omega

theorem schar_of_digit (h : Digit c) : schar c.toNat = c.toNat := by
  unfold Digit at h
  unfold schar
  rw [if_pos (by omega)]

/-- Behind its characters a string has a NUL, at which both loops leave. -/
theorem not_space_nul : ¬ schar 0 = 32 := by decide

theorem not_digit_nul : ¬ (schar 0 ≥ 48 ∧ schar 0 ≤ 57) := by decide

theorem wp_spaces (h : StringAt s.mem p l) (hn : l.length < n)
    (hP : ∀ i ≤ l.length, P (.load k (p + i) 0 1)) :
    wp P (iterate (spaceRound k) n p) s fun q t =>
      StringAt s.mem q (l.dropWhile fun c => Space c) ∧ p ≤ q ∧
        q + (l.dropWhile fun c => Space c).length = p + l.length ∧ t = s := by
  induction l generalizing p n with
  | nil =>
    obtain ⟨n, rfl⟩ : ∃ j, n = j + 1 := ⟨n - 1, by omega⟩
    have hread := hP 0 le_rfl
    rw [iterate, wp_bind', spaceRound]
    simp only [wp_bind, wp_readByte, wp_ite, wp_pure, h.nul]
    rw [if_neg (show ¬ schar (UInt8.toNat 0) = 32 from not_space_nul)]
    exact ⟨hread, h.ne_null, h, le_rfl, rfl, rfl⟩
  | cons c l ih =>
    rw [List.length_cons] at hn hP
    obtain ⟨n, rfl⟩ : ∃ j, n = j + 1 := ⟨n - 1, by omega⟩
    have hread := hP 0 (by omega)
    rw [iterate, wp_bind', spaceRound]
    simp only [wp_bind, wp_readByte, wp_ite, wp_pure, h.head, h.next]
    refine ⟨hread, h.ne_null, ?_⟩
    by_cases hc : Space c
    · have hrest := @ih (p + 1) n h.tail (by omega) fun i hi => by
        have hadd : p + 1 + i = p + (i + 1) := by omega
        rw [hadd]
        exact hP (i + 1) (by omega)
      rw [if_pos (schar_space.mpr hc), List.dropWhile_cons_of_pos (by simpa using hc)]
      apply wp_post hrest
      intro q t hq
      obtain ⟨hq, hle, hlen, ht⟩ := hq
      rw [List.length_cons]
      exact ⟨hq, by omega, by omega, ht⟩
    · rw [if_neg (mt schar_space.mp hc), List.dropWhile_cons_of_neg (by simpa using hc)]
      exact ⟨h, le_rfl, rfl, rfl⟩

theorem wrapInt_digit (h : Digit c) :
    wrapInt (wrapInt (wrapInt (wrapInt acc * 10) + schar c.toNat) - 48) =
      wrapInt ((10 * acc + (c.toNat - 48) : ℕ) : ℤ) := by
  obtain ⟨hlow, -⟩ := id h
  have hwrap : wrapInt (wrapInt acc) = wrapInt acc := by simpa using wrapInt_add acc 0
  have htimes : wrapInt (wrapInt acc * 10) = wrapInt ((acc : ℤ) * 10) := by
    rw [wrapInt_eq_iff, ← Int.sub_mul]
    exact Dvd.dvd.mul_right ((wrapInt_eq_iff _ _).mp hwrap) 10
  have hvalue : (acc : ℤ) * 10 + (c.toNat + -48) = ((10 * acc + (c.toNat - 48) : ℕ) : ℤ) := by
    omega
  calc wrapInt (wrapInt (wrapInt (wrapInt acc * 10) + schar c.toNat) - 48)
      = wrapInt (wrapInt (wrapInt ((acc : ℤ) * 10) + c.toNat) + -48) := by
        rw [schar_of_digit h, htimes]
        rfl
    _ = wrapInt (wrapInt ((acc : ℤ) * 10) + c.toNat + -48) := wrapInt_add _ _
    _ = wrapInt (wrapInt ((acc : ℤ) * 10) + (c.toNat + -48)) := by rw [Int.add_assoc]
    _ = wrapInt ((acc : ℤ) * 10 + (c.toNat + -48)) := wrapInt_add _ _
    _ = wrapInt ((10 * acc + (c.toNat - 48) : ℕ) : ℤ) := by rw [hvalue]

theorem wp_digits (h : StringAt s.mem p l) (hn : l.length < n)
    (hP : ∀ i ≤ l.length, P (.load k (p + i) 0 1)) :
    wp P (iterate (digitRound k) n (p, wrapInt acc)) s fun v t =>
      v = wrapInt (Nat.ofDigitChars 10 ((l.takeWhile fun c => Digit c).map Char.ofUInt8) acc) ∧
        t = s := by
  induction l generalizing p n acc with
  | nil =>
    obtain ⟨n, rfl⟩ : ∃ j, n = j + 1 := ⟨n - 1, by omega⟩
    have hread := hP 0 le_rfl
    rw [iterate, wp_bind', digitRound]
    simp only [wp_bind, wp_readByte, wp_ite, wp_pure, h.nul]
    rw [if_neg (show ¬ (schar (UInt8.toNat 0) ≥ 48 ∧ schar (UInt8.toNat 0) ≤ 57) from
      not_digit_nul)]
    exact ⟨hread, h.ne_null, rfl, rfl⟩
  | cons c l ih =>
    rw [List.length_cons] at hn hP
    obtain ⟨n, rfl⟩ : ∃ j, n = j + 1 := ⟨n - 1, by omega⟩
    have hread := hP 0 (by omega)
    rw [iterate, wp_bind', digitRound]
    simp only [wp_bind, wp_readByte, wp_ite, wp_pure, h.head, h.next]
    refine ⟨hread, h.ne_null, ?_⟩
    by_cases hc : Digit c
    · rw [if_pos (schar_digit.mpr hc), wrapInt_digit hc,
        List.takeWhile_cons_of_pos (by simpa using hc), List.map_cons, Nat.ofDigitChars_cons]
      exact ih h.tail (by omega) fun i hi => by
        have hadd : p + 1 + i = p + (i + 1) := by omega
        rw [hadd]
        exact hP (i + 1) (by omega)
    · rw [if_neg (mt schar_digit.mp hc), List.takeWhile_cons_of_neg (by simpa using hc)]
      exact ⟨rfl, rfl⟩

end Loops

section Results

/-- `atoi` of a string reads no other bytes than the string's, and returns the number that the
digits behind its spaces are the numeral of, reduced to an `int`. -/
theorem wp_atoi (h : StringAt s.mem p l) (hP : ∀ i ≤ l.length, P (.load k (p + i) 0 1)) :
    wp P (atoi k p) s fun v t =>
      v = wrapInt (Nat.ofDigitChars 10 (leadingNumeral l) 0) ∧ t = s := by
  have hbound := h.bound
  have hspaces := wp_spaces h (lt_loopBound (by omega)) hP
  unfold atoi
  rw [wp_bind]
  apply wp_post hspaces
  intro q t hq
  obtain ⟨hq, hle, hlen, rfl⟩ := hq
  have hstart : wrapInt ((0 : ℕ) : ℤ) = 0 := wrapInt_natCast (by decide)
  have hdigits := @wp_digits P t k _ q loopBound 0 hq (lt_loopBound (by omega)) fun i hi => by
    have hadd : q + i = p + (q - p + i) := by omega
    rw [hadd]
    exact hP _ (by omega)
  rw [hstart] at hdigits
  exact hdigits

theorem exec_atoi (h : StringAt s.mem p l) :
    exec (atoi k p) s = .ok (wrapInt (Nat.ofDigitChars 10 (leadingNumeral l) 0), s) :=
  exec_of_wp (wp_atoi (P := fun _ => True) h fun _ _ => trivial)

/-- A numeral is all that is read of it. -/
theorem leadingNumeral_toDigits (h : l.map Char.ofUInt8 = Nat.toDigits 10 n) :
    leadingNumeral l = Nat.toDigits 10 n := by
  have hrange : ∀ d < 10, 48 ≤ d.digitChar.toNat ∧ d.digitChar.toNat ≤ 57 := by decide
  have hdigits : ∀ c ∈ l, Digit c := by
    intro c hc
    have hmem : Char.ofUInt8 c ∈ Nat.toDigits 10 n := h ▸ List.mem_map_of_mem hc
    obtain ⟨d, hd, hchar⟩ := mem_toDigits (by omega) hmem
    have hcode : c.toNat = d.digitChar.toNat := congrArg Char.toNat hchar
    unfold Digit
    rw [hcode]
    exact hrange d hd
  have hspaces : l.dropWhile (fun c => Space c) = l := by
    cases l with
    | nil => rfl
    | cons c l =>
      have hc := hdigits c List.mem_cons_self
      have hnot : ¬ Space c := by
        unfold Space
        unfold Digit at hc
        omega
      exact List.dropWhile_cons_of_neg (by simpa using hnot)
  have htake : l.takeWhile (fun c => Digit c) = l :=
    List.takeWhile_eq_self_iff.mpr fun c hc => by simpa using hdigits c hc
  rw [leadingNumeral, hspaces, htake, h]

/-- Nothing is read of what follows a minus sign. -/
theorem leadingNumeral_minus {e : List Char} (h : l.map Char.ofUInt8 = '-' :: e) :
    leadingNumeral l = [] := by
  cases l with
  | nil => cases h
  | cons c l =>
    obtain ⟨hc, -⟩ := List.cons.inj h
    have hcode : c.toNat = 45 := congrArg Char.toNat hc
    unfold leadingNumeral
    rw [List.dropWhile_cons_of_neg (by simp [Space, hcode]),
      List.takeWhile_cons_of_neg (by simp [Digit, hcode])]
    rfl

/-- What `sprintf` writes for an `int`, `atoi` reads back, as 0 when it is negative. -/
theorem atoi_sprintf (h : -2147483648 ≤ v) (h' : v < 2147483648) :
    ∃ w, sprintf (some ['%', 'd']) [.int v] = .ok w ∧ w.terminated = true ∧
      ∀ (k : Param) (s : StringState) (p : ℕ) (l : List UInt8), StringAt s.mem p l →
        l.map Char.ofUInt8 = w.chars → exec (atoi k p) s = .ok (max v 0, s) := by
  have hordinary : ∀ x ∈ [Piece.int v], x.item.Ordinary := by simp [Piece.item, Item.Ordinary]
  have hwrite := vsprintf_eq hordinary
  refine ⟨_, hwrite, rfl, fun k s p l hl hchars => ?_⟩
  have hprinted : l.map Char.ofUInt8 = printed v := hchars.trans (List.append_nil _)
  rw [exec_atoi hl]
  by_cases hneg : v < 0
  · rw [printed, if_pos hneg] at hprinted
    rw [leadingNumeral_minus hprinted, max_eq_right hneg.le]
    rfl
  · rw [printed_eq (by omega) h', if_neg hneg] at hprinted
    rw [leadingNumeral_toDigits hprinted, Nat.ofDigitChars_ten_toDigits,
      wrapInt_natCast (by omega), max_eq_left (by omega)]
    congr 2
    omega

theorem atoi_sprintf_largest : ∃ w, sprintf (some ['%', 'd']) [.int 2147483647] = .ok w ∧
    w.terminated = true ∧
      ∀ (k : Param) (s : StringState) (p : ℕ) (l : List UInt8), StringAt s.mem p l →
        l.map Char.ofUInt8 = w.chars → exec (atoi k p) s = .ok (2147483647, s) :=
  atoi_sprintf (by decide) (by decide)

end Results
end KmallocKfree.CString
