import KmallocKfree.IntegerOutput

/-!
# The hexadecimal printer

`%x` counts the digits of an `unsigned long` by repeated division and divides by falling
powers of 16. The largest power is 16^15, so that no power wraps, and what is printed is the
numeral in capital letters. All addresses that are printed go through it.
-/
namespace KmallocKfree

/-- The hexadecimal numeral, in capital letters. -/
def hexNumeral (x : ℕ) : List Char := (Nat.toDigits 16 x).map Char.toUpper

/-- The digits in the order of their values. -/
def hexAlphabet : List Char :=
  ['0', '1', '2', '3', '4', '5', '6', '7', '8', '9', 'A', 'B', 'C', 'D', 'E', 'F']

/-- The number that hexadecimal digits stand for. -/
def readHex (l : List Char) : ℕ := l.foldl (fun n c => 16 * n + hexAlphabet.idxOf c) 0

/-- `l` is the canonical numeral of `x`. -/
structure IsHexNumeral (x : ℕ) (l : List Char) : Prop where
  digits : ∀ c ∈ l, c ∈ hexAlphabet
  value : readHex l = x
  ne_nil : l ≠ []
  /-- There is no leading zero. -/
  head : l.head? = some '0' → l = ['0']

/-- A hexadecimal digit as it is printed. -/
def hexChar (d : ℕ) : Char := if d ≤ 9 then toChar (d + 48) else toChar (d - 10 + 65 : ℕ)

variable {s : Printer} {fmt p : List Char} {ap pArgs : List Arg} {x d k v : ℕ}

section Digits

theorem hexChar_eq (h : d < 16) : hexChar d = d.digitChar.toUpper := by
  match d with
  | 0 | 1 | 2 | 3 | 4 | 5 | 6 | 7 | 8 | 9 | 10 | 11 | 12 | 13 | 14 | 15 => rfl
  | _ + 16 => omega

theorem idxOf_hexChar (h : d < 16) : hexAlphabet.idxOf (hexChar d) = d := by
  match d with
  | 0 | 1 | 2 | 3 | 4 | 5 | 6 | 7 | 8 | 9 | 10 | 11 | 12 | 13 | 14 | 15 => rfl
  | _ + 16 => omega

theorem mem_hexAlphabet (h : d < 16) : hexChar d ∈ hexAlphabet := by
  apply List.idxOf_lt_length_iff.mp
  rw [idxOf_hexChar h]
  exact h

theorem hexChar_eq_zero (h : d < 16) : hexChar d = '0' ↔ d = 0 := by
  constructor
  · intro hzero
    rw [← idxOf_hexChar h, hzero]
    rfl
  · intro hzero
    rw [hzero]
    rfl

/-- The numeral, digit by digit. -/
theorem hexNumeral_eq (x : ℕ) : hexNumeral x =
    (leadingDigits 16 (Nat.toDigits 16 x).length x).map hexChar := by
  have hdigits := map_leadingDigits (show 1 < 16 by omega) x
  have hlt : ∀ d ∈ leadingDigits 16 (Nat.toDigits 16 x).length x, d < 16 := fun d hd =>
    lt_of_mem_leadingDigits (lt_pow_length (by omega) x) hd
  rw [hexNumeral]
  nth_rewrite 1 [← hdigits]
  rw [List.map_map]
  apply List.map_congr_left
  intro d hd
  exact (hexChar_eq (hlt d hd)).symm

theorem length_hexNumeral : (hexNumeral x).length = (Nat.toDigits 16 x).length :=
  List.length_map _

theorem readHex_map {l : List ℕ} (hl : ∀ d ∈ l, d < 16) :
    readHex (l.map hexChar) = l.foldl (fun n d => 16 * n + d) 0 := by
  rw [readHex]
  generalize 0 = n
  induction l generalizing n with
  | nil => rfl
  | cons d l ih =>
    rw [List.map_cons, List.foldl_cons, List.foldl_cons, idxOf_hexChar (hl d List.mem_cons_self)]
    exact ih (fun e he => hl e (List.mem_cons_of_mem _ he)) _

/-- The numeral is canonical, and reads back as the number. -/
theorem isHexNumeral (x : ℕ) : IsHexNumeral x (hexNumeral x) := by
  have hlt : ∀ d ∈ leadingDigits 16 (Nat.toDigits 16 x).length x, d < 16 := fun d hd =>
    lt_of_mem_leadingDigits (lt_pow_length (by omega) x) hd
  refine ⟨?_, ?_, ?_, ?_⟩
  · rw [hexNumeral_eq]
    intro c hc
    obtain ⟨d, hd, rfl⟩ := List.mem_map.mp hc
    exact mem_hexAlphabet (hlt d hd)
  · rw [hexNumeral_eq, readHex_map hlt, foldl_leadingDigits (lt_pow_length (by omega) x)]
    omega
  · intro hnil
    exact Nat.toDigits_ne_nil (List.map_eq_nil_iff.mp hnil)
  · intro hhead
    by_cases hzero : x = 0
    · subst hzero
      rfl
    · rw [hexNumeral_eq, List.head?_map] at hhead
      obtain ⟨d, hd, hchar⟩ := Option.map_eq_some_iff.mp hhead
      obtain rfl := (hexChar_eq_zero (hlt d (List.mem_of_head? hd))).mp hchar
      exact absurd hd (head_leadingDigits (by omega) hzero)

end Digits

section Printer

/-- As long as the powers do not wrap, the loop prints the leading digits. -/
theorem hexDigits_eq (hv : v < 16 ^ k) (hpow : 16 ^ (k - 1) < 18446744073709551616) :
    hexDigits k v s =
      { s with out := s.out ++ (leadingDigits 16 k v).map hexChar, cnt := 0 } := by
  induction k generalizing v s with
  | zero => simp [hexDigits, leadingDigits]
  | succ k ih =>
    have hpow : 16 ^ k < 18446744073709551616 := hpow
    have hmod : v % 16 ^ k < 16 ^ k := Nat.mod_lt _ (Nat.pow_pos (by omega))
    have hsmaller : 16 ^ (k - 1) ≤ 16 ^ k := Nat.pow_le_pow_right (by omega) (by omega)
    have hchar : (if v / 16 ^ k ≤ 9 then toChar ((v / 16 ^ k : ℕ) + 48)
        else toChar ((v / 16 ^ k : ℕ) - 10 + 65)) = hexChar (v / 16 ^ k) := by
      unfold hexChar
      split_ifs with hle
      · rfl
      · congr 1
        omega
    rw [hexDigits, mPowN_eq hpow, hchar, ih hmod (lt_of_le_of_lt hsmaller hpow), leadingDigits]
    simp [Printer.emit]

/-- No power up to the number of digits wraps. -/
theorem pow_lt_size (hx : x < 18446744073709551616) (hk : k < (Nat.toDigits 16 x).length) :
    16 ^ k < 18446744073709551616 := by
  have hlen : (Nat.toDigits 16 x).length ≤ 16 :=
    (Nat.length_toDigits_le_iff (by omega) (by omega)).mpr hx
  calc 16 ^ k ≤ 16 ^ 15 := Nat.pow_le_pow_right (by omega) (by omega)
    _ < 18446744073709551616 := by norm_num

/-- In every round of every call, `%x` prints the numeral of its argument, adds its length to
the count and leaves the digit counter at 0; and no power of 16 on the way wraps. -/
theorem hex_exact (hx : x < 18446744073709551616)
    (hs : AtRound printfRound (.start fmt pArgs) s) (hp : s.pStr = '%' :: 'x' :: p)
    (hap : s.ap = .long x :: ap) :
    printfConversion 'x' s.next = .ok ⟨p, ap, s.out ++ hexNumeral x,
        wrapInt (s.retNum + (hexNumeral x).length), 0⟩ ∧
      IsHexNumeral x (hexNumeral x) ∧
      ∀ k < (hexNumeral x).length, mPowN 16 k = 16 ^ k := by
  refine ⟨?_, isHexNumeral x, fun k hk => mPowN_eq (pow_lt_size hx (length_hexNumeral ▸ hk))⟩
  have hcnt := atRound_printf hs
  obtain ⟨pStr, ap', out, ret, cnt⟩ := s
  obtain rfl : cnt = 0 := hcnt
  obtain rfl : pStr = '%' :: 'x' :: p := hp
  obtain rfl : ap' = .long x :: ap := hap
  have hcount : (if x ≠ 0 then countDigits 16 64 x 0 else 1) = (Nat.toDigits 16 x).length := by
    split_ifs with hzero
    · rw [countDigits_eq (by omega) hzero (lt_of_lt_of_le hx (by norm_num)), Nat.zero_add]
    · obtain rfl : x = 0 := not_not.mp hzero
      rfl
  have hlast : 16 ^ ((Nat.toDigits 16 x).length - 1) < 18446744073709551616 :=
    pow_lt_size hx (Nat.sub_lt Nat.length_toDigits_pos (by omega))
  simp only [printfConversion, vaLong, Printer.next, List.tail_cons, bind, Except.bind, hcount]
  rw [hexDigits_eq (lt_pow_length (by omega) x) hlast, ← hexNumeral_eq]
  simp only [Printer.count, length_hexNumeral, List.tail_cons]

/-- The largest value. -/
theorem hex_exact_max :
    printfConversion 'x' (Printer.next (.start ['%', 'x', '\n'] [.long 18446744073709551615])) =
      .ok ⟨['\n', nul], [], [] ++ hexNumeral 18446744073709551615,
        wrapInt (0 + (hexNumeral 18446744073709551615).length), 0⟩ ∧
      IsHexNumeral 18446744073709551615 (hexNumeral 18446744073709551615) ∧
      ∀ k < (hexNumeral 18446744073709551615).length, mPowN 16 k = 16 ^ k :=
  hex_exact (by decide) .start rfl rfl

end Printer
end KmallocKfree
