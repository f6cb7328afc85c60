import KmallocKfree.Stdio
import Mathlib.Data.List.TakeWhile

/-!
# Formats and what they expand to

A format is a list of items, each an ordinary character or a conversion; with an argument
for each conversion it is a list of pieces, and the output is the pieces' expansion. For
an `int` that is its decimal numeral. `vsprintf` stores the expansion.
-/
namespace KmallocKfree

/-- The formats of ordinary characters, `%%`, `%d`, `%c` and `%s`. -/
inductive Item where
  | lit (c : Char)
  | percent
  | int
  | char
  | str
  deriving DecidableEq

/-- An item and its argument. -/
inductive Piece where
  | lit (c : Char)
  | percent
  | int (i : ℤ)
  | char (i : ℤ)
  | str (l : List Char)
  deriving DecidableEq

/-- Neither the end of the format nor the start of a conversion. -/
def Item.Ordinary : Item → Prop
  | .lit c => c ≠ nul ∧ c ≠ '%'
  | _ => True

def Item.text : Item → List Char
  | .lit c => [c]
  | .percent => ['%', '%']
  | .int => ['%', 'd']
  | .char => ['%', 'c']
  | .str => ['%', 's']

namespace Piece

def item : Piece → Item
  | .lit c => .lit c
  | .percent => .percent
  | .int _ => .int
  | .char _ => .char
  | .str _ => .str

def args : Piece → List Arg
  | .int i => [.int i]
  | .char i => [.int i]
  | .str l => [.str l]
  | _ => []

end Piece

/-- The characters of a C string. -/
def cString (l : List Char) : List Char := l.takeWhile fun c => decide (c ≠ nul)

/-- The characters that `while (cnt)` emits. -/
def digitChars (base : ℕ) : ℕ → ℤ → List Char
  | 0, _ => []
  | cnt + 1, argIntVal =>
    toChar ((toSize argIntVal / mPowN base cnt : ℕ) + 48) ::
      digitChars base cnt (wrapInt (toSize argIntVal % mPowN base cnt : ℕ))

/-- What `%d` emits. -/
def printed (i : ℤ) : List Char :=
  if i < 0 then '-' :: digitChars 10 (digitCount 10 (wrapInt (-i)) 0) (wrapInt (-i))
  else digitChars 10 (digitCount 10 i 0) i

/-- What a piece expands to. -/
def Piece.expand : Piece → List Char
  | .lit c => [c]
  | .percent => ['%']
  | .int i => printed i
  | .char i => [toChar i]
  | .str l => cString l

/-- No `INT_MIN`, and no NUL in what is printed. -/
def Piece.Proper : Piece → Prop
  | .int i => -2147483648 < i ∧ i < 2147483648
  | .char i => toChar i ≠ nul
  | .str l => nul ∉ l
  | _ => True

/-- The argument of a `%d` is an `int`. -/
def Piece.IsInt : Piece → Prop
  | .int i => -2147483648 ≤ i ∧ i < 2147483648
  | _ => True

/-- The format string, without its NUL. -/
def text (fs : List Item) : List Char := fs.flatMap Item.text

def arguments (ps : List Piece) : List Arg := ps.flatMap Piece.args

def expansion (ps : List Piece) : List Char := ps.flatMap Piece.expand

/-- The items of the pieces. -/
def format (ps : List Piece) : List Item := ps.map Piece.item

section Lists

variable {x : Piece} {y : Item} {ps : List Piece} {fs : List Item}

@[simp] theorem text_nil : text [] = [] := rfl
@[simp] theorem text_cons : text (y :: fs) = y.text ++ text fs := List.flatMap_cons
@[simp] theorem arguments_cons : arguments (x :: ps) = x.args ++ arguments ps := List.flatMap_cons
@[simp] theorem expansion_cons : expansion (x :: ps) = x.expand ++ expansion ps :=
  List.flatMap_cons
@[simp] theorem format_cons : format (x :: ps) = x.item :: format ps := rfl

@[simp] theorem Item.text_lit (c : Char) : (Item.lit c).text = [c] := rfl
@[simp] theorem Item.text_percent : Item.percent.text = ['%', '%'] := rfl
@[simp] theorem Piece.args_lit (c : Char) : (Piece.lit c).args = [] := rfl
@[simp] theorem Piece.args_percent : Piece.percent.args = [] := rfl
@[simp] theorem Piece.expand_lit (c : Char) : (Piece.lit c).expand = [c] := rfl
@[simp] theorem Piece.expand_percent : Piece.percent.expand = ['%'] := rfl

/-- An ordinary character, or a percent sign and the character of the conversion. -/
theorem Item.text_cases (hy : y.Ordinary) :
    (∃ c, c ≠ nul ∧ c ≠ '%' ∧ y = .lit c ∧ y.text = [c]) ∨ ∃ d, y.text = ['%', d] := by
  cases y with
  | lit c => exact .inl ⟨c, hy.1, hy.2, rfl, rfl⟩
  | percent => exact .inr ⟨'%', rfl⟩
  | int => exact .inr ⟨'d', rfl⟩
  | char => exact .inr ⟨'c', rfl⟩
  | str => exact .inr ⟨'s', rfl⟩

end Lists

section Arithmetic

theorem mPowN_eq {m n : ℕ} (h : m ^ n < 18446744073709551616) : mPowN m n = m ^ n := by
  induction n with
  | zero => rfl
  | succ n ih =>
    by_cases hm : m = 0
    · simp [mPowN, hm]
    · have hle : m ^ n ≤ m ^ (n + 1) := Nat.pow_le_pow_right (Nat.pos_of_ne_zero hm) (Nat.le_succ n)
      rw [mPowN, ih (lt_of_le_of_lt hle h), ← Nat.pow_succ, Nat.mod_eq_of_lt h]

end Arithmetic

section Numbers

variable {base cnt : ℕ} {i : ℤ} {n v : ℕ} {s : Printer}

@[simp] theorem length_digitChars : (digitChars base cnt i).length = cnt := by
  induction cnt generalizing i with
  | zero => rfl
  | succ cnt ih => simp [digitChars, ih]

theorem toChar_digit {d : ℕ} (h : d < 10) : toChar ((d : ℤ) + 48) = d.digitChar := by
  match d with
  | 0 | 1 | 2 | 3 | 4 | 5 | 6 | 7 | 8 | 9 => rfl
  | _ + 10 => omega

/-- As long as the powers do not wrap, the digits of a nonnegative `int`. -/
theorem digitChars_eq (hbase : 1 < base) (hten : base ≤ 10) (hv : v < base ^ cnt)
    (hint : v < 2147483648) (hpow : base ^ (cnt - 1) < 18446744073709551616) :
    digitChars base cnt v = (leadingDigits base cnt v).map Nat.digitChar := by
  induction cnt generalizing v with
  | zero => rfl
  | succ cnt ih =>
    have hsize : toSize (v : ℤ) = v := toSize_natCast (by omega)
    have hpow : base ^ cnt < 18446744073709551616 := hpow
    have hpos : 0 < base ^ cnt := Nat.pow_pos (by omega)
    have hmod := Nat.mod_lt v hpos
    have hle := Nat.mod_le v (base ^ cnt)
    have hdigit : v / base ^ cnt < base := by
      apply Nat.div_lt_of_lt_mul
      rwa [← Nat.pow_succ]
    have hsmaller : base ^ (cnt - 1) ≤ base ^ cnt := Nat.pow_le_pow_right (by omega) (by omega)
    rw [digitChars, hsize, mPowN_eq hpow, wrapInt_natCast (by omega),
      toChar_digit (by omega), ih hmod (by omega) (lt_of_le_of_lt hsmaller hpow)]
    rfl

theorem digitCount_eq (hbase : 1 < base) (hv : v < 2147483648) :
    digitCount base v 0 = (Nat.toDigits base v).length := by
  have hsize : toSize (v : ℤ) = v := toSize_natCast (by omega)
  have hfuel : v < base ^ 64 := by
    have htwo : 2 ^ 64 ≤ base ^ 64 := Nat.pow_le_pow_left hbase 64
    omega
  rw [digitCount, hsize]
  split_ifs with hzero
  · rw [countDigits_eq hbase (by omega) hfuel, Nat.zero_add]
  · obtain rfl : v = 0 := by omega
    rw [Nat.toDigits_zero]
    rfl

/-- The counted digits of a nonnegative `int` are its numeral. -/
theorem digitChars_numeral (hbase : 1 < base) (hten : base ≤ 10) (hv : v < 2147483648) :
    digitChars base (digitCount base v 0) v = Nat.toDigits base v := by
  have hpow : base ^ ((Nat.toDigits base v).length - 1) < 18446744073709551616 := by
    by_cases hzero : v = 0
    · subst hzero
      rw [Nat.toDigits_zero, List.length_singleton, Nat.sub_self, Nat.pow_zero]
      decide
    · exact lt_of_le_of_lt (pow_length_le hbase hzero) (by omega)
  rw [digitCount_eq hbase hv, digitChars_eq hbase hten (lt_pow_length hbase v) hv hpow,
    map_leadingDigits hbase]

/-- `%d` prints the decimal numeral. -/
theorem printed_eq (h : -2147483648 < i) (h' : i < 2147483648) :
    printed i = if i < 0 then '-' :: Nat.toDigits 10 i.natAbs else Nat.toDigits 10 i.natAbs := by
  unfold printed
  split_ifs with hneg
  · have habs : -i = (i.natAbs : ℤ) := by omega
    have hlt : i.natAbs < 2147483648 := by omega
    rw [wrapInt_of_range (by omega) (by omega), habs, digitChars_numeral (by omega) le_rfl hlt]
  · have habs : i = (i.natAbs : ℤ) := by omega
    nth_rewrite 1 [habs]
    nth_rewrite 2 [habs]
    exact digitChars_numeral (by omega) le_rfl (by omega)

theorem nul_not_mem_toDigits : nul ∉ Nat.toDigits 10 v := by
  intro h
  have hdigit := Nat.isDigit_of_mem_toDigits (by omega) le_rfl h
  revert hdigit
  decide

theorem nul_not_mem_printed (h : -2147483648 ≤ i) (h' : i < 2147483648) : nul ∉ printed i := by
  by_cases hmin : i = -2147483648
  · subst hmin
    decide +kernel
  rw [printed_eq (by omega) h']
  split_ifs
  · intro hmem
    obtain hminus | hmem := List.mem_cons.mp hmem
    · revert hminus
      decide
    · exact nul_not_mem_toDigits hmem
  · exact nul_not_mem_toDigits

end Numbers

section Strings

variable {l : List Char}

theorem strlen_eq : strlen l = (cString l).length := by
  induction l with
  | nil => rfl
  | cons c l ih =>
    rw [strlen, cString, List.takeWhile_cons]
    by_cases hc : c = nul
    · simp [hc]
    · rw [if_neg hc, if_pos (by simpa using hc), List.length_cons, ih]
      rfl

theorem nul_not_mem_cString : nul ∉ cString l := by
  intro hmem
  exact absurd (List.mem_takeWhile_imp hmem) (by decide)

theorem cString_of_not_mem (h : nul ∉ l) : cString l = l := by
  rw [cString, List.takeWhile_eq_self_iff]
  intro c hc
  have hne : c ≠ nul := fun heq => h (heq ▸ hc)
  simpa using hne

theorem strlen_of_not_mem (h : nul ∉ l) : strlen l = l.length := by
  rw [strlen_eq, cString_of_not_mem h]

end Strings

section Emission

variable {base cnt n : ℕ} {i : ℤ} {l p : List Char} {s : Printer} {c : Char}

theorem intDigits_emit : intDigits emitChar base cnt i s =
    .ok { s with out := s.out ++ digitChars base cnt i, cnt := 0 } := by
  induction cnt generalizing i s with
  | zero => simp [intDigits, digitChars]
  | succ cnt ih =>
    simp only [intDigits, emitChar, bind, Except.bind, ih, Printer.emit, digitChars,
      List.append_assoc, List.singleton_append]

theorem putString_emit : putString emitChar l s = .ok { s with out := s.out ++ cString l } := by
  induction l generalizing s with
  | nil => simp [putString, cString]
  | cons c l ih =>
    rw [putString, cString, List.takeWhile_cons]
    by_cases hc : c = nul
    · simp [hc]
    · rw [if_neg hc, if_pos (by simpa using hc)]
      simp only [emitChar, bind, Except.bind, ih, Printer.emit, List.append_assoc,
        List.singleton_append]
      rfl

/-- One round of a scan. -/
theorem scan_cons {body : Char → Printer → Except Exit Printer} (hp : s.pStr = c :: p)
    (hc : c ≠ nul) : scan body (n + 1) s = (do let s ← body c s; scan body n s) := by
  simp only [scan, Printer.char, hp, bind, Except.bind, if_neg hc]

theorem scan_end {body : Char → Printer → Except Exit Printer} (hp : s.pStr = nul :: p) :
    scan body (n + 1) s = .ok s := by
  simp only [scan, Printer.char, hp, bind, Except.bind, if_true]

end Emission

section Vsprintf

variable {ps : List Piece} {x : Piece} {rest out : List Char} {ap : List Arg} {ret : ℤ} {n : ℕ}

theorem vsprintf_int (p : List Char) (i : ℤ) : ∃ ret',
    vsprintfConversion 'd' ⟨p, .int i :: ap, out, ret, 0⟩ =
      .ok ⟨p, ap, out ++ printed i, ret', 0⟩ := by
  unfold printed
  by_cases hneg : i < 0
  · have hconv : vsprintfConversion 'd' ⟨p, .int i :: ap, out, ret, 0⟩ =
        intDigits emitChar 10 (digitCount 10 (wrapInt (-i)) 0) (wrapInt (-i))
          ⟨p, ap, out ++ ['-'], wrapInt (wrapInt (ret + 1) + digitCount 10 (wrapInt (-i)) 0),
            0⟩ := by
      simp only [vsprintfConversion, vaInt, bind, Except.bind, if_pos hneg]
      rfl
    refine ⟨wrapInt (wrapInt (ret + 1) + digitCount 10 (wrapInt (-i)) 0), ?_⟩
    rw [hconv, intDigits_emit, if_pos hneg]
    simp only [List.append_assoc, List.singleton_append]
  · have hconv : vsprintfConversion 'd' ⟨p, .int i :: ap, out, ret, 0⟩ =
        intDigits emitChar 10 (digitCount 10 i 0) i
          ⟨p, ap, out, wrapInt (ret + digitCount 10 i 0), 0⟩ := by
      simp only [vsprintfConversion, vaInt, bind, Except.bind, if_neg hneg]
      rfl
    rw [hconv, intDigits_emit, if_neg hneg]
    exact ⟨_, rfl⟩

/-- The conversion of a piece stores its expansion. -/
theorem vsprintf_conversion {d : Char} (hx : x.item.text = ['%', d]) : ∃ ret',
    vsprintfConversion d ⟨d :: rest, x.args ++ ap, out, ret, 0⟩ =
      .ok ⟨d :: rest, ap, out ++ x.expand, ret', 0⟩ := by
  cases x with
  | lit c => cases hx
  | percent =>
    cases hx
    exact ⟨_, rfl⟩
  | char i =>
    cases hx
    exact ⟨_, rfl⟩
  | str l =>
    cases hx
    exact ⟨_, putString_emit⟩
  | int i =>
    cases hx
    exact vsprintf_int _ i

/-- `vsprintf` stores the expansion of a piece in one round. -/
theorem vsprintf_piece (hx : x.item.Ordinary) : ∃ ret',
    scan vsprintfRound (n + 1) ⟨x.item.text ++ rest, x.args ++ ap, out, ret, 0⟩ =
      scan vsprintfRound n ⟨rest, ap, out ++ x.expand, ret', 0⟩ := by
  obtain ⟨c, hnul, hpercent, hc, -⟩ | ⟨d, hd⟩ := Item.text_cases hx
  · cases x with
    | lit c' =>
      cases hc
      refine ⟨wrapInt (ret + 1), ?_⟩
      rw [scan_cons (c := c) rfl hnul]
      unfold vsprintfRound
      split
      · contradiction
      · rfl
    | percent => cases hc
    | int i => cases hc
    | char i => cases hc
    | str l => cases hc
  · obtain ⟨ret', hconv⟩ := @vsprintf_conversion x rest out ap ret d hd
    refine ⟨ret', ?_⟩
    rw [hd, scan_cons (c := '%') rfl (by decide)]
    have hround : vsprintfRound '%' ⟨'%' :: d :: rest, x.args ++ ap, out, ret, 0⟩ = (do
        let s ← vsprintfConversion d ⟨d :: rest, x.args ++ ap, out, ret, 0⟩
        .ok s.next) := rfl
    change (do let s ← vsprintfRound '%' ⟨'%' :: d :: rest, x.args ++ ap, out, ret, 0⟩; _) = _
    rw [hround, hconv]
    rfl

/-- The scan of a format stores the expansions of its pieces. -/
theorem scan_vsprintf (hps : ∀ x ∈ ps, x.item.Ordinary)
    (hfuel : (text (format ps)).length < n) : ∃ ret',
    scan vsprintfRound n ⟨text (format ps) ++ [nul], arguments ps ++ ap, out, ret, 0⟩ =
      .ok ⟨[nul], ap, out ++ expansion ps, ret', 0⟩ := by
  induction ps generalizing n out ret with
  | nil =>
    obtain ⟨n, rfl⟩ : ∃ m, n = m + 1 := ⟨n - 1, by simp [text, format] at hfuel; omega⟩
    refine ⟨ret, ?_⟩
    rw [scan_end (p := []) rfl]
    simp [text, format, arguments, expansion]
  | cons x ps ih =>
    have hx := hps x List.mem_cons_self
    have hpos : 0 < x.item.text.length := by
      obtain ⟨c, -, -, -, hc⟩ | ⟨d, hd⟩ := Item.text_cases hx
      · simp [hc]
      · simp [hd]
    simp only [format_cons, text_cons, List.length_append] at hfuel
    obtain ⟨n, rfl⟩ : ∃ m, n = m + 1 := ⟨n - 1, by omega⟩
    obtain ⟨ret₁, hpiece⟩ := @vsprintf_piece x (text (format ps) ++ [nul]) out
      (arguments ps ++ ap) ret n hx
    obtain ⟨ret₂, hrest⟩ := @ih (out ++ x.expand) ret₁ n
      (fun y hy => hps y (List.mem_cons_of_mem _ hy)) (by omega)
    refine ⟨ret₂, ?_⟩
    simp only [format_cons, text_cons, arguments_cons, expansion_cons, List.append_assoc]
      at hpiece hrest ⊢
    rw [hpiece, hrest]

/-- `vsprintf` stores the expansion of the format and ends it with a NUL. It returns the
length as `strlen` finds it, unless that is 0. -/
theorem vsprintf_eq (hps : ∀ x ∈ ps, x.item.Ordinary) :
    vsprintf (some (text (format ps))) (arguments ps) =
      .ok ⟨expansion ps, true, if wrapInt (strlen (expansion ps)) ≠ 0
        then some (wrapInt (strlen (expansion ps))) else none⟩ := by
  obtain ⟨ret, hscan⟩ := @scan_vsprintf ps [] [] 0 _ hps (Nat.lt_succ_self _)
  rw [List.append_nil] at hscan
  simp only [vsprintf, Printer.start, bind, Except.bind, hscan, List.nil_append]

/-- Only a `%c` can print a NUL. -/
theorem nul_mem_expand (hord : x.item.Ordinary) (hint : x.IsInt) :
    nul ∈ x.expand ↔ ∃ i, x = .char i ∧ toChar i = nul := by
  constructor
  · intro hmem
    cases x with
    | lit c =>
      obtain rfl := List.mem_singleton.mp hmem
      exact absurd rfl hord.1
    | percent => exact absurd hmem (by decide)
    | int i => exact absurd hmem (nul_not_mem_printed hint.1 hint.2)
    | char i => exact ⟨i, rfl, (List.mem_singleton.mp hmem).symm⟩
    | str l => exact absurd hmem nul_not_mem_cString
  · rintro ⟨i, rfl, hi⟩
    exact List.mem_singleton.mpr hi.symm

theorem Piece.Proper.isInt (h : x.Proper) : x.IsInt := by
  cases x with
  | int i => exact ⟨h.1.le, h.2⟩
  | lit c => trivial
  | percent => trivial
  | char i => trivial
  | str l => trivial

/-- What is printed of proper pieces holds no NUL. -/
theorem nul_not_mem_expansion (hps : ∀ x ∈ ps, x.item.Ordinary ∧ x.Proper) :
    nul ∉ expansion ps := by
  intro hmem
  obtain ⟨x, hx, hmem⟩ := List.mem_flatMap.mp hmem
  obtain ⟨hord, hprop⟩ := hps x hx
  obtain ⟨i, rfl, hi⟩ := (nul_mem_expand hord hprop.isInt).mp hmem
  exact hprop hi

end Vsprintf
end KmallocKfree
