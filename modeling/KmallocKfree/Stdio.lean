import KmallocKfree.MachineInt
import KmallocKfree.Numerals

/-!
# Formatted output

`printf`, `vsprintf` and `vsnprintf` of `stdio.c`. The three scan the format through a
pointer `pStr`, which is here the list of the characters from the pointer on, with the NUL
that ends the format: behind the NUL the list is empty, and reading there is an overrun.
`int` has 32 bits and wraps, `unsigned long` and `size_t` have 64.
-/
namespace KmallocKfree

/-- `'\0'`. -/
def nul : Char := '\x00'

/-- The characters of a C string end at its first NUL; one stands behind the list. -/
def strlen : List Char → ℕ
  | [] => 0
  | c :: l => if c = nul then 0 else strlen l + 1

/-- Conversion to `char`. -/
def toChar (i : ℤ) : Char := Char.ofNat (i % 256).toNat

/-- `ret *= m`, `n` times from 1, for an `unsigned long`. -/
def mPowN (m : ℕ) : ℕ → ℕ
  | 0 => 1
  | n + 1 => mPowN m n * m % 18446744073709551616

/-- An argument of a variadic function. -/
inductive Arg where
  | int (i : ℤ)
  | long (v : ℕ)
  | str (s : List Char)
  deriving DecidableEq

inductive Exit where
  /-- A character behind the end of the format is read. -/
  | overrun
  /-- `va_arg` finds no argument, or one of another type. -/
  | argument
  /-- `vsnprintf` returns in the middle of the format. -/
  | returned (out : List Char) (retNum : ℤ)
  deriving DecidableEq

structure Printer where
  pStr : List Char
  ap : List Arg
  /-- What was handed to `putch`, or stored from `out` on. -/
  out : List Char
  retNum : ℤ
  cnt : ℕ
  deriving DecidableEq

section Steps

/-- `*pStr`. -/
def Printer.char (s : Printer) : Except Exit Char :=
  match s.pStr with
  | [] => .error .overrun
  | c :: _ => .ok c

/-- `pStr++`. -/
def Printer.next (s : Printer) : Printer := { s with pStr := s.pStr.tail }

/-- `putch(c)` and `*str_out++ = c`. -/
def Printer.emit (s : Printer) (c : Char) : Printer := { s with out := s.out ++ [c] }

/-- `ret_num += n`. -/
def Printer.count (s : Printer) (n : ℕ) : Printer :=
  { s with retNum := wrapInt (s.retNum + n) }

def vaInt (s : Printer) : Except Exit (ℤ × Printer) :=
  match s.ap with
  | .int i :: ap => .ok (i, { s with ap := ap })
  | _ => .error .argument

def vaLong (s : Printer) : Except Exit (ℕ × Printer) :=
  match s.ap with
  | .long v :: ap => .ok (v, { s with ap := ap })
  | _ => .error .argument

def vaStr (s : Printer) : Except Exit (List Char × Printer) :=
  match s.ap with
  | .str l :: ap => .ok (l, { s with ap := ap })
  | _ => .error .argument

/-- The digit counter after `while (val_seg)`, or 1 for the argument 0. An `unsigned long`
is 0 after 64 divisions at the latest. -/
def digitCount (base : ℕ) (argIntVal : ℤ) (cnt : ℕ) : ℕ :=
  if argIntVal ≠ 0 then countDigits base 64 (toSize argIntVal) cnt else 1

/-- `while (cnt)`, with `put` for each digit. -/
def intDigits (put : Char → Printer → Except Exit Printer) (base : ℕ) :
    ℕ → ℤ → Printer → Except Exit Printer
  | 0, _, s => .ok { s with cnt := 0 }
  | cnt + 1, argIntVal, s => do
    let valSeg := toSize argIntVal / mPowN base cnt
    let s ← put (toChar (valSeg + 48)) s
    intDigits put base cnt (wrapInt (toSize argIntVal % mPowN base cnt : ℕ)) s

/-- The digits of an `unsigned long` in base 16. -/
def hexDigits : ℕ → ℕ → Printer → Printer
  | 0, _, s => { s with cnt := 0 }
  | cnt + 1, argHexVal, s =>
    let valSeg := argHexVal / mPowN 16 cnt
    let s := s.emit (if valSeg ≤ 9 then toChar (valSeg + 48) else toChar (valSeg - 10 + 65))
    hexDigits cnt (argHexVal % mPowN 16 cnt) s

/-- `for (; *ArgStrVal != '\0'; ArgStrVal++)`, with `put` for each character. -/
def putString (put : Char → Printer → Except Exit Printer) :
    List Char → Printer → Except Exit Printer
  | [], s => .ok s
  | c :: l, s =>
    if c = nul then .ok s
    else do
      let s ← put c s
      putString put l s

/-- Go round until `pStr` is at the NUL. Each round moves the pointer on, so that there are
no more rounds than characters. -/
def scan (body : Char → Printer → Except Exit Printer) : ℕ → Printer → Except Exit Printer
  | 0, _ => .error .overrun
  | n + 1, s => do
    let c ← s.char
    if c = nul then .ok s
    else do
      let s ← body c s
      scan body n s

/-- The state before the first round. -/
def Printer.start (fmt : List Char) (ap : List Arg) : Printer := ⟨fmt ++ [nul], ap, [], 0, 0⟩

/-- Emit without a check. -/
def emitChar (c : Char) (s : Printer) : Except Exit Printer := .ok (s.emit c)

end Steps

section Printf

/-- The inner `switch`, with `pStr` behind the percent sign. -/
def printfConversion (c : Char) (s : Printer) : Except Exit Printer :=
  match c with
  | '%' => .ok ((s.emit c).count 1).next
  | 'c' => do
    let (argIntVal, s) ← vaInt s
    .ok ((s.emit (toChar argIntVal)).next.count 1)
  | 'x' => do
    let (argHexVal, s) ← vaLong s
    let cnt := if argHexVal ≠ 0 then countDigits 16 64 argHexVal s.cnt else 1
    .ok (hexDigits cnt argHexVal (s.count cnt)).next
  | 'b' => do
    let (argIntVal, s) ← vaInt s
    let cnt := digitCount 2 argIntVal s.cnt
    let s ← intDigits emitChar 2 cnt argIntVal (s.count cnt)
    .ok s.next
  | 'd' => do
    let (argIntVal, s) ← vaInt s
    let (argIntVal, s) :=
      if argIntVal < 0 then (wrapInt (-argIntVal), (s.emit '-').count 1) else (argIntVal, s)
    let cnt := digitCount 10 argIntVal s.cnt
    let s ← intDigits emitChar 10 cnt argIntVal (s.count cnt)
    .ok s.next
  | 's' => do
    let (argStrVal, s) ← vaStr s
    let s ← putString emitChar argStrVal (s.count (strlen argStrVal))
    .ok s.next
  | _ => .ok s

/-- `default: putch(*pStr); ret_num++;`. -/
def printfDefault (s : Printer) : Except Exit Printer := do
  let c ← s.char
  .ok ((s.emit c).count 1)

/-- One round. The case of the percent sign has no `break`: it goes on into `default`. -/
def printfRound (c : Char) (s : Printer) : Except Exit Printer := do
  let s ←
    match c with
    | '\t' => .ok ((s.emit c).count 4)
    | '\r' => .ok ((s.emit c).count 1)
    | '\n' => .ok ((s.emit c).count 1)
    | '%' => do
      let s := s.next
      let c ← s.char
      let s ← printfConversion c s
      printfDefault s
    | _ => printfDefault s
  .ok s.next

/-- The characters handed to `putch`, and the count returned. -/
def printf : Option (List Char) → List Arg → Except Exit (List Char × ℤ)
  | none, _ => .ok ([], -1)
  | some fmt, pArgs => do
    let s ← scan printfRound (fmt.length + 1) (.start fmt pArgs)
    .ok (s.out, s.retNum)

end Printf

/-- What is in the buffer after a call: the characters stored from `out` on, whether a NUL
was stored behind them, and the value returned, none when an assertion failed. -/
structure Written where
  chars : List Char
  terminated : Bool
  ret : Option ℤ
  deriving DecidableEq

section Vsprintf

def vsprintfConversion (c : Char) (s : Printer) : Except Exit Printer :=
  match c with
  | '%' => .ok ((s.emit c).count 1)
  | 'd' => do
    let (argIntVal, s) ← vaInt s
    let (argIntVal, s) :=
      if argIntVal < 0 then (wrapInt (-argIntVal), (s.emit '-').count 1) else (argIntVal, s)
    let cnt := digitCount 10 argIntVal s.cnt
    intDigits emitChar 10 cnt argIntVal (s.count cnt)
  | 'c' => do
    let (argIntVal, s) ← vaInt s
    .ok ((s.emit (toChar argIntVal)).count 1)
  | 's' => do
    let (argStrVal, s) ← vaStr s
    putString emitChar argStrVal (s.count (strlen argStrVal))
  | _ => .ok s

def vsprintfRound (c : Char) (s : Printer) : Except Exit Printer := do
  let s ←
    match c with
    | '%' => do
      let s := s.next
      let c ← s.char
      vsprintfConversion c s
    | _ => .ok ((s.emit c).count 1)
  .ok s.next

/-- The assertion assigns `strlen(out)` to `ret_num` and fails when that is 0. -/
def vsprintf : Option (List Char) → List Arg → Except Exit Written
  | none, _ => .ok ⟨[], false, some (-1)⟩
  | some fmt, ap => do
    let s ← scan vsprintfRound (fmt.length + 1) (.start fmt ap)
    let retNum := wrapInt (strlen s.out)
    .ok ⟨s.out, true, if retNum ≠ 0 then some retNum else none⟩

def sprintf (fmt : Option (List Char)) (pArgs : List Arg) : Except Exit Written :=
  vsprintf fmt pArgs

end Vsprintf

section Vsnprintf

/-- `if (ret_num + 1 > n) return ret_num; *str_out++ = c; ret_num++;`. -/
def storeChar (n : ℕ) (c : Char) (s : Printer) : Except Exit Printer :=
  if n < toSize (wrapInt (s.retNum + 1)) then .error (.returned s.out s.retNum)
  else .ok ((s.emit c).count 1)

def vsnprintfConversion (n : ℕ) (c : Char) (s : Printer) : Except Exit Printer :=
  match c with
  | '%' => storeChar n c s
  | 'd' => do
    let (argIntVal, s) ← vaInt s
    let (argIntVal, s) ←
      if argIntVal < 0 then do
        let s ← storeChar n '-' s
        .ok (wrapInt (-argIntVal), s)
      else .ok (argIntVal, s)
    let cnt := digitCount 10 argIntVal s.cnt
    intDigits (storeChar n) 10 cnt argIntVal s
  | 'c' => do
    let (argIntVal, s) ← vaInt s
    storeChar n (toChar argIntVal) s
  | 's' => do
    let (argStrVal, s) ← vaStr s
    putString (storeChar n) argStrVal s
  | _ => .ok s

def vsnprintfRound (n : ℕ) (c : Char) (s : Printer) : Except Exit Printer := do
  let s ←
    match c with
    | '%' => do
      let s := s.next
      let c ← s.char
      vsnprintfConversion n c s
    | _ => storeChar n c s
  .ok s.next

/-- The way out at the end of the format stores a NUL and checks the count; the others
store none. -/
def vsnprintf (n : ℕ) : Option (List Char) → List Arg → Except Exit Written
  | none, _ => .ok ⟨[], false, some (-1)⟩
  | some fmt, ap =>
    match scan (vsnprintfRound n) (fmt.length + 1) (.start fmt ap) with
    | .error (.returned out retNum) => .ok ⟨out, false, some retNum⟩
    | .error e => .error e
    | .ok s =>
      let retNum := wrapInt (strlen s.out)
      .ok ⟨s.out, true, if retNum ≠ 0 ∧ toSize retNum ≤ n then some retNum else none⟩

def snprintf (n : ℕ) (fmt : Option (List Char)) (pArgs : List Arg) : Except Exit Written :=
  vsnprintf n fmt pArgs

end Vsnprintf
end KmallocKfree
