import KmallocKfree.MachineInt
import KmallocKfree.Program
import Mathlib.Logic.Function.Basic

/-!
# Strings and memory blocks

`string.c`. `memmove` and `memcpy` are functions on the memory. The functions on strings are
programs, so that one can say which bytes they read and write; a pointer's type names the
argument that it is made from. `char` is signed. A byte that the source reads twice with no
write in between may be read once, and `strlen` is called once for each string where the
source calls it once more for the second comparison.
-/
namespace KmallocKfree.CString

open Prog
open ByteMemory (Mem)

/-- The argument that a pointer is made from. -/
inductive Param where
  | dst
  | src
  | s1
  | s2
  deriving DecidableEq

inductive StringCheck where
  /-- `assert(dst != NULL && src != NULL)` and `assert(s1 != NULL && s2 != NULL)`. -/
  | argumentsNonNull
  /-- `assert(*s1 == *s2)`. -/
  | charsEqual
  /-- `assert(strlen(dst) == cnt)`. -/
  | lengthCopied
  /-- `assert(cnt <= n)`. -/
  | lengthBounded
  deriving DecidableEq

abbrev StringCode (α : Type) := Prog Param Empty Empty StringCheck α

abbrev StringState := Store Empty Empty

/-- A `char` is signed. -/
def schar (b : ℕ) : ℤ := if b < 128 then (b : ℤ) else (b : ℤ) - 256

/-- `*p`, for an `unsigned char`. -/
def readByte (k : Param) (p : ℕ) : StringCode ℕ := perform (.load k p 0 1)

/-- `*p = b`. -/
def writeByte (k : Param) (p b : ℕ) : StringCode Unit := do
  let _ ← perform (.store k p 0 1 b)
  pure ()

/-- `for (; *s; s++) i++;`. -/
def strlenRound (k : Param) (x : ℕ × ℕ) : StringCode (ℕ × ℕ ⊕ ℕ) := do
  let c ← readByte k x.1
  if c = 0 then pure (.inr x.2) else pure (.inl (addPtr x.1 1, addPtr x.2 1))

def strlen (k : Param) (s : ℕ) : StringCode ℕ :=
  if s = 0 then pure 0 else iterate (strlenRound k) loopBound (s, 0)

/-- One character of `strncpy`, with `_src`, `_dst` and `cnt`. -/
def strncpyRound (n : ℕ) (x : ℕ × ℕ × ℕ) : StringCode (ℕ × ℕ × ℕ ⊕ ℕ × ℕ) := do
  let c ← readByte .src x.1
  if c ≠ 0 ∧ addPtr x.2.2 1 ≤ n then do
    writeByte .dst x.2.1 c
    pure (.inl (addPtr x.1 1, addPtr x.2.1 1, addPtr x.2.2 1))
  else pure (.inr x.2)

def strncpy (dst src n : ℕ) : StringCode ℕ := do
  check .argumentsNonNull (dst ≠ 0 ∧ src ≠ 0)
  let last ← iterate (strncpyRound n) loopBound (src, dst, 0)
  writeByte .dst last.1 0
  let len ← strlen .dst dst
  check .lengthCopied (len = last.2)
  check .lengthBounded (last.2 ≤ n)
  pure dst

/-- The comparison of what is left, once one of the strings has ended. -/
def compareLengths (s1 s2 : ℕ) : StringCode ℤ := do
  let len2 ← strlen .s2 s2
  let len1 ← strlen .s1 s1
  if len1 < len2 then pure (-1) else if len2 < len1 then pure 1 else pure 0

/-- The `if` in the loop of `strcmp` and `strncmp`: return, or go on with `next`. -/
def compareChars {β : Type} (c1 c2 : ℕ) (next : β) : StringCode (β ⊕ ℤ) :=
  if schar c1 < schar c2 then pure (.inr (-1))
  else if schar c2 < schar c1 then pure (.inr 1)
  else do
    check .charsEqual (c1 = c2)
    pure (.inl next)

/-- The lines after the loop of `strcmp`. -/
def strcmpTail {β : Type} (s1 s2 : ℕ) : StringCode (β ⊕ ℤ) := do
  let r ← compareLengths s1 s2
  pure (.inr r)

def strcmpRound (x : ℕ × ℕ) : StringCode (ℕ × ℕ ⊕ ℤ) := do
  let c1 ← readByte .s1 x.1
  if c1 = 0 then strcmpTail x.1 x.2
  else do
    let c2 ← readByte .s2 x.2
    if c2 = 0 then strcmpTail x.1 x.2
    else compareChars c1 c2 (addPtr x.1 1, addPtr x.2 1)

def strcmp (s1 s2 : ℕ) : StringCode ℤ := do
  check .argumentsNonNull (s1 ≠ 0 ∧ s2 ≠ 0)
  iterate strcmpRound loopBound (s1, s2)

/-- The lines after the loop of `strncmp`. -/
def strncmpTail (n : ℕ) (x : ℕ × ℕ × ℤ) : StringCode (ℕ × ℕ × ℤ ⊕ ℤ) :=
  if n ≤ toSize x.2.2 then pure (.inr 0) else strcmpTail x.1 x.2.1

/-- `cnt` is an `int`, and is compared with `n` only after both characters are read. -/
def strncmpRound (n : ℕ) (x : ℕ × ℕ × ℤ) : StringCode (ℕ × ℕ × ℤ ⊕ ℤ) := do
  let c1 ← readByte .s1 x.1
  if c1 = 0 then strncmpTail n x
  else do
    let c2 ← readByte .s2 x.2.1
    if c2 = 0 then strncmpTail n x
    else if toSize x.2.2 < n then
      compareChars c1 c2 (addPtr x.1 1, addPtr x.2.1 1, wrapInt (x.2.2 + 1))
    else strncmpTail n x

def strncmp (s1 s2 n : ℕ) : StringCode ℤ := do
  check .argumentsNonNull (s1 ≠ 0 ∧ s2 ≠ 0)
  iterate (strncmpRound n) loopBound (s1, s2, 0)

/-- `res` is a `size_t`, and is returned as an `int`. -/
def memcmp : ℕ → ℕ → ℕ → StringCode ℤ
  | _, _, 0 => pure 0
  | su1, su2, n + 1 => do
    let c1 ← readByte .s1 su1
    let c2 ← readByte .s2 su2
    let res := toSize ((c1 : ℤ) - c2)
    if res ≠ 0 then pure (toInt (res % 4294967296))
    else memcmp (addPtr su1 1) (addPtr su2 1) n

section Blocks

/-- `while (n--) *d++ = *s++;`. The pointer `d` is returned. -/
def copyUp : ℕ → ℕ → ℕ → Mem → ℕ × Mem
  | 0, d, _, m => (d, m)
  | n + 1, d, s, m => copyUp n (addPtr d 1) (addPtr s 1) (Function.update m d (m s))

/-- `while (n--) *--d = *--s;`. -/
def copyDown : ℕ → ℕ → ℕ → Mem → Mem
  | 0, _, _, m => m
  | n + 1, d, s, m =>
    let d := subPtr d 1
    let s := subPtr s 1
    copyDown n d s (Function.update m d (m s))

/-- The pointer returned, and the memory. -/
def memmove (dst src n : ℕ) (m : Mem) : ℕ × Mem :=
  if dst ≤ src then (dst, (copyUp n dst src m).2)
  else (dst, copyDown n (addPtr dst n) (addPtr src n) m)

def memcpy (out src n : ℕ) (m : Mem) : ℕ × Mem := copyUp n out src m

end Blocks
end KmallocKfree.CString
