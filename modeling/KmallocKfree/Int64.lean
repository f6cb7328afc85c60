import Mathlib.Data.Nat.Notation

/-!
# Division of 64-bit integers on a 32-bit machine

`int64.c`: the routines that the compiler calls for `/` and `%` on `long long` and for
counting zeros. A word is a bit vector, read as an integer where it is signed. Signed
arithmetic wraps and a signed right shift repeats the sign, as the file assumes; a division
by zero, a shift by the width or more and a bit count of zero leave the behaviour undefined.
-/
namespace KmallocKfree.Int64

inductive Undefined where
  | divisionByZero
  | shiftTooFar
  | bitCountOfZero
  deriving DecidableEq

/-- `dwords` and `udwords`. -/
structure Dwords where
  low : BitVec 32
  high : BitVec 32

def Dwords.all (x : Dwords) : BitVec 64 := x.high ++ x.low

def Dwords.ofAll (a : BitVec 64) : Dwords := ⟨a.setWidth 32, (a >>> 32).setWidth 32⟩

section Operators

variable (x y : BitVec 32)

/-- `x / y`. -/
def div : Except Undefined (BitVec 32) := if y = 0 then throw .divisionByZero else pure (x / y)

/-- `x % y`. -/
def mod : Except Undefined (BitVec 32) := if y = 0 then throw .divisionByZero else pure (x % y)

/-- `x << y`. -/
def shl : Except Undefined (BitVec 32) :=
  if y < 32 then pure (x <<< y.toNat) else throw .shiftTooFar

/-- `x >> y`. -/
def shr : Except Undefined (BitVec 32) :=
  if y < 32 then pure (x >>> y.toNat) else throw .shiftTooFar

/-- `__builtin_clz`. -/
def clz : Except Undefined (BitVec 32) := if x = 0 then throw .bitCountOfZero else pure x.clz

/-- `__builtin_ctz`. -/
def ctz : Except Undefined (BitVec 32) := if x = 0 then throw .bitCountOfZero else pure x.ctz

/-- `x == 0`, as an integer. -/
def isZero : BitVec 32 := if x = 0 then 1 else 0

end Operators

/-- What the loop of `__udivmoddi4` keeps. -/
structure Registers where
  q : Dwords
  r : Dwords
  carry : BitVec 32

/-- One round: `r:q = ((r:q) << 1) | carry`, then `r -= d` if that leaves no borrow. -/
def divRound (d : Dwords) (x : Registers) : Registers :=
  let rHigh := (x.r.high <<< 1) ||| (x.r.low >>> 31)
  let rLow := (x.r.low <<< 1) ||| (x.q.high >>> 31)
  let qHigh := (x.q.high <<< 1) ||| (x.q.low >>> 31)
  let qLow := (x.q.low <<< 1) ||| x.carry
  let r : Dwords := ⟨rLow, rHigh⟩
  let s := (d.all - r.all - 1).sshiftRight 63
  ⟨⟨qLow, qHigh⟩, .ofAll (r.all - (d.all &&& s)), (s &&& 1).setWidth 32⟩

/-- `for (; sr > 0; --sr)`. -/
def divLoop (d : Dwords) : ℕ → Registers → Registers
  | 0, x => x
  | sr + 1, x => divLoop d sr (divRound d x)

/-- `if (rem) *rem = v`. -/
def store (rem : Bool) (v : Except Undefined (BitVec 64)) :
    Except Undefined (Option (BitVec 64)) :=
  if rem then some <$> v else pure none

/-- The loop of `__udivmoddi4` and what follows it. -/
def divRest (d q r : Dwords) (sr : BitVec 32) (rem : Bool) :
    Except Undefined (BitVec 64 × Option (BitVec 64)) := do
  let x := divLoop d sr.toNat ⟨q, r, 0⟩
  let m ← store rem (pure x.r.all)
  pure ((x.q.all <<< 1) ||| x.carry.setWidth 64, m)

/-- `__udivmoddi4`; `rem` tells whether the pointer of that name is not null. The answer is
the quotient and what is stored through the pointer. -/
def udivmoddi4 (a b : BitVec 64) (rem : Bool) :
    Except Undefined (BitVec 64 × Option (BitVec 64)) := do
  let n := Dwords.ofAll a
  let d := Dwords.ofAll b
  if n.high = 0 then
    if d.high = 0 then
      let m ← store rem (BitVec.setWidth 64 <$> mod n.low d.low)
      let q ← div n.low d.low
      return (q.setWidth 64, m)
    else
      let m ← store rem (pure (n.low.setWidth 64))
      return (0, m)
  else if d.low = 0 then
    if d.high = 0 then
      let m ← store rem (BitVec.setWidth 64 <$> mod n.high d.low)
      let q ← div n.high d.low
      return (q.setWidth 64, m)
    else if n.low = 0 then
      let m ← store rem ((fun h => Dwords.all ⟨0, h⟩) <$> mod n.high d.high)
      let q ← div n.high d.high
      return (q.setWidth 64, m)
    else if d.high &&& (d.high - 1) = 0 then
      let m ← store rem (pure (Dwords.all ⟨n.low, n.high &&& (d.high - 1)⟩))
      let q ← shr n.high (← ctz d.high)
      return (q.setWidth 64, m)
    else
      let sr := (← clz d.high) - (← clz n.high)
      if 30 < sr then
        let m ← store rem (pure n.all)
        return (0, m)
      else
        let sr := sr + 1
        let q : Dwords := ⟨0, ← shl n.low (32 - sr)⟩
        let r : Dwords := ⟨(← shl n.high (32 - sr)) ||| (← shr n.low sr), ← shr n.high sr⟩
        divRest d q r sr rem
  else if d.high = 0 then
    if d.low &&& (d.low - 1) = 0 then
      let m ← store rem (pure ((n.low &&& (d.low - 1)).setWidth 64))
      if d.low = 1 then
        return (n.all, m)
      else
        let sr ← ctz d.low
        let q : Dwords := ⟨(← shl n.high (32 - sr)) ||| (← shr n.low sr), ← shr n.high sr⟩
        return (q.all, m)
    else
      let sr := 1 + 32 + (← clz d.low) - (← clz n.high)
      if sr = 32 then
        divRest d ⟨0, n.low⟩ ⟨n.high, 0⟩ sr rem
      else if sr < 32 then
        let q : Dwords := ⟨0, ← shl n.low (32 - sr)⟩
        let r : Dwords := ⟨(← shl n.high (32 - sr)) ||| (← shr n.low sr), ← shr n.high sr⟩
        divRest d q r sr rem
      else
        let q : Dwords :=
          ⟨← shl n.low (64 - sr), (← shl n.high (64 - sr)) ||| (← shr n.low (sr - 32))⟩
        let r : Dwords := ⟨← shr n.high (sr - 32), 0⟩
        divRest d q r sr rem
  else
    let sr := (← clz d.high) - (← clz n.high)
    if 31 < sr then
      let m ← store rem (pure n.all)
      return (0, m)
    else
      let sr := sr + 1
      if sr = 32 then
        divRest d ⟨0, n.low⟩ ⟨n.high, 0⟩ sr rem
      else
        let q : Dwords := ⟨0, ← shl n.low (32 - sr)⟩
        let r : Dwords := ⟨(← shl n.high (32 - sr)) ||| (← shr n.low sr), ← shr n.high sr⟩
        divRest d q r sr rem

/-- `__udivdi3`. -/
def udivdi3 (a b : BitVec 64) : Except Undefined (BitVec 64) := do
  let x ← udivmoddi4 a b false
  pure x.1

/-- `__umoddi3`; `r` is what it holds if nothing is stored. -/
def umoddi3 (a b r : BitVec 64) : Except Undefined (BitVec 64) := do
  let x ← udivmoddi4 a b true
  pure (x.2.getD r)

/-- `(a ^ s) - s`: the negative of `a` if `s` is -1. -/
def negateIf (s a : BitVec 64) : BitVec 64 := (a ^^^ s) - s

/-- `__divdi3`. -/
def divdi3 (a b : BitVec 64) : Except Undefined (BitVec 64) := do
  let sa := a.sshiftRight 63
  let sb := b.sshiftRight 63
  let a := negateIf sa a
  let b := negateIf sb b
  let sa := sa ^^^ sb
  let x ← udivmoddi4 a b false
  pure (negateIf sa x.1)

/-- `__divmoddi4`: the quotient and `*rem`. -/
def divmoddi4 (a b : BitVec 64) : Except Undefined (BitVec 64 × BitVec 64) := do
  let d ← divdi3 a b
  pure (d, a - d * b)

/-- `__moddi3`; `r` is what it holds if nothing is stored. -/
def moddi3 (a b r : BitVec 64) : Except Undefined (BitVec 64) := do
  let s := b.sshiftRight 63
  let b := negateIf s b
  let s := a.sshiftRight 63
  let a := negateIf s a
  let x ← udivmoddi4 a b true
  pure (negateIf s (x.2.getD r))

/-- `__clzsi2`. -/
def clzsi2 (a : BitVec 32) : BitVec 32 :=
  let x := a
  let t := isZero (x &&& 0xFFFF0000) <<< 4
  let x := x >>> (16 - t)
  let r := t
  let t := isZero (x &&& 0xFF00) <<< 3
  let x := x >>> (8 - t)
  let r := r + t
  let t := isZero (x &&& 0xF0) <<< 2
  let x := x >>> (4 - t)
  let r := r + t
  let t := isZero (x &&& 0xC) <<< 1
  let x := x >>> (2 - t)
  let r := r + t
  r + ((2 - x) &&& -isZero (x &&& 2))

/-- `__ctzsi2`. -/
def ctzsi2 (a : BitVec 32) : BitVec 32 :=
  let x := a
  let t := isZero (x &&& 0x0000FFFF) <<< 4
  let x := x >>> t
  let r := t
  let t := isZero (x &&& 0x00FF) <<< 3
  let x := x >>> t
  let r := r + t
  let t := isZero (x &&& 0x0F) <<< 2
  let x := x >>> t
  let r := r + t
  let t := isZero (x &&& 0x3) <<< 1
  let x := x >>> t
  let x := x &&& 3
  let r := r + t
  r + ((2 - (x >>> 1)) &&& -isZero (x &&& 1))

/-- `__ctzdi2`. -/
def ctzdi2 (a : BitVec 64) : BitVec 32 :=
  let x := Dwords.ofAll a
  let f := -isZero x.low
  ctzsi2 ((x.high &&& f) ||| (x.low &&& ~~~f)) + (f &&& 32)

/-- `__clzdi2`. -/
def clzdi2 (a : BitVec 64) : BitVec 32 :=
  let x := Dwords.ofAll a
  let f := -isZero x.high
  clzsi2 ((x.high &&& ~~~f) ||| (x.low &&& f)) + (f &&& 32)

end KmallocKfree.Int64
