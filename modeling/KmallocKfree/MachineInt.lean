import Mathlib.Data.Int.Basic
import Mathlib.Tactic.SplitIfs

/-!
# Two's complement integers and 64-bit addresses

Machine words are naturals below a power of two; an `int` is an integer, stored
as its 32-bit pattern. Conversions and pointer arithmetic wrap as in C on a
64-bit target, so a negative `int` added to a pointer goes down, and compared
with a `size_t` it is a huge number.
-/
namespace KmallocKfree

/-- A 32-bit pattern read as an `int`. -/
def toInt (w : ℕ) : ℤ := if w < 2147483648 then (w : ℤ) else (w : ℤ) - 4294967296

/-- The 32-bit pattern of an integer: conversion to `int` or `unsigned`. -/
def toWord (i : ℤ) : ℕ := (i % 4294967296).toNat

/-- Conversion of an `int` to `size_t` or `uintptr_t`, with sign extension. -/
def toSize (i : ℤ) : ℕ := (i % 18446744073709551616).toNat

/-- Conversion to `int`. -/
def wrapInt (i : ℤ) : ℤ := toInt (toWord i)

def addPtr (p n : ℕ) : ℕ := (p + n) % 18446744073709551616

def subPtr (p n : ℕ) : ℕ := (p + (18446744073709551616 - n % 18446744073709551616)) %
  18446744073709551616

theorem toWord_lt (i : ℤ) : toWord i < 4294967296 := by
  unfold toWord
  omega

theorem toInt_bounds {w : ℕ} (h : w < 4294967296) :
    -2147483648 ≤ toInt w ∧ toInt w < 2147483648 := by
  unfold toInt
  split_ifs <;> omega

/-- An integer in range survives being stored as an `int`. -/
theorem toInt_toWord {i : ℤ} (h : -2147483648 ≤ i) (h' : i < 2147483648) :
    toInt (toWord i) = i := by
  unfold toInt toWord
  split_ifs <;> omega

theorem wrapInt_of_range {i : ℤ} (h : -2147483648 ≤ i) (h' : i < 2147483648) : wrapInt i = i :=
  toInt_toWord h h'

theorem wrapInt_natCast {n : ℕ} (h : n < 2147483648) : wrapInt (n : ℤ) = n :=
  wrapInt_of_range (by omega) (by omega)

theorem wrapInt_add (i j : ℤ) : wrapInt (wrapInt i + j) = wrapInt (i + j) := by
  unfold wrapInt toInt toWord
  split_ifs <;> omega

theorem wrapInt_eq_iff (i j : ℤ) : wrapInt i = wrapInt j ↔ (4294967296 : ℤ) ∣ i - j := by
  unfold wrapInt toInt toWord
  split_ifs <;> omega

theorem wrapInt_lt (i : ℤ) : wrapInt i < 2147483648 := (toInt_bounds (toWord_lt i)).2

theorem wrapInt_le (n : ℕ) : wrapInt n ≤ n := by
  unfold wrapInt toInt toWord
  split_ifs <;> omega

theorem toSize_natCast {n : ℕ} (h : n < 18446744073709551616) : toSize (n : ℤ) = n := by
  unfold toSize
  omega

theorem addPtr_of_lt {p n : ℕ} (h : p + n < 18446744073709551616) : addPtr p n = p + n :=
  Nat.mod_eq_of_lt h

theorem subPtr_of_le {p n : ℕ} (h : n ≤ p) (h' : p < 18446744073709551616) :
    subPtr p n = p - n := by
  unfold subPtr
  omega

section Addresses

variable {p i j : ℕ}

theorem addPtr_lt : addPtr p i < 18446744073709551616 := Nat.mod_lt _ (by omega)

theorem addPtr_zero (h : p < 18446744073709551616) : addPtr p 0 = p := addPtr_of_lt h

theorem addPtr_addPtr : addPtr (addPtr p i) j = addPtr p (i + j) := by
  unfold addPtr
  omega

theorem subPtr_addPtr : subPtr (addPtr p (i + 1)) 1 = addPtr p i := by
  unfold subPtr addPtr
  omega

/-- The bytes of a block have different addresses. -/
theorem addPtr_inj (hi : i < 18446744073709551616) (hj : j < 18446744073709551616)
    (h : addPtr p i = addPtr p j) : i = j := by
  unfold addPtr at h
  omega

end Addresses
end KmallocKfree
