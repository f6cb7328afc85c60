import Mathlib.Tactic.Ring
import Mathlib.Tactic.SplitIfs
import Mathlib.Tactic.Linarith
import Mathlib.Tactic.Positivity

/-!
# Division by shifting and subtracting

Quotient and remainder of a number grow from those of its leading bits, one bit
at a time. Two registers of `w` bits carry this: the remainder so far, and a
register that gives the unread bits at its top and takes up the quotient at its
bottom, one bit late because the newest bit waits in a carry.
-/
namespace KmallocKfree

section Prefixes

variable {p b d : ℕ}

theorem mod_two_mul_add (hb : b < 2) (hd : 0 < d) :
    (2 * p + b) % d = if d ≤ 2 * (p % d) + b then 2 * (p % d) + b - d else 2 * (p % d) + b := by
  have hlt := Nat.mod_lt p hd
  have hsplit : 2 * p + b = 2 * (p % d) + b + d * (2 * (p / d)) := by
    conv_lhs => rw [← Nat.mod_add_div p d]
    ring
  rw [hsplit, Nat.add_mul_mod_self_left]
  split_ifs with h
  · rw [Nat.mod_eq_sub_mod h, Nat.mod_eq_of_lt (by omega)]
  · exact Nat.mod_eq_of_lt (by omega)

theorem div_two_mul_add (hb : b < 2) (hd : 0 < d) :
    (2 * p + b) / d = 2 * (p / d) + if d ≤ 2 * (p % d) + b then 1 else 0 := by
  have hlt := Nat.mod_lt p hd
  have hsplit : 2 * p + b = 2 * (p % d) + b + d * (2 * (p / d)) := by
    conv_lhs => rw [← Nat.mod_add_div p d]
    ring
  rw [hsplit, Nat.add_mul_div_left _ _ hd, add_comm]
  congr 1
  split_ifs with h
  · rw [Nat.div_eq_sub_div hd h, Nat.div_eq_of_lt (by omega)]
  · exact Nat.div_eq_of_lt (by omega)

end Prefixes

/-- The registers when the last `k` bits of the dividend `n` are still unread. -/
structure Dividing (w n d k q r c : ℕ) : Prop where
  rem : r = n / 2 ^ k % d
  quot : q = n % 2 ^ k * 2 ^ (w - k) + n / 2 ^ k / d / 2
  carry : c = n / 2 ^ k / d % 2

namespace Dividing

variable {w n d k q r c : ℕ}

theorem prefix_succ (n k : ℕ) : n / 2 ^ k = 2 * (n / 2 ^ (k + 1)) + n / 2 ^ k % 2 := by
  rw [pow_succ, ← Nat.div_div_eq_div_mul]
  omega

theorem suffix_succ (n k : ℕ) : n % 2 ^ (k + 1) = n / 2 ^ k % 2 * 2 ^ k + n % 2 ^ k := by
  rw [pow_succ, Nat.mod_mul]
  ring

/-- Leading bits that are below the divisor leave nothing in the quotient. -/
theorem start (hw : k ≤ w) (h : n / 2 ^ k < d) :
    Dividing w n d k (n * 2 ^ (w - k) % 2 ^ w) (n / 2 ^ k) 0 := by
  have hpow : 2 ^ w = 2 ^ k * 2 ^ (w - k) := by rw [← pow_add, Nat.add_sub_cancel' hw]
  refine ⟨(Nat.mod_eq_of_lt h).symm, ?_, ?_⟩
  · rw [hpow, Nat.mul_mod_mul_right, Nat.div_eq_of_lt h]
    rfl
  · rw [Nat.div_eq_of_lt h]

/-- The top bit of the quotient register is the next bit of the dividend. -/
theorem top (h : Dividing w n d (k + 1) q r c) (hn : n < 2 ^ w) (hk : k < w) :
    q / 2 ^ (w - 1) = n / 2 ^ k % 2 ∧ q % 2 ^ (w - 1) * 2 + c =
      n % 2 ^ k * 2 ^ (w - k) + n / 2 ^ (k + 1) / d := by
  have hw : 2 ^ (w - 1) = 2 ^ k * 2 ^ (w - (k + 1)) := by rw [← pow_add]; congr 1; omega
  have hwk : 2 ^ (w - k) = 2 ^ (w - (k + 1)) * 2 := by rw [← pow_succ]; congr 1; omega
  have hquot : n / 2 ^ (k + 1) / d / 2 < 2 ^ (w - (k + 1)) := by
    have hpre : n / 2 ^ (k + 1) < 2 ^ (w - (k + 1)) := by
      rw [Nat.div_lt_iff_lt_mul (by positivity), ← pow_add]
      rwa [Nat.sub_add_cancel (by omega)]
    have := Nat.div_le_self (n / 2 ^ (k + 1)) d
    have := Nat.div_le_self (n / 2 ^ (k + 1) / d) 2
    omega
  have hlow : n % 2 ^ k * 2 ^ (w - (k + 1)) + n / 2 ^ (k + 1) / d / 2 < 2 ^ (w - 1) := by
    have hlt : n % 2 ^ k + 1 ≤ 2 ^ k := Nat.mod_lt _ (by positivity)
    calc n % 2 ^ k * 2 ^ (w - (k + 1)) + n / 2 ^ (k + 1) / d / 2
        < n % 2 ^ k * 2 ^ (w - (k + 1)) + 2 ^ (w - (k + 1)) := by omega
      _ = (n % 2 ^ k + 1) * 2 ^ (w - (k + 1)) := by ring
      _ ≤ 2 ^ k * 2 ^ (w - (k + 1)) := Nat.mul_le_mul_right _ hlt
      _ = 2 ^ (w - 1) := hw.symm
  have hq : q = n / 2 ^ k % 2 * 2 ^ (w - 1) +
      (n % 2 ^ k * 2 ^ (w - (k + 1)) + n / 2 ^ (k + 1) / d / 2) := by
    rw [h.quot, suffix_succ, hw]
    ring
  have hpos : 0 < 2 ^ (w - 1) := by positivity
  constructor
  · rw [hq, Nat.mul_comm, Nat.mul_add_div hpos, Nat.div_eq_of_lt hlow, Nat.add_zero]
  · rw [hq, Nat.mul_comm (n / 2 ^ k % 2), Nat.mul_add_mod, Nat.mod_eq_of_lt hlow, h.carry, hwk]
    have := Nat.div_add_mod (n / 2 ^ (k + 1) / d) 2
    linarith

/-- One bit: both registers move up by one, and the divisor is taken off where it
fits. -/
theorem step (h : Dividing w n d (k + 1) q r c) (hn : n < 2 ^ w) (hk : k < w) (hd : 0 < d) :
    Dividing w n d k (q % 2 ^ (w - 1) * 2 + c)
      (if d ≤ 2 * r + q / 2 ^ (w - 1) then 2 * r + q / 2 ^ (w - 1) - d
        else 2 * r + q / 2 ^ (w - 1))
      (if d ≤ 2 * r + q / 2 ^ (w - 1) then 1 else 0) := by
  obtain ⟨htop, hrest⟩ := h.top hn hk
  have hb : n / 2 ^ k % 2 < 2 := Nat.mod_lt _ (by omega)
  have hdiv := div_two_mul_add (p := n / 2 ^ (k + 1)) hb hd
  have hmod := mod_two_mul_add (p := n / 2 ^ (k + 1)) hb hd
  rw [← prefix_succ] at hdiv hmod
  rw [htop, h.rem, hrest]
  refine ⟨hmod.symm, ?_, ?_⟩
  · rw [hdiv]
    split_ifs <;> omega
  · rw [hdiv]
    split_ifs <;> omega

/-- The remainder with the next bit is at most twice the divisor. -/
theorem next_lt (h : Dividing w n d (k + 1) q r c) (hn : n < 2 ^ w) (hk : k < w) (hd : 0 < d) :
    2 * r + q / 2 ^ (w - 1) < 2 * d := by
  have hlt : r < d := h.rem ▸ Nat.mod_lt _ hd
  have := (h.top hn hk).1
  omega

/-- With nothing unread the registers hold the result. -/
theorem done (h : Dividing w n d 0 q r c) : r = n % d ∧ 2 * q + c = n / d := by
  have hq := h.quot
  have hc := h.carry
  have hr := h.rem
  simp only [pow_zero, Nat.div_one, Nat.mod_one, Nat.zero_mul, Nat.zero_add] at hq hc hr
  exact ⟨hr, by omega⟩

end Dividing
end KmallocKfree
