import KmallocKfree.Congruential

/-!
# `rand`

`stdlib.c`: a linear congruential generator on `unsigned long`, which has `bits` bits, whose
outputs are the 15 bits from bit 16 on. Bits above the 31st have no influence on them; within
`2 ^ 31` calls each output comes `2 ^ 16` times, and they do not repeat earlier.
-/
namespace KmallocKfree.Rand

open Congruential

/-- The value that `rand` returns, and `next`. -/
def rand (bits next : ℕ) : ℕ × ℕ :=
  let next := (next * 1103515245 + 12345) % 2 ^ bits
  (next / 65536 % 4294967296 % 32768, next)

/-- `next` after `srand`; a `seed` is an `unsigned int`. -/
def srand (bits seed : ℕ) : ℕ := seed % 4294967296 % 2 ^ bits

/-- `next` after `n` calls of `rand`. -/
def after (bits next : ℕ) : ℕ → ℕ
  | 0 => next
  | n + 1 => (rand bits (after bits next n)).2

/-- What call `n` returns, from 0 on. -/
def draw (bits next n : ℕ) : ℕ := (rand bits (after bits next n)).1

variable {bits next n k v : ℕ}

theorem after_mod (bits next n : ℕ) :
    after bits next n % 2 ^ bits = state 1103515245 12345 next n % 2 ^ bits := by
  induction n with
  | zero => rfl
  | succ n ih =>
    have hstep : (after bits next n * 1103515245 + 12345) % 2 ^ bits =
        (state 1103515245 12345 next n * 1103515245 + 12345) % 2 ^ bits :=
      Nat.ModEq.add_right _ (Nat.ModEq.mul_right _ ih)
    rw [after, rand, state, Nat.mod_mod, hstep, Nat.mul_comm]

/-- An output has bits 16 to 30 of the sequence. -/
theorem draw_eq (hb : 31 ≤ bits) (next n : ℕ) :
    draw bits next n = state 1103515245 12345 next (n + 1) % 2 ^ 31 / 65536 := by
  obtain ⟨k, rfl⟩ := Nat.exists_eq_add_of_le hb
  have hnext : (rand (31 + k) (after (31 + k) next n)).2 % 2 ^ 31 =
      state 1103515245 12345 next (n + 1) % 2 ^ 31 := by
    have hmod := congrArg (· % 2 ^ 31) (after_mod (31 + k) next (n + 1))
    simp only [pow_add, Nat.mod_mul_right_mod] at hmod
    exact hmod
  have hdraw : draw (31 + k) next n =
      (rand (31 + k) (after (31 + k) next n)).2 / 65536 % 4294967296 % 32768 := rfl
  rw [hdraw, ← hnext]
  omega

theorem count_range (hv : v < 32768) :
    ((Finset.range (2 ^ 31)).filter fun x => x / 65536 = v).card = 65536 := by
  have hico : ((Finset.range (2 ^ 31)).filter fun x => x / 65536 = v) =
      Finset.Ico (v * 65536) (v * 65536 + 65536) := by
    ext x
    simp only [Finset.mem_filter, Finset.mem_range, Finset.mem_Ico]
    omega
  rw [hico, Nat.card_Ico]
  omega

/-- In `2 ^ 31` calls, from any call on, every output comes `2 ^ 16` times. -/
theorem draws_even (hb : 31 ≤ bits) (next n : ℕ) (hv : v < 32768) :
    ((Finset.range (2 ^ 31)).filter fun i => draw bits next (n + i) = v).card = 65536 := by
  have hcount := count_state (a := 1103515245) (c := 12345) (x := next) (n := n + 1) (w := 31)
    (by norm_num) (by norm_num) (fun x => x / 65536 = v)
  rw [count_range hv] at hcount
  rw [← hcount]
  refine congrArg Finset.card (Finset.filter_congr fun i _ => ?_)
  rw [draw_eq hb, Nat.add_right_comm]

/-- When the outputs repeat after some number of calls, they repeat after its multiples. -/
theorem repeat_mul (h : ∀ n, draw bits next (n + k) = draw bits next n) (u : ℕ) :
    draw bits next (n + k * u) = draw bits next n := by
  induction u with
  | zero => rfl
  | succ u ih => rw [Nat.mul_succ, ← Nat.add_assoc, h, ih]

/-- A step of half the period changes bit 30, and with it the output. -/
theorem draw_half (hb : 31 ≤ bits) (hk : 2 ^ 30 ∣ k) (hnot : ¬ 2 ^ 31 ∣ k) :
    draw bits next (n + k) ≠ draw bits next n := by
  intro heq
  have hlow := (state_mod_iff (a := 1103515245) (c := 12345) (x := next) (n := n + 1) (w := 30)
    (by norm_num) (by norm_num)).mpr hk
  have hhigh := mt (state_mod_iff (a := 1103515245) (c := 12345) (x := next) (n := n + 1)
    (w := 31) (by norm_num) (by norm_num)).mp hnot
  rw [draw_eq hb, draw_eq hb, Nat.add_right_comm n k 1] at heq
  omega

/-- The outputs repeat after the multiples of `2 ^ 31` calls and no other number of them; and in
`2 ^ 31` calls, from any call on, each of the 32768 outputs comes `2 ^ 16` times. -/
theorem rand_cycle (hb : 31 ≤ bits) (seed : ℕ) :
    (∀ k, (∀ n, draw bits (srand bits seed) (n + k) = draw bits (srand bits seed) n) ↔
      2 ^ 31 ∣ k) ∧
    ∀ n, ∀ v < 32768, ((Finset.range (2 ^ 31)).filter fun i =>
      draw bits (srand bits seed) (n + i) = v).card = 65536 := by
  refine ⟨fun k => ⟨fun h => ?_, fun hk n => ?_⟩, fun n v hv => draws_even hb _ n hv⟩
  · by_contra hnot
    obtain ⟨u, hu, hunot⟩ := exists_half hnot
    exact draw_half (n := 0) hb hu hunot (repeat_mul h u)
  · have hstate := (state_mod_iff (a := 1103515245) (c := 12345) (x := srand bits seed)
      (n := n + 1) (w := 31) (by norm_num) (by norm_num)).mpr hk
    rw [draw_eq hb, draw_eq hb, Nat.add_right_comm n k 1, hstate]

/-- On 64 bits. -/
theorem rand_cycle_long :
    (∀ k, (∀ n, draw 64 (srand 64 1) (n + k) = draw 64 (srand 64 1) n) ↔ 2 ^ 31 ∣ k) ∧
    ∀ n, ∀ v < 32768, ((Finset.range (2 ^ 31)).filter fun i =>
      draw 64 (srand 64 1) (n + i) = v).card = 65536 :=
  rand_cycle (by decide) 1

end KmallocKfree.Rand
