import Mathlib.Data.Nat.Basic
import Mathlib.Tactic.Ring
import Mathlib.Tactic.SplitIfs

/-!
# Byte-addressed memory

A memory maps every address to one byte. Words are read and written in little
endian order, so objects of different types may share their bytes: a load sees
exactly the bytes that the last store or fill over them left there.
-/
namespace KmallocKfree.ByteMemory

abbrev Mem := ℕ → UInt8

/-- The `n` bytes from `a` on, read as one little-endian number. -/
def load (m : Mem) (a : ℕ) : ℕ → ℕ
  | 0 => 0
  | n + 1 => (m a).toNat + 256 * load m (a + 1) n

/-- The low `n` bytes of `v` written from `a` on. -/
def store (m : Mem) (a n v : ℕ) : Mem := fun x =>
  if a ≤ x ∧ x < a + n then UInt8.ofNat (v / 256 ^ (x - a)) else m x

/-- The byte `b` written `n` times from `a` on. -/
def fill (m : Mem) (a n : ℕ) (b : UInt8) : Mem := fun x =>
  if a ≤ x ∧ x < a + n then b else m x

theorem store_outside {m : Mem} {a n v x : ℕ} (h : x < a ∨ a + n ≤ x) :
    store m a n v x = m x := by
  simp only [store]
  rw [if_neg (by omega)]

theorem fill_outside {m : Mem} {a n x : ℕ} {b : UInt8} (h : x < a ∨ a + n ≤ x) :
    fill m a n b x = m x := by
  simp only [fill]
  rw [if_neg (by omega)]

theorem fill_inside {m : Mem} {a n x : ℕ} {b : UInt8} (h : a ≤ x) (h' : x < a + n) :
    fill m a n b x = b := by
  simp only [fill]
  rw [if_pos ⟨h, h'⟩]

/-- A load reads only the bytes of its own range. -/
theorem load_congr {m m' : Mem} {a n : ℕ} (h : ∀ x, a ≤ x → x < a + n → m x = m' x) :
    load m a n = load m' a n := by
  induction n generalizing a with
  | zero => rfl
  | succ n ih =>
    have hhead : m a = m' a := h a le_rfl (by omega)
    have htail : load m (a + 1) n = load m' (a + 1) n :=
      ih (fun x h₁ h₂ => h x (by omega) (by omega))
    simp only [load, hhead, htail]

/-- Blank bytes read as 0. -/
theorem load_blank {m : Mem} {a n : ℕ} (h : ∀ x, a ≤ x → x < a + n → m x = 0) : load m a n = 0 := by
  induction n generalizing a with
  | zero => rfl
  | succ n ih =>
    have hhead : m a = 0 := h a le_rfl (by omega)
    have htail : load m (a + 1) n = 0 := ih fun x h₁ h₂ => h x (by omega) (by omega)
    simp only [load, hhead, htail]
    rfl

/-- Storing 0 over blank bytes changes nothing. -/
theorem store_blank {m : Mem} {a n : ℕ} (h : ∀ x, a ≤ x → x < a + n → m x = 0) :
    store m a n 0 = m := by
  funext x
  simp only [store]
  split_ifs with hx
  · rw [Nat.zero_div, h x hx.1 hx.2]
    rfl
  · rfl

theorem load_lt (m : Mem) (a n : ℕ) : load m a n < 256 ^ n := by
  induction n generalizing a with
  | zero => simp [load]
  | succ n ih =>
    have hbyte : (m a).toNat < 256 := (m a).toNat_lt
    have hrest := ih (a + 1)
    simp only [load, pow_succ]
    omega

theorem load_store_disjoint {m : Mem} {a n v b k : ℕ} (h : b + k ≤ a ∨ a + n ≤ b) :
    load (store m a n v) b k = load m b k :=
  load_congr fun _ h₁ h₂ => store_outside (by omega)

/-- Dropping the first byte of a stored word leaves the word of the quotient. -/
lemma load_store_tail (m : Mem) (a n v k : ℕ) (hk : k ≤ n) :
    load (store m a (n + 1) v) (a + 1) k = load (store m (a + 1) n (v / 256)) (a + 1) k := by
  apply load_congr
  intro x h₁ h₂
  have hpow : 256 ^ (x - a) = 256 * 256 ^ (x - (a + 1)) := by
    rw [show x - a = (x - (a + 1)) + 1 by omega, pow_succ]
    ring
  simp only [store]
  rw [if_pos ⟨by omega, by omega⟩, if_pos ⟨by omega, by omega⟩, hpow, Nat.div_div_eq_div_mul]

/-- A load sees the word stored over the same range. -/
theorem load_store_same (m : Mem) (a n v : ℕ) : load (store m a n v) a n = v % 256 ^ n := by
  induction n generalizing m a v with
  | zero => simp [load, Nat.mod_one]
  | succ n ih =>
    have hhead : (store m a (n + 1) v a).toNat = v % 256 := by
      simp [store]
    have htail : load (store m a (n + 1) v) (a + 1) n = v / 256 % 256 ^ n := by
      rw [load_store_tail m a n v n le_rfl, ih]
    simp only [load]
    rw [hhead, htail, pow_succ, Nat.mul_comm (256 ^ n) 256, Nat.mod_mul]

end KmallocKfree.ByteMemory
