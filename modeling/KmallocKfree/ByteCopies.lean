import KmallocKfree.ByteMemory

/-!
# Copies between memories

A block of one memory copied into another one. Copying it word by word, or in parts one after
the other, is the same.
-/
namespace KmallocKfree.ByteMemory

/-- The `n` bytes of `d` from `b` on, copied to `a`. -/
def copy (d : Mem) (b a n : ℕ) (m : Mem) : Mem := fun x =>
  if a ≤ x ∧ x < a + n then d (b + (x - a)) else m x

variable {d m m' : Mem} {a b k n x : ℕ} {v : UInt8}

theorem copy_outside (h : x < a ∨ a + n ≤ x) : copy d b a n m x = m x := by
  simp only [copy]
  rw [if_neg (by omega)]

theorem copy_inside (h : k < n) : copy d b a n m (a + k) = d (b + k) := by
  simp only [copy]
  rw [if_pos ⟨by omega, by omega⟩, Nat.add_sub_cancel_left]

theorem copy_zero : copy d b a 0 m = m := by
  ext x : 1
  exact copy_outside (by omega)

/-- Two adjacent blocks, one after the other. -/
theorem copy_copy (d : Mem) (b a n k : ℕ) (m : Mem) :
    copy d (b + n) (a + n) k (copy d b a n m) = copy d b a (n + k) m := by
  ext x : 1
  simp only [copy]
  by_cases hx : a + n ≤ x
  · by_cases hk : x < a + n + k
    · rw [if_pos ⟨hx, hk⟩, if_pos ⟨by omega, by omega⟩]
      congr 1
      omega
    · rw [if_neg (by omega), if_neg (by omega), if_neg (by omega)]
  · rw [if_neg (by omega)]
    by_cases ha : a ≤ x
    · rw [if_pos ⟨ha, by omega⟩, if_pos ⟨ha, by omega⟩]
    · rw [if_neg (by omega), if_neg (by omega)]

/-- A byte of a word. -/
theorem load_byte (m : Mem) (a : ℕ) (h : k < n) :
    UInt8.ofNat (load m a n / 256 ^ k) = m (a + k) := by
  induction k generalizing a n with
  | zero =>
    obtain ⟨n, rfl⟩ : ∃ i, n = i + 1 := ⟨n - 1, by omega⟩
    have hbyte : (m a).toNat < 256 := (m a).toNat_lt
    apply UInt8.toNat_inj.mp
    simp only [load, pow_zero, Nat.div_one, UInt8.toNat_ofNat', Nat.add_zero]
    omega
  | succ k ih =>
    obtain ⟨n, rfl⟩ : ∃ i, n = i + 1 := ⟨n - 1, by omega⟩
    have hbyte : (m a).toNat < 256 := (m a).toNat_lt
    have hrest : load m a (n + 1) / 256 = load m (a + 1) n := by
      simp only [load]
      omega
    rw [pow_succ, Nat.mul_comm, ← Nat.div_div_eq_div_mul, hrest, ih (a + 1) (by omega)]
    congr 1
    omega

/-- A word that is loaded and stored is a block that is copied. -/
theorem store_load (d : Mem) (b a n : ℕ) (m : Mem) : store m a n (load d b n) = copy d b a n m := by
  ext x : 1
  simp only [store, copy]
  split_ifs with hx
  · exact load_byte d b (by omega)
  · rfl

/-- A load that finds the same bytes elsewhere. -/
theorem load_shift (h : ∀ i < n, m (a + i) = m' (b + i)) : load m a n = load m' b n := by
  induction n generalizing a b with
  | zero => rfl
  | succ n ih =>
    have hhead : m a = m' b := h 0 (by omega)
    have htail : load m (a + 1) n = load m' (b + 1) n := ih fun i hi => by
      have := h (i + 1) (by omega)
      rwa [show a + 1 + i = a + (i + 1) by omega, show b + 1 + i = b + (i + 1) by omega]
    simp only [load, hhead, htail]

/-- A byte, and then the bytes behind it. -/
theorem fill_succ (m : Mem) (a n : ℕ) (v : UInt8) :
    fill (fun x => if x = a then v else m x) (a + 1) n v = fill m a (n + 1) v := by
  ext x : 1
  simp only [fill]
  by_cases hx : x = a
  · rw [if_neg (by omega), if_pos hx, if_pos ⟨by omega, by omega⟩]
  · by_cases hin : a + 1 ≤ x ∧ x < a + 1 + n
    · rw [if_pos hin, if_pos ⟨by omega, by omega⟩]
    · rw [if_neg hin, if_neg hx, if_neg (by omega)]

end KmallocKfree.ByteMemory
