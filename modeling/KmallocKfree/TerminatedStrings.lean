import KmallocKfree.Formats
import KmallocKfree.Strings

/-!
# Terminated strings in memory

A string occupies its characters and the NUL behind them, all at addresses below 2^64.
`strlen` reads just these bytes; and when it returns, it has read the byte behind any run of
characters that it started with.
-/
namespace KmallocKfree.CString

open Prog
open ByteMemory (Mem)

/-- The bytes of `l` stand from `p` on. -/
def BytesAt (m : Mem) (p : ℕ) : List UInt8 → Prop
  | [] => True
  | c :: l => m p = c ∧ BytesAt m (p + 1) l

/-- The string `l`, without its NUL, stands at `p`. -/
structure StringAt (m : Mem) (p : ℕ) (l : List UInt8) : Prop where
  ne_null : p ≠ 0
  bound : p + l.length < 18446744073709551616
  chars : 0 ∉ l
  bytes : BytesAt m p (l ++ [0])

/-- The bytes `a` at 100, the bytes `b` at 200, and zeros everywhere else. -/
def twoStrings (a b : List UInt8) : StringState where
  mem x := if x < 200 then if x < 100 then 0 else a.getD (x - 100) 0 else b.getD (x - 200) 0
  var := nofun
  lock := nofun

variable {m : Mem} {p n i cnt : ℕ} {c : UInt8} {l r : List UInt8} {k : Param}

section Bytes

@[simp] theorem bytesAt_nil : BytesAt m p [] := trivial

@[simp] theorem bytesAt_cons : BytesAt m p (c :: l) ↔ m p = c ∧ BytesAt m (p + 1) l := Iff.rfl

theorem bytesAt_append :
    BytesAt m p (l ++ r) ↔ BytesAt m p l ∧ BytesAt m (p + l.length) r := by
  induction l generalizing p with
  | nil => simp
  | cons c l ih =>
    have hadd : p + 1 + l.length = p + (c :: l).length := by
      rw [List.length_cons]
      omega
    simp only [List.cons_append, bytesAt_cons, ih, hadd, and_assoc]

/-- The bytes one by one. -/
theorem BytesAt.get (h : BytesAt m p l) (hi : i < l.length) : m (p + i) = l.getD i 0 := by
  induction l generalizing p i with
  | nil => exact absurd hi (Nat.not_lt_zero i)
  | cons c l ih =>
    obtain ⟨hc, hl⟩ := h
    cases i with
    | zero => simpa using hc
    | succ i =>
      have hi : i < l.length := by
        rw [List.length_cons] at hi
        omega
      have hadd : p + (i + 1) = p + 1 + i := by omega
      rw [hadd, ih hl hi, List.getD_cons_succ]

/-- Bytes elsewhere do not matter. -/
theorem BytesAt.congr {m' : Mem} (h : BytesAt m p l)
    (hsame : ∀ x, p ≤ x → x < p + l.length → m' x = m x) : BytesAt m' p l := by
  induction l generalizing p with
  | nil => trivial
  | cons c l ih =>
    obtain ⟨hc, hl⟩ := h
    rw [List.length_cons] at hsame
    constructor
    · rw [hsame p le_rfl (by omega), hc]
    · exact ih hl fun x hlo hhi => hsame x (by omega) (by omega)

end Bytes

section StringAt

theorem StringAt.nul (h : StringAt m p []) : m p = 0 := h.bytes.1

theorem StringAt.ne_zero (h : StringAt m p (c :: l)) : c ≠ 0 := by
  intro hc
  exact h.chars (hc ▸ List.mem_cons_self)

theorem StringAt.head (h : StringAt m p (c :: l)) : m p = c := h.bytes.1

/-- The address of the next character does not wrap. -/
theorem StringAt.next (h : StringAt m p (c :: l)) : addPtr p 1 = p + 1 := by
  have hbound := h.bound
  rw [List.length_cons] at hbound
  exact addPtr_of_lt (by omega)

theorem StringAt.tail (h : StringAt m p (c :: l)) : StringAt m (p + 1) l where
  ne_null := Nat.succ_ne_zero p
  bound := by
    have hbound := h.bound
    rw [List.length_cons] at hbound
    omega
  chars hl := h.chars (List.mem_cons_of_mem _ hl)
  bytes := h.bytes.2

end StringAt

section Strlen

variable {P : Op Param Empty Empty → Prop} {s : StringState}

@[simp] theorem wp_readByte (Q : ℕ → StringState → Prop) : wp P (readByte k p) s Q ↔
    P (.load k p 0 1) ∧ p ≠ 0 ∧ Q (s.mem p).toNat s := by
  by_cases hp : p = 0
  · simp [readByte, perform, wp, Op.run, hp]
  · simp [readByte, perform, wp, Op.run, hp, ByteMemory.load]

theorem toNat_eq_zero : c.toNat = 0 ↔ c = 0 := by
  rw [← UInt8.toNat_inj]
  rfl

/-- Walking below 2^64 stays within the loop bound. -/
theorem lt_loopBound (h : n < 18446744073709551616) : n < loopBound := by
  unfold loopBound
  exact h

theorem wp_strlen_loop (h : StringAt s.mem p l) (hn : l.length < n)
    (hcnt : cnt + l.length < 18446744073709551616)
    (hP : ∀ i ≤ l.length, P (.load k (p + i) 0 1)) :
    wp P (iterate (strlenRound k) n (p, cnt)) s fun len t => len = cnt + l.length ∧ t = s := by
  induction l generalizing p cnt n with
  | nil =>
    obtain ⟨n, rfl⟩ : ∃ j, n = j + 1 := ⟨n - 1, by omega⟩
    simpa [iterate, wp_bind', strlenRound, h.nul, h.ne_null] using hP 0 le_rfl
  | cons c l ih =>
    rw [List.length_cons] at hn hcnt hP
    obtain ⟨n, rfl⟩ : ∃ j, n = j + 1 := ⟨n - 1, by omega⟩
    have hread := hP 0 (by omega)
    have hc : c.toNat ≠ 0 := fun heq => h.ne_zero (toNat_eq_zero.mp heq)
    have hrest := @ih (p + 1) n (cnt + 1) h.tail (by omega) (by omega) fun i hi => by
      have hadd : p + 1 + i = p + (i + 1) := by omega
      rw [hadd]
      exact hP (i + 1) (by omega)
    rw [iterate, wp_bind', strlenRound]
    simp only [wp_bind, wp_readByte, wp_ite, wp_pure, h.head, if_neg hc, h.next,
      addPtr_of_lt (show cnt + 1 < 18446744073709551616 by omega)]
    refine ⟨hread, h.ne_null, ?_⟩
    apply wp_post hrest
    rintro _ _ ⟨rfl, rfl⟩
    rw [List.length_cons]
    exact ⟨by omega, rfl⟩

theorem wp_strlen (h : StringAt s.mem p l) (hP : ∀ i ≤ l.length, P (.load k (p + i) 0 1)) :
    wp P (strlen k p) s fun len t => len = l.length ∧ t = s := by
  have hbound := h.bound
  have hloop := wp_strlen_loop h (lt_loopBound (by omega))
    (show 0 + l.length < 18446744073709551616 by omega) hP
  rw [strlen, if_neg h.ne_null]
  simpa using hloop

theorem exec_strlen (h : StringAt s.mem p l) : exec (strlen k p) s = .ok (l.length, s) :=
  exec_of_wp (wp_strlen (P := fun _ => True) h fun _ _ => trivial)

theorem strlen_loop_reads {Q : ℕ → StringState → Prop} (hp : p < 18446744073709551616)
    (hn : n < i) (hchars : ∀ j < n, s.mem (addPtr p j) ≠ 0)
    (h : wp P (iterate (strlenRound k) i (p, cnt)) s Q) : P (.load k (addPtr p n) 0 1) := by
  induction n generalizing p cnt i with
  | zero =>
    obtain ⟨i, rfl⟩ : ∃ j, i = j + 1 := ⟨i - 1, by omega⟩
    rw [iterate, wp_bind', strlenRound] at h
    simp only [wp_bind, wp_readByte] at h
    rw [addPtr_zero hp]
    exact h.1
  | succ n ih =>
    obtain ⟨i, rfl⟩ : ∃ j, i = j + 1 := ⟨i - 1, by omega⟩
    have hc : (s.mem p).toNat ≠ 0 := by
      have hfirst := hchars 0 (Nat.succ_pos n)
      rw [addPtr_zero hp] at hfirst
      exact fun heq => hfirst (toNat_eq_zero.mp heq)
    rw [iterate, wp_bind', strlenRound] at h
    simp only [wp_bind, wp_readByte, wp_ite, wp_pure, if_neg hc] at h
    have hrest := ih addPtr_lt (by omega) (fun j hj => by
      rw [addPtr_addPtr, Nat.add_comm 1 j]
      exact hchars (j + 1) (by omega)) h.2.2
    rwa [addPtr_addPtr, Nat.add_comm 1 n] at hrest

/-- `strlen` does not return before it has read the byte behind a run of characters. -/
theorem strlen_reads {Q : ℕ → StringState → Prop} (hnull : p ≠ 0)
    (hp : p < 18446744073709551616) (hn : n < 18446744073709551616)
    (hchars : ∀ j < n, s.mem (addPtr p j) ≠ 0) (h : wp P (strlen k p) s Q) :
    P (.load k (addPtr p n) 0 1) := by
  rw [strlen, if_neg hnull] at h
  exact strlen_loop_reads hp (lt_loopBound hn) hchars h

end Strlen
end KmallocKfree.CString
