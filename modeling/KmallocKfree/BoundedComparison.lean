import KmallocKfree.Comparison
import Mathlib.Data.List.GetD
import Mathlib.Data.List.TakeWhile

/-!
# `strncmp`

`strncmp` looks at its count only after it has read both characters, and where one string
ends it falls back on `strlen`, which knows no bound. It stays within the first `n` bytes of
both arrays when it leaves at a difference, or when both arrays hold a NUL there; otherwise
it reads a byte behind one of them.
-/
namespace KmallocKfree.CString

open Prog
open ByteMemory (Mem)

/-- The array `a` stands at `p`. It holds a NUL in its first `n` bytes, or is `n` bytes long
and holds none. -/
structure ArrayAt (m : Mem) (p n : ℕ) (a : List UInt8) : Prop where
  ne_null : p ≠ 0
  lt : p < 18446744073709551616
  bound : p + a.length ≤ 18446744073709551616
  ends : 0 ∈ a.take n ∨ (a.length = n ∧ 0 ∉ a)
  bytes : BytesAt m p a

/-- The characters of an array, up to its first NUL and at most `n`. -/
def cut (n : ℕ) (a : List UInt8) : List UInt8 := (a.take n).takeWhile fun c => decide (c ≠ 0)

/-- At some position both strings have a character, and the two are different. -/
def Differ : List UInt8 → List UInt8 → Prop
  | c :: a, d :: b => c ≠ d ∨ Differ a b
  | _, _ => False

/-- Reads within the first `n` bytes of the arrays at `p` and `q`, and nothing else. -/
def Within (p q n : ℕ) : Op Param Empty Empty → Prop
  | .load .s1 x off len => p ≤ x + off ∧ x + off + len ≤ p + n
  | .load .s2 x off len => q ≤ x + off ∧ x + off + len ≤ q + n
  | _ => False

/-- Behind the first `k` bytes the array at `p` has the characters `u` and a NUL, all in its
first `n` bytes. -/
structure Ended (m : Mem) (p k n : ℕ) (u : List UInt8) : Prop extends StringAt m (p + k) u where
  short : k + u.length < n

/-- Behind the first `k` bytes the array at `p` has the characters `u`, up to its end. -/
structure Full (m : Mem) (p k n : ℕ) (u : List UInt8) : Prop where
  bound : p + n ≤ 18446744073709551616
  chars : 0 ∉ u
  bytes : BytesAt m (p + k) u
  length : k + u.length = n

variable {m : Mem} {a b u v : List UInt8} {c d : UInt8} {p q k n f : ℕ} {s : StringState}

section Arrays

theorem Ended.tail (h : Ended m p k n (c :: u)) : Ended m p (k + 1) n u where
  toStringAt := h.toStringAt.tail
  short := by
    have hshort := h.short
    rw [List.length_cons] at hshort
    omega

theorem Full.tail (h : Full m p k n (c :: u)) : Full m p (k + 1) n u where
  bound := h.bound
  chars hu := h.chars (List.mem_cons_of_mem _ hu)
  bytes := h.bytes.2
  length := by
    have hlength := h.length
    rw [List.length_cons] at hlength
    omega

/-- The next character of an array, ended or full. -/
theorem next_char (h : Ended m p k n (c :: u) ∨ Full m p k n (c :: u)) :
    addPtr p k = p + k ∧ m (p + k) = c ∧ c ≠ 0 ∧ k < n := by
  rcases h with h | h
  · have hshort := h.short
    have hbound := h.bound
    exact ⟨addPtr_of_lt (by omega), h.head, h.ne_zero, by omega⟩
  · have hlength := h.length
    have hbound := h.bound
    rw [List.length_cons] at hlength
    refine ⟨addPtr_of_lt (by omega), h.bytes.1, ?_, by omega⟩
    intro hc
    exact h.chars (hc ▸ List.mem_cons_self)

theorem rest_tail (h : Ended m p k n (c :: u) ∨ Full m p k n (c :: u)) :
    Ended m p (k + 1) n u ∨ Full m p (k + 1) n u := h.imp Ended.tail Full.tail

theorem Ended.addPtr_eq (h : Ended m p k n u) : addPtr p k = p + k := by
  have hbound := h.bound
  exact addPtr_of_lt (by omega)

theorem Full.char_ne (h : Full m p k n u) {i : ℕ} (hi : i < u.length) :
    m (addPtr (addPtr p k) i) ≠ 0 := by
  have hlength := h.length
  have hbound := h.bound
  rw [addPtr_addPtr, addPtr_of_lt (by omega), ← Nat.add_assoc, h.bytes.get hi,
    List.getD_eq_getElem _ _ hi]
  intro hzero
  exact h.chars (hzero ▸ List.getElem_mem hi)

/-- The characters, the NUL, and what follows it. -/
theorem split_at_nul {l : List UInt8} (h : 0 ∈ l) :
    ∃ r, l = l.takeWhile (fun c => decide (c ≠ 0)) ++ 0 :: r := by
  induction l with
  | nil => exact absurd h List.not_mem_nil
  | cons c l ih =>
    by_cases hc : c = 0
    · subst hc
      exact ⟨l, rfl⟩
    · obtain ⟨r, hr⟩ := ih ((List.mem_cons.mp h).resolve_left (Ne.symm hc))
      refine ⟨r, ?_⟩
      rw [List.takeWhile_cons_of_pos (by simpa using hc), List.cons_append, ← hr]

theorem nul_not_mem_cut : 0 ∉ cut n a := by
  intro hmem
  exact absurd (List.mem_takeWhile_imp hmem) (by decide)

theorem length_cut_le : (cut n a).length ≤ n := by
  have hprefix : (cut n a).length ≤ (a.take n).length :=
    (List.takeWhile_prefix fun c => decide (c ≠ 0)).length_le
  exact hprefix.trans (List.length_take_le n a)

/-- Cut after `n` characters, an array with a NUL is ended. -/
theorem ArrayAt.ended (h : ArrayAt m p n a) (hnul : 0 ∈ a.take n) :
    Ended m p 0 n (cut n a) := by
  obtain ⟨r, hr⟩ : ∃ r, a.take n = cut n a ++ 0 :: r := split_at_nul hnul
  have hall : a = cut n a ++ 0 :: (r ++ a.drop n) := by
    rw [← List.cons_append, ← List.append_assoc, ← hr, List.take_append_drop]
  have hlen := List.length_take_le n a
  rw [hr, List.length_append, List.length_cons] at hlen
  have hbound : p + (cut n a ++ 0 :: (r ++ a.drop n)).length ≤ 18446744073709551616 :=
    hall ▸ h.bound
  rw [List.length_append, List.length_cons] at hbound
  have hbytes : BytesAt m p (cut n a ++ 0 :: (r ++ a.drop n)) := hall ▸ h.bytes
  obtain ⟨hchars, hzero, -⟩ := bytesAt_append.mp hbytes
  exact ⟨⟨h.ne_null, by omega, nul_not_mem_cut, bytesAt_append.mpr ⟨hchars, hzero, trivial⟩⟩,
    by omega⟩

/-- An array without a NUL is not cut. -/
theorem ArrayAt.full (h : ArrayAt m p n a) (hnul : 0 ∉ a.take n) : Full m p 0 n (cut n a) := by
  obtain ⟨hlength, hchars⟩ := h.ends.resolve_left hnul
  have hcut : cut n a = a := by
    rw [cut, List.take_of_length_le hlength.le, List.takeWhile_eq_self_iff]
    intro c hc
    have hne : c ≠ 0 := fun heq => hchars (heq ▸ hc)
    simpa using hne
  rw [hcut]
  exact ⟨hlength ▸ h.bound, hchars, h.bytes, by omega⟩

end Arrays

section Rounds

variable {P : Op Param Empty Empty → Prop} {Q : ℕ × ℕ × ℤ ⊕ ℤ → StringState → Prop}

/-- A round in which both strings have a character. -/
theorem wp_strncmpRound_chars (hn : n < 2147483648) (hk : k < n) (hp : p ≠ 0) (hq : q ≠ 0)
    (hpk : addPtr p k = p + k) (hqk : addPtr q k = q + k) (hc : s.mem (p + k) = c)
    (hd : s.mem (q + k) = d) (hc' : c ≠ 0) (hd' : d ≠ 0) :
    wp P (strncmpRound n (addPtr p k, addPtr q k, (k : ℤ))) s Q ↔
      P (.load .s1 (p + k) 0 1) ∧ P (.load .s2 (q + k) 0 1) ∧
        Q (charStep (compare (charOf c) (charOf d))
          (addPtr p (k + 1), addPtr q (k + 1), ((k + 1 : ℕ) : ℤ))) s := by
  have hcount : wrapInt ((k : ℤ) + 1) = ((k + 1 : ℕ) : ℤ) := by
    rw [← Nat.cast_succ]
    exact wrapInt_natCast (by omega)
  rw [strncmpRound]
  simp only [wp_bind, wp_readByte, wp_ite, toSize_natCast (show k < _ by omega), if_pos hk,
    addPtr_addPtr, hcount]
  rw [hpk, hqk, hc, hd, if_neg fun h => hc' (toNat_eq_zero.mp h),
    if_neg fun h => hd' (toNat_eq_zero.mp h), wp_compareChars]
  have hpk' : p + k ≠ 0 := by omega
  have hqk' : q + k ≠ 0 := by omega
  simp only [hpk', hqk', ne_eq, not_false_iff, true_and]

theorem strncmpTail_eq (hn : n < 2147483648) (hk : k < n) :
    strncmpTail n (p, q, (k : ℤ)) = strcmpTail p q := by
  rw [strncmpTail, if_neg]
  rw [toSize_natCast (by omega)]
  omega

theorem within_s1 {i : ℕ} (h : k + i < n) : Within p q n (.load .s1 (p + k + i) 0 1) := by
  constructor <;> omega

theorem within_s2 {i : ℕ} (h : k + i < n) : Within p q n (.load .s2 (q + k + i) 0 1) := by
  constructor <;> omega

/-- The byte behind an array may not be read, also where its address wraps. -/
theorem not_within_s1 (hp : p ≠ 0) (h : p + n ≤ 18446744073709551616) :
    ¬ Within p q n (.load .s1 (addPtr p n) 0 1) := by
  rintro ⟨hlo, hhi⟩
  unfold addPtr at hlo hhi
  omega

theorem not_within_s2 (hq : q ≠ 0) (h : q + n ≤ 18446744073709551616) :
    ¬ Within p q n (.load .s2 (addPtr q n) 0 1) := by
  rintro ⟨hlo, hhi⟩
  unfold addPtr at hlo hhi
  omega

end Rounds

section Inside

/-- A round in which one of two ended strings has no more characters. -/
theorem wp_strncmpRound_end (hn : n < 2147483648) (hu : Ended s.mem p k n u)
    (hv : Ended s.mem q k n v) (hend : u = [] ∨ v = []) :
    wp (Within p q n) (strncmpRound n (addPtr p k, addPtr q k, (k : ℤ))) s fun r t =>
      r = .inr (orderSign (charOrder u v)) ∧ t = s := by
  have hushort := hu.short
  have hvshort := hv.short
  have htail : wp (Within p q n) (strncmpTail n (p + k, q + k, (k : ℤ))) s fun r t =>
      r = .inr (orderSign (charOrder u v)) ∧ t = s := by
    rw [strncmpTail_eq hn (by omega)]
    exact wp_strcmpTail hu.toStringAt hv.toStringAt hend (fun i hi => within_s1 (by omega))
      fun i hi => within_s2 (by omega)
  rw [hu.addPtr_eq, hv.addPtr_eq, strncmpRound]
  simp only [wp_bind, wp_readByte, wp_ite]
  refine ⟨within_s1 (i := 0) (by omega), hu.ne_null, ?_⟩
  cases u with
  | nil =>
    rw [if_pos (by rw [hu.nul]; rfl)]
    exact htail
  | cons c u =>
    obtain rfl : v = [] := hend.resolve_left (List.cons_ne_nil c u)
    rw [hu.head, if_neg fun h => hu.ne_zero (toNat_eq_zero.mp h)]
    refine ⟨within_s2 (i := 0) (by omega), hv.ne_null, ?_⟩
    rw [if_pos (by rw [hv.nul]; rfl)]
    exact htail

/-- At a difference, or at the end of two ended strings, the loop has stayed inside. -/
theorem wp_strncmp_loop (hn : n < 2147483648) (hp : p ≠ 0) (hq : q ≠ 0)
    (hu : Ended s.mem p k n u ∨ Full s.mem p k n u)
    (hv : Ended s.mem q k n v ∨ Full s.mem q k n v)
    (hinside : Differ u v ∨ Ended s.mem p k n u ∧ Ended s.mem q k n v) (hf : u.length < f) :
    wp (Within p q n) (iterate (strncmpRound n) f (addPtr p k, addPtr q k, (k : ℤ))) s
      fun r t => r = orderSign (charOrder u v) ∧ t = s := by
  induction f generalizing u v k with
  | zero => exact absurd hf (Nat.not_lt_zero _)
  | succ f ih =>
    rw [iterate, wp_bind']
    by_cases hend : u = [] ∨ v = []
    · have hdiff : ¬ Differ u v := by
        rcases hend with rfl | rfl
        · exact id
        · cases u <;> exact id
      obtain ⟨hu, hv⟩ := hinside.resolve_left hdiff
      apply wp_post (wp_strncmpRound_end hn hu hv hend)
      rintro _ _ ⟨rfl, rfl⟩
      exact ⟨rfl, rfl⟩
    · rw [not_or] at hend
      obtain ⟨c, u, rfl⟩ := List.exists_cons_of_ne_nil hend.1
      obtain ⟨d, v, rfl⟩ := List.exists_cons_of_ne_nil hend.2
      obtain ⟨hpk, hc, hc', hk⟩ := next_char hu
      obtain ⟨hqk, hd, hd', -⟩ := next_char hv
      rw [wp_strncmpRound_chars hn hk hp hq hpk hqk hc hd hc' hd', charOrder_cons]
      refine ⟨within_s1 (i := 0) hk, within_s2 (i := 0) hk, ?_⟩
      cases hcd : compare (charOf c) (charOf d) with
      | lt => exact ⟨rfl, rfl⟩
      | gt => exact ⟨rfl, rfl⟩
      | eq =>
        have heq : c = d := charOf_inj.mp (compare_eq_iff_eq.mp hcd)
        have hinside : Differ u v ∨ Ended s.mem p (k + 1) n u ∧ Ended s.mem q (k + 1) n v :=
          hinside.imp (fun h => h.resolve_left (not_not.mpr heq))
            fun h => ⟨h.1.tail, h.2.tail⟩
        rw [List.length_cons] at hf
        exact ih (rest_tail hu) (rest_tail hv) hinside (by omega)

end Inside

section Outside

variable {P : Op Param Empty Empty → Prop} {β : Type}

/-- The comparison of the lengths reads `s2` to its end, and then `s1`. -/
theorem wp_strcmpTail_inv {Q : β ⊕ ℤ → StringState → Prop} (h : wp P (strcmpTail p q) s Q) :
    wp P (strlen .s2 q) s (fun _ _ => True) ∧
      (StringAt s.mem q v → wp P (strlen .s1 p) s fun _ _ => True) := by
  rw [strcmpTail, wp_bind, compareLengths, wp_bind] at h
  refine ⟨wp_post h fun _ _ _ => trivial, fun hv => ?_⟩
  have hrest := wp_result h (exec_strlen hv)
  rw [wp_bind] at hrest
  exact wp_post hrest fun _ _ _ => trivial

/-- `strlen` in the tail of a full array reads the byte behind the array. -/
theorem Full.overrun {param : Param} (h : Full s.mem p k n u) (hn : n < 2147483648)
    (hpk : addPtr p k ≠ 0) (hrun : wp P (strlen param (addPtr p k)) s fun _ _ => True) :
    P (.load param (addPtr p n) 0 1) := by
  have hlength := h.length
  have hread := strlen_reads (n := u.length) hpk addPtr_lt (by omega)
    (fun i hi => h.char_ne hi) hrun
  rwa [addPtr_addPtr, hlength] at hread

/-- Once all `n` characters of the first array are passed, the next byte is read. -/
theorem not_wp_strncmpRound_full {Q : ℕ × ℕ × ℤ ⊕ ℤ → StringState → Prop} (hp : p ≠ 0)
    (hu : Full s.mem p k n []) :
    ¬ wp (Within p q n) (strncmpRound n (addPtr p k, addPtr q k, (k : ℤ))) s Q := by
  intro h
  rw [strncmpRound] at h
  simp only [wp_bind, wp_readByte] at h
  obtain rfl : k = n := hu.length
  exact not_within_s1 hp hu.bound h.1

/-- When the first string has ended, a full second array is read to its end. -/
theorem not_wp_strncmpRound_first {Q : ℕ × ℕ × ℤ ⊕ ℤ → StringState → Prop} (hn : n < 2147483648)
    (hq : q ≠ 0) (hu : Ended s.mem p k n []) (hv : Full s.mem q k n v) :
    ¬ wp (Within p q n) (strncmpRound n (addPtr p k, addPtr q k, (k : ℤ))) s Q := by
  intro h
  have hbound := hv.bound
  have hshort : k < n := hu.short
  have hqk : addPtr q k ≠ 0 := by
    rw [addPtr_of_lt (by omega)]
    omega
  rw [strncmpRound] at h
  simp only [wp_bind, wp_readByte, wp_ite] at h
  obtain ⟨-, -, h⟩ := h
  rw [hu.addPtr_eq, if_pos (by rw [hu.nul]; rfl), strncmpTail_eq hn hshort] at h
  exact not_within_s2 hq hbound (hv.overrun hn hqk (wp_strcmpTail_inv (v := []) h).1)

/-- When the second string has ended, a full first array is read to its end. -/
theorem not_wp_strncmpRound_second {Q : ℕ × ℕ × ℤ ⊕ ℤ → StringState → Prop}
    (hn : n < 2147483648) (hp : p ≠ 0) (hu : Full s.mem p k n (c :: u))
    (hv : Ended s.mem q k n []) :
    ¬ wp (Within p q n) (strncmpRound n (addPtr p k, addPtr q k, (k : ℤ))) s Q := by
  intro h
  obtain ⟨hpk, hc, hc', hk⟩ := next_char (.inr hu)
  have hpk' : addPtr p k ≠ 0 := by omega
  rw [strncmpRound] at h
  simp only [wp_bind, wp_readByte, wp_ite] at h
  rw [hpk, hc, if_neg fun hzero => hc' (toNat_eq_zero.mp hzero), hv.addPtr_eq,
    if_pos (by rw [hv.nul]; rfl), strncmpTail_eq hn hk, ← hpk] at h
  have hrun := (wp_strcmpTail_inv h.2.2.2.2).2 hv.toStringAt
  exact not_within_s1 hp hu.bound (hu.overrun hn hpk' hrun)

/-- An array that has ended is not full. -/
theorem Ended.not_full (h : Ended m p k n u) (h' : Full m q k n []) : False := by
  have hshort := h.short
  have hlength := h'.length
  rw [List.length_nil] at hlength
  omega

/-- Without a difference, and with a full array, the loop does not stay inside. -/
theorem not_wp_strncmp_loop {Q : ℤ → StringState → Prop} (hn : n < 2147483648) (hp : p ≠ 0)
    (hq : q ≠ 0) (hu : Ended s.mem p k n u ∨ Full s.mem p k n u)
    (hv : Ended s.mem q k n v ∨ Full s.mem q k n v) (hdiff : ¬ Differ u v)
    (hfull : Full s.mem p k n u ∨ Full s.mem q k n v) :
    ¬ wp (Within p q n) (iterate (strncmpRound n) f (addPtr p k, addPtr q k, (k : ℤ))) s Q := by
  induction f generalizing u v k with
  | zero => exact id
  | succ f ih =>
    rw [iterate, wp_bind']
    cases u with
    | nil =>
      rcases hu with hu | hu
      · have hv : Full s.mem q k n v := hfull.resolve_left hu.not_full
        exact not_wp_strncmpRound_first hn hq hu hv
      · exact not_wp_strncmpRound_full hp hu
    | cons c u =>
      obtain ⟨hpk, hc, hc', hk⟩ := next_char hu
      cases v with
      | nil =>
        have hv : Ended s.mem q k n [] := hv.resolve_right fun hv => by
          have hlength := hv.length
          rw [List.length_nil] at hlength
          omega
        exact not_wp_strncmpRound_second hn hp (hfull.resolve_right hv.not_full) hv
      | cons d v =>
        obtain ⟨hqk, hd, hd', -⟩ := next_char hv
        have hdiff' : c = d ∧ ¬ Differ u v := by simpa [Differ, not_or] using hdiff
        rw [wp_strncmpRound_chars hn hk hp hq hpk hqk hc hd hc' hd', hdiff'.1,
          compare_eq_iff_eq.mpr rfl]
        rintro ⟨-, -, h⟩
        exact ih (rest_tail hu) (rest_tail hv) hdiff'.2 (hfull.imp Full.tail Full.tail) h

end Outside

section Bounded

/-- `strncmp` reads only the first `n` bytes of the arrays, and returns what `strcmp` returns
for the two strings that are cut after `n` characters, wherever these stand. -/
def ComparesAtMost (s : StringState) (p q n : ℕ) (a b : List UInt8) : Prop :=
  wp (Within p q n) (strncmp p q n) s fun r _ => ∀ t p' q', StringAt t.mem p' (cut n a) →
    StringAt t.mem q' (cut n b) → exec (strcmp p' q') t = .ok (r, t)

/-- It does so when the cut strings differ at a position where both have a character, or when
both arrays hold a NUL in their first `n` bytes, and in no other case. -/
theorem strncmp_iff (hn : n < 2147483648) (ha : ArrayAt s.mem p n a) (hb : ArrayAt s.mem q n b) :
    ComparesAtMost s p q n a b ↔
      Differ (cut n a) (cut n b) ∨ (0 ∈ a.take n ∧ 0 ∈ b.take n) := by
  have hu : Ended s.mem p 0 n (cut n a) ∨ Full s.mem p 0 n (cut n a) := by
    by_cases hnul : 0 ∈ a.take n
    · exact .inl (ha.ended hnul)
    · exact .inr (ha.full hnul)
  have hv : Ended s.mem q 0 n (cut n b) ∨ Full s.mem q 0 n (cut n b) := by
    by_cases hnul : 0 ∈ b.take n
    · exact .inl (hb.ended hnul)
    · exact .inr (hb.full hnul)
  rw [ComparesAtMost, strncmp, wp_bind, wp_check]
  have hstart : ((p, q, 0) : ℕ × ℕ × ℤ) = (addPtr p 0, addPtr q 0, ((0 : ℕ) : ℤ)) := by
    rw [addPtr_zero ha.lt, addPtr_zero hb.lt]
    rfl
  rw [hstart]
  constructor
  · rintro ⟨-, h⟩
    by_contra hnot
    rw [not_or, not_and_or] at hnot
    exact not_wp_strncmp_loop hn ha.ne_null hb.ne_null hu hv hnot.1
      (hnot.2.imp ha.full hb.full) h
  · intro h
    refine ⟨⟨ha.ne_null, hb.ne_null⟩, ?_⟩
    have hlen : (cut n a).length ≤ n := length_cut_le
    apply wp_post (wp_strncmp_loop hn ha.ne_null hb.ne_null hu hv
      (h.imp id fun h => ⟨ha.ended h.1, hb.ended h.2⟩) (lt_loopBound (by omega)))
    rintro _ _ ⟨rfl, rfl⟩ t p' q' hp' hq'
    exact exec_strcmp hp' hq'

theorem strncmp_sample :
    ComparesAtMost (twoStrings [97, 98] [97]) 100 200 3 [97, 98, 0] [97, 0] ↔
      Differ (cut 3 [97, 98, 0]) (cut 3 [97, 0]) ∨
        (0 ∈ [97, 98, (0 : UInt8)].take 3 ∧ 0 ∈ [97, (0 : UInt8)].take 3) :=
  strncmp_iff (by decide)
    ⟨by decide, by decide, by decide, .inl (by decide), rfl, rfl, rfl, trivial⟩
    ⟨by decide, by decide, by decide, .inl (by decide), rfl, rfl, trivial⟩

/-- Two equal arrays of two characters: `strncmp` reads the third byte. -/
theorem strncmp_overruns : ¬ ∀ (s : StringState) (p q n : ℕ) (a b : List UInt8),
    n < 2147483648 → ArrayAt s.mem p n a → ArrayAt s.mem q n b →
    ComparesAtMost s p q n a b := by
  intro hall
  have ha : ArrayAt (twoStrings [97, 98] [97, 98]).mem 100 2 [97, 98] :=
    ⟨by decide, by decide, by decide, .inr (by decide), rfl, rfl, trivial⟩
  have hb : ArrayAt (twoStrings [97, 98] [97, 98]).mem 200 2 [97, 98] :=
    ⟨by decide, by decide, by decide, .inr (by decide), rfl, rfl, trivial⟩
  have hrun := hall _ 100 200 2 _ _ (by decide) ha hb
  rw [ComparesAtMost, strncmp, wp_bind, wp_check] at hrun
  exact not_wp_strncmp_loop (k := 0) (by decide) ha.ne_null hb.ne_null
    (.inr (ha.full (by decide))) (.inr (hb.full (by decide)))
    (show ¬ (_ ∨ _ ∨ False) by decide) (.inl (ha.full (by decide))) hrun.2

end Bounded
end KmallocKfree.CString
