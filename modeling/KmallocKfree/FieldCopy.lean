import KmallocKfree.TerminatedStrings
import Mathlib.Data.List.GetD
import Mathlib.Logic.Function.Basic

/-!
# `strncpy`

`strncpy` stores the characters that fit and one NUL behind them. When they fill the field,
the NUL goes to the byte behind it; when they do not, the bytes behind the NUL keep what they
held.
-/
namespace KmallocKfree.CString

open Prog
open ByteMemory (Mem)

/-- Reads anywhere, and writes within the `n` bytes at `dst`. -/
def WritesWithin (dst n : ℕ) : Op Param Empty Empty → Prop
  | .load _ _ _ _ => True
  | .store .dst x off len _ => dst ≤ x + off ∧ x + off + len ≤ dst + n
  | _ => False

variable {m : Mem} {l r : List UInt8} {c : UInt8} {p x src dst n k cnt f : ℕ} {s : StringState}

section Place

/-- The memory after the bytes of a list are written from `p` on. -/
def place (m : Mem) (p : ℕ) : List UInt8 → Mem
  | [] => m
  | c :: l => place (Function.update m p c) (p + 1) l

theorem place_outside (h : x < p ∨ p + l.length ≤ x) : place m p l x = m x := by
  induction l generalizing m p with
  | nil => rfl
  | cons c l ih =>
    rw [List.length_cons] at h
    rw [place, ih (by omega), Function.update_of_ne (by omega)]

theorem bytesAt_place : BytesAt (place m p l) p l := by
  induction l generalizing m p with
  | nil => trivial
  | cons c l ih =>
    constructor
    · rw [place, place_outside (by omega), Function.update_self]
    · exact ih

theorem place_append : place m p (l ++ r) = place (place m p l) (p + l.length) r := by
  induction l generalizing m p with
  | nil => rfl
  | cons c l ih =>
    rw [List.cons_append, place, ih, place, List.length_cons, Nat.add_assoc, Nat.add_comm 1]

/-- A store of one byte. -/
theorem store_byte : ByteMemory.store m p 1 c.toNat = place m p [c] := by
  funext x
  by_cases hx : x = p
  · subst hx
    simp [ByteMemory.store, place]
  · rw [ByteMemory.store_outside (by omega), place, place, Function.update_of_ne hx]

end Place

section Copy

variable {P : Op Param Empty Empty → Prop}

theorem wp_writeByte {param : Param} (Q : Unit → StringState → Prop) :
    wp P (writeByte param p c.toNat) s Q ↔
      P (.store param p 0 1 c.toNat) ∧ p ≠ 0 ∧ Q () (s.setMem (place s.mem p [c])) := by
  by_cases hp : p = 0
  · simp [writeByte, perform, wp, Op.run, hp]
  · simp [writeByte, perform, wp, Op.run, hp, store_byte]

theorem wp_writeNul {param : Param} (Q : Unit → StringState → Prop) :
    wp P (writeByte param p 0) s Q ↔
      P (.store param p 0 1 0) ∧ p ≠ 0 ∧ Q () (s.setMem (place s.mem p [0])) :=
  wp_writeByte (c := 0) Q

/-- The memory after a store elsewhere holds the rest of the source. -/
theorem StringAt.place (h : StringAt m p l) (hapart : ∀ j ≤ l.length, x ≠ p + j) :
    StringAt (place m x [c]) p l where
  ne_null := h.ne_null
  bound := h.bound
  chars := h.chars
  bytes := by
    apply h.bytes.congr
    intro y hlo hhi
    rw [List.length_append, List.length_singleton] at hhi
    apply place_outside
    rw [List.length_singleton]
    have hne := hapart (y - p) (by omega)
    omega

/-- With `k` bytes of the field left, the loop copies the next `k` characters of the source,
or all that there are. -/
theorem wp_strncpy_loop (hsrc : StringAt s.mem src l) (hcnt : cnt + k = n)
    (hn : n < 18446744073709551615) (hdst : dst ≠ 0) (hfield : dst + n ≤ 18446744073709551616)
    (hapart : ∀ i < k, ∀ j ≤ l.length, dst + cnt + i ≠ src + j) (hf : l.length < f) :
    wp (WritesWithin dst n) (iterate (strncpyRound n) f (src, addPtr dst cnt, cnt)) s
      fun last t => last = (addPtr dst (cnt + min l.length k), cnt + min l.length k) ∧
        t.mem = place s.mem (dst + cnt) (l.take k) := by
  induction f generalizing l src cnt k s with
  | zero => exact absurd hf (Nat.not_lt_zero _)
  | succ f ih =>
    rw [iterate, wp_bind', strncpyRound, addPtr_of_lt (show cnt + 1 < _ by omega)]
    simp only [wp_bind, wp_readByte]
    refine ⟨trivial, hsrc.ne_null, ?_⟩
    cases l with
    | nil =>
      rw [if_neg fun h => h.1 (by rw [hsrc.nul]; rfl)]
      simp [place]
    | cons c l =>
      cases k with
      | zero =>
        rw [if_neg fun h => by omega]
        simp [place]
      | succ k =>
        have haddr : addPtr dst cnt = dst + cnt := addPtr_of_lt (by omega)
        have hc : c.toNat ≠ 0 := fun h => hsrc.ne_zero (toNat_eq_zero.mp h)
        rw [List.length_cons] at hf hapart
        rw [hsrc.head, if_pos ⟨hc, by omega⟩, wp_bind, wp_writeByte, wp_pure, hsrc.next, haddr]
        refine ⟨⟨by omega, by omega⟩, by omega, ?_⟩
        -- the byte that was written is no byte of the rest of the source
        have hrest : StringAt (place s.mem (dst + cnt) [c]) (src + 1) l :=
          hsrc.tail.place fun j hj heq => hapart 0 (by omega) (j + 1) (by omega) (by omega)
        have hnext : addPtr (dst + cnt) 1 = addPtr dst (cnt + 1) := by
          rw [← haddr, addPtr_addPtr]
        rw [hnext]
        apply wp_post (ih (s := s.setMem (place s.mem (dst + cnt) [c])) (k := k) hrest
          (by omega) (fun i hi j hj heq => hapart (i + 1) (by omega) (j + 1) (by omega)
            (by omega)) (by omega))
        rintro _ t ⟨rfl, hmem⟩
        have hcount : cnt + 1 + min l.length k = cnt + min (c :: l).length (k + 1) := by
          rw [List.length_cons, Nat.succ_min_succ]
          omega
        rw [hcount]
        exact ⟨rfl, hmem⟩

end Copy

section Field

/-- `strncpy` stays within the field and returns it. Every byte of the field is a character of
the source, or NUL behind the last one. -/
def FillsField (s : StringState) (dst src n : ℕ) (l : List UInt8) : Prop :=
  wp (WritesWithin dst n) (strncpy dst src n) s fun r t =>
    r = dst ∧ ∀ i < n, t.mem (dst + i) = l.getD i 0

/-- The field and the source do not fill the whole address space. -/
theorem length_field_lt (hsrc : StringAt s.mem src l) (hdst : dst ≠ 0)
    (hfield : dst + n ≤ 18446744073709551616)
    (hapart : ∀ i < n, ∀ j ≤ l.length, dst + i ≠ src + j) : n < 18446744073709551615 := by
  by_contra hge
  have hnull := hsrc.ne_null
  have hbound := hsrc.bound
  exact hapart (src - dst) (by omega) 0 (Nat.zero_le _) (by omega)

/-- A string that is shorter than the field leaves the rest of the field as it was. -/
theorem wp_strncpy_short (hsrc : StringAt s.mem src l) (hdst : dst ≠ 0)
    (hfield : dst + n ≤ 18446744073709551616)
    (hapart : ∀ i < n, ∀ j ≤ l.length, dst + i ≠ src + j) (hlen : l.length < n) :
    wp (WritesWithin dst n) (strncpy dst src n) s fun r t =>
      r = dst ∧ t.mem = place s.mem dst (l ++ [0]) := by
  have hn := length_field_lt hsrc hdst hfield hapart
  have hloop := wp_strncpy_loop hsrc (show 0 + n = n by omega) hn hdst hfield
    (fun i hi j hj => hapart i hi j hj) (lt_loopBound (by omega))
  rw [addPtr_zero (by omega)] at hloop
  rw [strncpy, wp_bind, wp_check, wp_bind]
  refine ⟨⟨hdst, hsrc.ne_null⟩, wp_post hloop ?_⟩
  rintro _ t ⟨rfl, hmem⟩
  rw [Nat.zero_add, Nat.min_eq_left hlen.le, addPtr_of_lt (by omega)]
  rw [List.take_of_length_le hlen.le, Nat.add_zero] at hmem
  rw [wp_bind, wp_writeNul, hmem, ← place_append]
  refine ⟨⟨by omega, by omega⟩, by omega, ?_⟩
  -- `strlen` finds the copy
  have hcopy : StringAt (place s.mem dst (l ++ [0])) dst l :=
    ⟨hdst, by omega, hsrc.chars, bytesAt_place⟩
  rw [wp_bind]
  apply wp_post (wp_strlen (P := WritesWithin dst n) hcopy fun _ _ => trivial)
  rintro _ _ ⟨rfl, rfl⟩
  simp only [wp_bind, wp_check, wp_pure]
  exact ⟨trivial, hlen.le, trivial, rfl⟩

/-- A string that fills the field puts its NUL behind the field, also where that address
wraps. -/
theorem not_wp_strncpy_long {Q : ℕ → StringState → Prop} (hsrc : StringAt s.mem src l)
    (hdst : dst ≠ 0) (hlt : dst < 18446744073709551616)
    (hfield : dst + n ≤ 18446744073709551616)
    (hapart : ∀ i < n, ∀ j ≤ l.length, dst + i ≠ src + j) (hlen : n ≤ l.length) :
    ¬ wp (WritesWithin dst n) (strncpy dst src n) s Q := by
  intro h
  have hn := length_field_lt hsrc hdst hfield hapart
  have hbound := hsrc.bound
  have hloop := wp_strncpy_loop hsrc (show 0 + n = n by omega) hn hdst hfield
    (fun i hi j hj => hapart i hi j hj) (lt_loopBound (by omega))
  rw [addPtr_zero hlt, Nat.zero_add, Nat.min_eq_right hlen] at hloop
  obtain ⟨last, t, hrun, rfl, -⟩ := wp_exec hloop
  rw [strncpy, wp_bind, wp_check, wp_bind] at h
  have hrest := wp_result h.2 hrun
  rw [wp_bind, wp_writeNul] at hrest
  obtain ⟨⟨hlo, hhi⟩, -⟩ := hrest
  unfold addPtr at hlo hhi
  omega

/-- `strncpy` fills a field of `n` bytes when the string is shorter than the field and every
byte of the field behind the string's NUL was NUL already, and in no other case. -/
theorem strncpy_iff (hsrc : StringAt s.mem src l) (hdst : dst ≠ 0)
    (hlt : dst < 18446744073709551616) (hfield : dst + n ≤ 18446744073709551616)
    (hapart : ∀ i < n, ∀ j ≤ l.length, dst + i ≠ src + j) :
    FillsField s dst src n l ↔
      l.length < n ∧ ∀ i, l.length < i → i < n → s.mem (dst + i) = 0 := by
  by_cases hlen : l.length < n
  · have hrun := wp_strncpy_short hsrc hdst hfield hapart hlen
    have hbyte : ∀ i, place s.mem dst (l ++ [0]) (dst + i) =
        if l.length < i then s.mem (dst + i) else l.getD i 0 := by
      intro i
      split_ifs with hi
      · apply place_outside
        rw [List.length_append, List.length_singleton]
        omega
      · have hi' : i < (l ++ [0]).length := by
          rw [List.length_append, List.length_singleton]
          omega
        rw [bytesAt_place.get hi']
        by_cases hlast : i < l.length
        · exact List.getD_append _ _ _ _ hlast
        · obtain rfl : i = l.length := by omega
          simp
    constructor
    · intro h
      obtain ⟨r, t, hexec, -, hmem⟩ := wp_exec hrun
      refine ⟨hlen, fun i hlo hhi => ?_⟩
      have hfill := (wp_result h hexec).2 i hhi
      rw [hmem, hbyte, if_pos hlo, List.getD_eq_default _ _ hlo.le] at hfill
      exact hfill
    · rintro ⟨-, hold⟩
      apply wp_post hrun
      rintro r t ⟨rfl, hmem⟩
      refine ⟨rfl, fun i hi => ?_⟩
      rw [hmem, hbyte]
      split_ifs with hlo
      · rw [hold i hlo hi, List.getD_eq_default _ _ hlo.le]
      · rfl
  · constructor
    · intro h
      exact absurd h (not_wp_strncpy_long hsrc hdst hlt hfield hapart (not_lt.mp hlen))
    · exact fun h => absurd h.1 hlen

theorem strncpy_sample : FillsField (twoStrings [] [97, 98]) 100 200 4 [97, 98] ↔
    [97, (98 : UInt8)].length < 4 ∧ ∀ i, [97, (98 : UInt8)].length < i → i < 4 →
      (twoStrings [] [97, 98]).mem (100 + i) = 0 := by
  refine strncpy_iff ⟨by decide, by decide, by decide, rfl, rfl, rfl, trivial⟩ (by decide)
    (by decide) (by decide) fun i hi j hj => ?_
  rw [show [97, (98 : UInt8)].length = 2 from rfl] at hj
  omega

/-- `"ab"` copied to a field of two bytes: the NUL goes to the third. -/
theorem strncpy_overruns : ¬ ∀ (s : StringState) (dst src n : ℕ) (l : List UInt8),
    StringAt s.mem src l → dst ≠ 0 → dst < 18446744073709551616 →
    dst + n ≤ 18446744073709551616 → (∀ i < n, ∀ j ≤ l.length, dst + i ≠ src + j) →
    FillsField s dst src n l := by
  intro hall
  have hsrc : StringAt (twoStrings [] [97, 98]).mem 200 [97, 98] :=
    ⟨by decide, by decide, by decide, rfl, rfl, rfl, trivial⟩
  have hapart : ∀ i < 2, ∀ j ≤ [97, (98 : UInt8)].length, 100 + i ≠ 200 + j := by decide
  exact not_wp_strncpy_long hsrc (by decide) (by decide) (by decide) hapart (by decide)
    (hall _ 100 200 2 _ hsrc (by decide) (by decide) (by decide) hapart)

end Field
end KmallocKfree.CString
