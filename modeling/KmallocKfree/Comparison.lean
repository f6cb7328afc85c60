import KmallocKfree.TerminatedStrings
import Mathlib.Algebra.Order.Ring.Int
import Mathlib.Order.Compare
import Mathlib.Order.Defs.LinearOrder

/-!
# `strcmp` and `memcmp`

`memcmp` compares bytes, as the C library does. `strcmp` compares characters, and these are
signed: a byte from 0x80 on comes before every other. The two agree unless just such a pair
of bytes stands at the first difference.
-/
namespace KmallocKfree.CString

open Prog
open ByteMemory (Mem)

/-- The sign of a result that stands for an order. -/
def orderSign : Ordering → ℤ
  | .lt => -1
  | .eq => 0
  | .gt => 1

/-- A byte read as a `char`. -/
def charOf (c : UInt8) : ℤ := schar c.toNat

/-- The lexicographic order of strings by their characters. -/
def charOrder (a b : List UInt8) : Ordering := compare (a.map charOf) (b.map charOf)

/-- At the first difference both strings have a character, and just one of the two is from
0x80 on. -/
def Mixed : List UInt8 → List UInt8 → Prop
  | c :: a, d :: b => if c = d then Mixed a b else (c < 128 ↔ 128 ≤ d)
  | _, _ => False

/-- `memcmp(a, b, min(strlen(a), strlen(b)) + 1)`. -/
def memcmpStrings (a b : ℕ) : StringCode ℤ := do
  let n1 ← strlen .s1 a
  let n2 ← strlen .s2 b
  memcmp a b (min n1 n2 + 1)

variable {a b : List UInt8} {c d : UInt8} {p q n : ℕ} {s : StringState}

section Orders

theorem orderSign_compare {α : Type} [LinearOrder α] (x y : α) :
    orderSign (compare x y) = if x < y then -1 else if y < x then 1 else 0 := by
  split_ifs with hlt hgt
  · rw [compare_lt_iff_lt.mpr hlt]
    rfl
  · rw [compare_gt_iff_gt.mpr hgt]
    rfl
  · rw [compare_eq_iff_eq.mpr (le_antisymm (not_lt.mp hgt) (not_lt.mp hlt))]
    rfl

theorem orderSign_inj {o o' : Ordering} : orderSign o = orderSign o' ↔ o = o' := by
  cases o <;> cases o' <;> decide

@[simp] theorem sign_orderSign (o : Ordering) : (orderSign o).sign = orderSign o := by
  cases o <;> decide

theorem charOf_inj : charOf c = charOf d ↔ c = d := by
  have hc := c.toNat_lt
  have hd := d.toNat_lt
  rw [← UInt8.toNat_inj]
  unfold charOf schar
  split_ifs <;> omega

theorem charOrder_cons : charOrder (c :: a) (d :: b) =
    (compare (charOf c) (charOf d)).then (charOrder a b) := List.compare_cons_cons

/-- Characters and bytes are in the same order, when both are from 0x80 on or neither is. -/
theorem compare_charOf : compare (charOf c) (charOf d) = compare c d ↔
    c = d ∨ ¬ (c < 128 ↔ 128 ≤ d) := by
  have hc := c.toNat_lt
  have hd := d.toNat_lt
  rw [UInt8.compare_eq_toNat_compare_toNat, ← UInt8.toNat_inj, UInt8.lt_iff_toNat_lt,
    UInt8.le_iff_toNat_le]
  change _ ↔ _ ∨ ¬ (c.toNat < 128 ↔ 128 ≤ d.toNat)
  unfold charOf schar
  rcases lt_trichotomy c.toNat d.toNat with hlt | heq | hgt
  · rw [compare_lt_iff_lt.mpr hlt, compare_lt_iff_lt]
    split_ifs <;> omega
  · rw [heq]
    simp
  · rw [compare_gt_iff_gt.mpr hgt, compare_gt_iff_gt]
    split_ifs <;> omega

/-- The order by characters is the order by bytes unless the first difference is mixed. -/
theorem charOrder_eq_iff : charOrder a b = compare a b ↔ ¬ Mixed a b := by
  induction a generalizing b with
  | nil => cases b <;> simp [charOrder, Mixed]
  | cons c a ih =>
    cases b with
    | nil => simp [charOrder, Mixed]
    | cons d b =>
      rw [charOrder_cons, List.compare_cons_cons, Mixed]
      by_cases hcd : c = d
      · subst hcd
        rw [if_pos rfl, ← ih]
        simp
      · have hne : compare c d ≠ .eq := fun h => hcd (Std.LawfulEqOrd.eq_of_compare h)
        have hne' : compare (charOf c) (charOf d) ≠ .eq := fun h =>
          hcd (charOf_inj.mp (compare_eq_iff_eq.mp h))
        have hthen : ∀ {o o' : Ordering}, o ≠ .eq → o.then o' = o := fun {o o'} h => by
          cases o <;> first | rfl | exact absurd rfl h
        rw [if_neg hcd, hthen hne, hthen hne', compare_charOf]
        simp only [hcd, false_or]

end Orders

section Strcmp

variable {P : Op Param Empty Empty → Prop} {β : Type} {next : β}

/-- Equal characters go on, others decide. -/
def charStep (o : Ordering) (next : β) : β ⊕ ℤ :=
  match o with
  | .eq => .inl next
  | o => .inr (orderSign o)

@[simp] theorem wp_compareChars (Q : β ⊕ ℤ → StringState → Prop) :
    wp P (compareChars c.toNat d.toNat next) s Q ↔
      Q (charStep (compare (charOf c) (charOf d)) next) s := by
  rw [compareChars]
  change wp P (if charOf c < charOf d then _ else if charOf d < charOf c then _ else _) s Q ↔ _
  rcases lt_trichotomy (charOf c) (charOf d) with hlt | heq | hgt
  · rw [if_pos hlt, compare_lt_iff_lt.mpr hlt]
    rfl
  · rw [if_neg heq.not_lt, if_neg heq.not_gt, compare_eq_iff_eq.mpr heq]
    simp [charOf_inj.mp heq, charStep]
  · rw [if_neg hgt.not_gt, if_pos hgt, compare_gt_iff_gt.mpr hgt]
    rfl

theorem wp_compareLengths (ha : StringAt s.mem p a) (hb : StringAt s.mem q b)
    (hp : ∀ i ≤ a.length, P (.load .s1 (p + i) 0 1))
    (hq : ∀ i ≤ b.length, P (.load .s2 (q + i) 0 1)) :
    wp P (compareLengths p q) s fun r t =>
      r = orderSign (compare a.length b.length) ∧ t = s := by
  rw [compareLengths, wp_bind]
  apply wp_post (wp_strlen hb hq)
  rintro _ _ ⟨rfl, rfl⟩
  rw [wp_bind]
  apply wp_post (wp_strlen ha hp)
  rintro _ _ ⟨rfl, rfl⟩
  rw [orderSign_compare]
  split_ifs <;> exact ⟨rfl, rfl⟩

/-- Once a string has ended, its length decides. -/
theorem charOrder_of_nil (h : a = [] ∨ b = []) :
    charOrder a b = compare a.length b.length := by
  rcases h with rfl | rfl
  · cases b with
    | nil => rfl
    | cons d b => exact (compare_lt_iff_lt.mpr (Nat.succ_pos _)).symm
  · cases a with
    | nil => rfl
    | cons c a => exact (compare_gt_iff_gt.mpr (Nat.succ_pos _)).symm

theorem wp_strcmpTail (ha : StringAt s.mem p a) (hb : StringAt s.mem q b)
    (hend : a = [] ∨ b = []) (hp : ∀ i ≤ a.length, P (.load .s1 (p + i) 0 1))
    (hq : ∀ i ≤ b.length, P (.load .s2 (q + i) 0 1)) :
    wp P (strcmpTail p q : StringCode (β ⊕ ℤ)) s fun r t =>
      r = .inr (orderSign (charOrder a b)) ∧ t = s := by
  rw [strcmpTail, wp_bind, charOrder_of_nil hend]
  apply wp_post (wp_compareLengths ha hb hp hq)
  rintro _ _ ⟨rfl, rfl⟩
  exact ⟨rfl, rfl⟩

theorem wp_strcmp_loop (ha : StringAt s.mem p a) (hb : StringAt s.mem q b) (hn : a.length < n) :
    wp (fun _ => True) (iterate strcmpRound n (p, q)) s fun r t =>
      r = orderSign (charOrder a b) ∧ t = s := by
  induction n generalizing p q a b with
  | zero => exact absurd hn (Nat.not_lt_zero _)
  | succ n ih =>
    rw [iterate, wp_bind', strcmpRound]
    simp only [wp_bind, wp_readByte, wp_ite, true_and]
    refine ⟨ha.ne_null, ?_⟩
    cases a with
    | nil =>
      rw [if_pos (by rw [ha.nul]; rfl)]
      apply wp_post (wp_strcmpTail ha hb (.inl rfl) (fun _ _ => trivial) fun _ _ => trivial)
      rintro _ _ ⟨rfl, rfl⟩
      exact ⟨rfl, rfl⟩
    | cons c a =>
      rw [ha.head, if_neg fun heq => ha.ne_zero (toNat_eq_zero.mp heq)]
      refine ⟨hb.ne_null, ?_⟩
      cases b with
      | nil =>
        rw [if_pos (by rw [hb.nul]; rfl)]
        apply wp_post (wp_strcmpTail ha hb (.inr rfl) (fun _ _ => trivial) fun _ _ => trivial)
        rintro _ _ ⟨rfl, rfl⟩
        exact ⟨rfl, rfl⟩
      | cons d b =>
        rw [hb.head, if_neg fun heq => hb.ne_zero (toNat_eq_zero.mp heq), wp_compareChars,
          charOrder_cons]
        cases compare (charOf c) (charOf d) with
        | lt => exact ⟨rfl, rfl⟩
        | gt => exact ⟨rfl, rfl⟩
        | eq =>
          rw [List.length_cons] at hn
          have hrest := ih ha.tail hb.tail (by omega)
          simpa only [ha.next, hb.next, Ordering.eq_then, charStep] using hrest

/-- `strcmp` returns the sign of the order by characters. -/
theorem exec_strcmp (ha : StringAt s.mem p a) (hb : StringAt s.mem q b) :
    exec (strcmp p q) s = .ok (orderSign (charOrder a b), s) := by
  have hbound := ha.bound
  apply exec_of_wp (P := fun _ => True)
  rw [strcmp, wp_bind, wp_check]
  exact ⟨⟨ha.ne_null, hb.ne_null⟩, wp_strcmp_loop ha hb (lt_loopBound (by omega))⟩

end Strcmp

section Memcmp

/-- The difference of two bytes survives its way through a `size_t`. -/
theorem byte_difference : toInt (toSize ((c.toNat : ℤ) - d.toNat) % 4294967296) =
    (c.toNat : ℤ) - d.toNat := by
  have hc := c.toNat_lt
  have hd := d.toNat_lt
  unfold toInt toSize
  split_ifs <;> omega

theorem toSize_difference : toSize ((c.toNat : ℤ) - d.toNat) = 0 ↔ c = d := by
  have hc := c.toNat_lt
  have hd := d.toNat_lt
  rw [← UInt8.toNat_inj]
  unfold toSize
  omega

theorem sign_difference :
    ((c.toNat : ℤ) - d.toNat).sign = orderSign (compare c d) := by
  rw [UInt8.compare_eq_toNat_compare_toNat, orderSign_compare]
  split_ifs with hlt hgt
  · exact Int.sign_eq_neg_one_of_neg (by omega)
  · exact Int.sign_eq_one_of_pos (by omega)
  · exact Int.sign_eq_zero_iff_zero.mpr (by omega)

/-- One byte of `memcmp`. -/
theorem wp_memcmp_byte {Q : ℤ → StringState → Prop} (hp : p ≠ 0) (hq : q ≠ 0)
    (hc : s.mem p = c) (hd : s.mem q = d)
    (hdiff : c ≠ d → Q ((c.toNat : ℤ) - d.toNat) s)
    (hsame : c = d → wp (fun _ => True) (memcmp (addPtr p 1) (addPtr q 1) n) s Q) :
    wp (fun _ => True) (memcmp p q (n + 1)) s Q := by
  rw [memcmp]
  simp only [wp_bind, wp_readByte, true_and, hc, hd]
  refine ⟨hp, hq, ?_⟩
  by_cases hcd : c = d
  · rw [if_neg (not_not.mpr (toSize_difference.mpr hcd))]
    exact hsame hcd
  · rw [if_pos fun h => hcd (toSize_difference.mp h), wp_pure, byte_difference]
    exact hdiff hcd

/-- Over the shorter string and its NUL, the sign of `memcmp` is the order by bytes. -/
theorem wp_memcmp (ha : StringAt s.mem p a) (hb : StringAt s.mem q b) :
    wp (fun _ => True) (memcmp p q (min a.length b.length + 1)) s fun r t =>
      r.sign = orderSign (compare a b) ∧ t = s := by
  induction a generalizing b p q with
  | nil =>
    rw [List.length_nil, Nat.zero_min]
    cases b with
    | nil =>
      apply wp_memcmp_byte ha.ne_null hb.ne_null ha.nul hb.nul
      · exact fun h => absurd rfl h
      · exact fun _ => ⟨rfl, rfl⟩
    | cons d b =>
      refine wp_memcmp_byte ha.ne_null hb.ne_null ha.nul hb.head (fun _ => ⟨?_, rfl⟩)
        fun h => absurd h.symm hb.ne_zero
      have hpos : 0 < d.toNat := Nat.pos_of_ne_zero fun h => hb.ne_zero (toNat_eq_zero.mp h)
      rw [List.compare_nil_cons]
      exact Int.sign_eq_neg_one_of_neg (by simpa using hpos)
  | cons c a ih =>
    cases b with
    | nil =>
      rw [List.length_nil, Nat.min_zero]
      refine wp_memcmp_byte ha.ne_null hb.ne_null ha.head hb.nul (fun _ => ⟨?_, rfl⟩)
        fun h => absurd h ha.ne_zero
      have hpos : 0 < c.toNat := Nat.pos_of_ne_zero fun h => ha.ne_zero (toNat_eq_zero.mp h)
      rw [List.compare_cons_nil]
      exact Int.sign_eq_one_of_pos (by simpa using hpos)
    | cons d b =>
      rw [List.length_cons, List.length_cons, Nat.succ_min_succ, List.compare_cons_cons]
      refine wp_memcmp_byte ha.ne_null hb.ne_null ha.head hb.head (fun hne => ⟨?_, rfl⟩)
        fun heq => ?_
      · rw [sign_difference]
        have hne' : compare c d ≠ .eq := fun h => hne (Std.LawfulEqOrd.eq_of_compare h)
        cases hcd : compare c d with
        | lt => rfl
        | gt => rfl
        | eq => exact absurd hcd hne'
      · subst heq
        rw [ha.next, hb.next]
        simpa using ih ha.tail hb.tail

theorem exec_memcmpStrings (ha : StringAt s.mem p a) (hb : StringAt s.mem q b) :
    ∃ r, exec (memcmpStrings p q) s = .ok (r, s) ∧ r.sign = orderSign (compare a b) := by
  have hrun : wp (fun _ => True) (memcmpStrings p q) s fun r t =>
      r.sign = orderSign (compare a b) ∧ t = s := by
    rw [memcmpStrings, wp_bind]
    apply wp_post (wp_strlen ha fun _ _ => trivial)
    rintro _ _ ⟨rfl, rfl⟩
    rw [wp_bind]
    apply wp_post (wp_strlen hb fun _ _ => trivial)
    rintro _ _ ⟨rfl, rfl⟩
    exact wp_memcmp ha hb
  obtain ⟨r, t, hr, hsign, rfl⟩ := wp_exec hrun
  exact ⟨r, hr, hsign⟩

end Memcmp

section Agreement

/-- `strcmp`, `memcmp` over the shorter string with its NUL, and the lexicographic order by
bytes agree on two strings. -/
def ComparisonsAgree (s : StringState) (p q : ℕ) (a b : List UInt8) : Prop :=
  ∃ r r', exec (strcmp p q) s = .ok (r, s) ∧ exec (memcmpStrings p q) s = .ok (r', s) ∧
    r.sign = r'.sign ∧ r.sign = orderSign (compare a b) ∧ r'.sign = orderSign (compare a b)

/-- They agree unless the first difference is between a byte from 0x80 on and a character
below. -/
theorem strcmp_memcmp_iff (ha : StringAt s.mem p a) (hb : StringAt s.mem q b) :
    ComparisonsAgree s p q a b ↔ ¬ Mixed a b := by
  rw [← charOrder_eq_iff, ← orderSign_inj, ← sign_orderSign (charOrder a b)]
  constructor
  · rintro ⟨r, -, hr, -, -, hsign, -⟩
    rw [exec_strcmp ha hb] at hr
    cases hr
    exact hsign
  · intro heq
    obtain ⟨r', hr', hsign⟩ := exec_memcmpStrings ha hb
    exact ⟨_, r', exec_strcmp ha hb, hr', heq.trans hsign.symm, heq, hsign⟩

theorem strcmp_memcmp_sample : ComparisonsAgree (twoStrings [97, 98] [97, 99]) 100 200
    [97, 98] [97, 99] ↔ ¬ Mixed [97, 98] [97, 99] :=
  strcmp_memcmp_iff ⟨by decide, by decide, by decide, rfl, rfl, rfl, trivial⟩
    ⟨by decide, by decide, by decide, rfl, rfl, rfl, trivial⟩

/-- The byte 0x80 comes before 1 for `strcmp` and after it for `memcmp`. -/
theorem strcmp_signed : ¬ ∀ (s : StringState) (p q : ℕ) (a b : List UInt8),
    StringAt s.mem p a → StringAt s.mem q b → ComparisonsAgree s p q a b := by
  intro hall
  have ha : StringAt (twoStrings [128] [1]).mem 100 [128] :=
    ⟨by decide, by decide, by decide, rfl, rfl, trivial⟩
  have hb : StringAt (twoStrings [128] [1]).mem 200 [1] :=
    ⟨by decide, by decide, by decide, rfl, rfl, trivial⟩
  obtain ⟨r, -, hr, -, -, hsign, -⟩ := hall _ 100 200 _ _ ha hb
  rw [exec_strcmp ha hb] at hr
  cases hr
  exact absurd hsign (by decide)

end Agreement
end KmallocKfree.CString
