import KmallocKfree.Formats
import Mathlib.Data.List.GetD

/-!
# `vsnprintf` stores what `vsprintf` stores, until its bound stops it

The bound is checked before every character, so `vsnprintf` stores the output of
`vsprintf` one character at a time and returns at the first check that fails. The count is
an `int`: below 2^31 the checks stop it exactly at the bound. Only the way out at the end of
the format stores a NUL, and it does so without a check, so that the buffer is respected
when the output is shorter than the bound.
-/
namespace KmallocKfree

/-- The check of the bound before the character at offset `k` lets it pass. -/
def Fits (n k : ℕ) : Prop := toSize (wrapInt (k + 1)) ≤ n

instance (n k : ℕ) : Decidable (Fits n k) := inferInstanceAs (Decidable (_ ≤ _))

/-- Characters stored behind `out` until a check fails. -/
def storeAll (n : ℕ) : List Char → List Char → Except Exit (List Char)
  | out, [] => .ok out
  | out, c :: e =>
    if Fits n out.length then storeAll n (out ++ [c]) e
    else .error (.returned out (wrapInt out.length))

/-- The state of `vsnprintf`, which counts the characters that it stores. -/
def Printer.counted (s : Printer) : Printer := { s with retNum := wrapInt s.out.length }

section Storing

variable {n m base cnt : ℕ} {out e e' l : List Char} {s s' : Printer} {c : Char} {i : ℤ}

/-- One text behind the other. -/
theorem storeAll_append {r : Except Exit Printer} : (do
    let _ ← storeAll n out (e ++ e')
    r) = (do
    let _ ← storeAll n out e
    let _ ← storeAll n (out ++ e) e'
    r) := by
  induction e generalizing out with
  | nil => simp only [List.nil_append, List.append_nil, storeAll, bind, Except.bind]
  | cons c e ih =>
    rw [List.cons_append, storeAll, storeAll]
    split_ifs
    · rw [ih, List.append_assoc, List.singleton_append]
    · rfl

/-- All checks let the characters pass. -/
theorem storeAll_fits (h : ∀ k, out.length ≤ k → k < out.length + e.length → Fits n k) :
    storeAll n out e = .ok (out ++ e) := by
  induction e generalizing out with
  | nil => simp [storeAll]
  | cons c e ih =>
    have hc : Fits n out.length := h _ le_rfl (by simp)
    rw [storeAll, if_pos hc, ih]
    · simp
    · intro k hlo hhi
      simp only [List.length_append, List.length_cons, List.length_nil] at h hlo hhi
      exact h k (by omega) (by omega)

/-- The check before the character at offset `m` is the first that fails. -/
theorem storeAll_stops (hlo : out.length ≤ m) (hhi : m < out.length + e.length)
    (h : ∀ k, out.length ≤ k → k < m → Fits n k) (hm : ¬ Fits n m) :
    storeAll n out e = .error (.returned ((out ++ e).take m) (wrapInt m)) := by
  induction e generalizing out with
  | nil => simp at hhi; omega
  | cons c e ih =>
    by_cases heq : m = out.length
    · subst heq
      rw [storeAll, if_neg hm, List.take_left]
    · have hc : Fits n out.length := h _ le_rfl (by omega)
      simp only [List.length_cons] at hhi
      rw [storeAll, if_pos hc, ih, List.append_assoc, List.singleton_append]
      · simp only [List.length_append, List.length_singleton]
        omega
      · simp only [List.length_append, List.length_singleton]
        omega
      · intro k hk
        simp only [List.length_append, List.length_singleton] at hk
        exact h k (by omega)

/-- What is stored has passed its checks. -/
theorem storeAll_ok (h : storeAll n out e = .ok l) {k : ℕ} (hlo : out.length ≤ k)
    (hhi : k < out.length + e.length) : Fits n k := by
  induction e generalizing out with
  | nil =>
    rw [List.length_nil] at hhi
    omega
  | cons c e ih =>
    rw [storeAll] at h
    split_ifs at h with hfits
    by_cases hk : k = out.length
    · rwa [hk]
    · apply ih h
      · rw [List.length_append, List.length_singleton]
        omega
      · rw [List.length_append, List.length_singleton]
        rw [List.length_cons] at hhi
        omega

theorem storeChar_counted : storeChar n c s.counted = (do
    let _ ← storeAll n s.out [c]
    .ok (s.emit c).counted) := by
  have hcount : wrapInt (s.counted.retNum + 1) = wrapInt (s.out.length + 1) := wrapInt_add _ _
  unfold storeChar
  rw [hcount, storeAll]
  by_cases hfits : Fits n s.out.length
  · have hpass : ¬ n < toSize (wrapInt (s.out.length + 1)) := not_lt.mpr hfits
    rw [if_neg hpass, if_pos hfits]
    simp only [Printer.count, Printer.counted, Printer.emit, storeAll, bind, Except.bind,
      List.length_append, List.length_singleton, Nat.cast_add, Nat.cast_one]
    rw [wrapInt_add]
  · have hstop : n < toSize (wrapInt (s.out.length + 1)) := not_le.mp hfits
    rw [if_pos hstop, if_neg hfits]
    rfl

/-- A character, and then the rest. -/
theorem storeChar_bind {f : Printer → Except Exit Printer} {t : Printer}
    (hf : f (s.emit c).counted = (do let _ ← storeAll n (s.out ++ [c]) e; .ok t)) :
    (do let u ← storeChar n c s.counted; f u) = (do
      let _ ← storeAll n s.out (c :: e)
      .ok t) := by
  have hsplit : (do let _ ← storeAll n s.out (c :: e); .ok t : Except Exit Printer) = _ :=
    storeAll_append (e := [c])
  rw [hsplit, storeChar_counted, ← hf]
  cases storeAll n s.out [c] <;> rfl

theorem intDigits_counted : intDigits (storeChar n) base cnt i s.counted = (do
    let _ ← storeAll n s.out (digitChars base cnt i)
    .ok { s with out := s.out ++ digitChars base cnt i, cnt := 0 : Printer }.counted) := by
  induction cnt generalizing i s with
  | zero => simp [intDigits, digitChars, storeAll, Printer.counted, bind, Except.bind]
  | succ cnt ih =>
    rw [intDigits, digitChars]
    refine storeChar_bind (ih.trans ?_)
    simp only [Printer.emit, List.append_assoc, List.singleton_append]

theorem putString_counted : putString (storeChar n) l s.counted = (do
    let _ ← storeAll n s.out (cString l)
    .ok { s with out := s.out ++ cString l : Printer }.counted) := by
  induction l generalizing s with
  | nil => simp [putString, cString, storeAll, Printer.counted, bind, Except.bind]
  | cons c l ih =>
    rw [putString, cString, List.takeWhile_cons]
    by_cases hc : c = nul
    · simp [hc, storeAll, Printer.counted, bind, Except.bind]
    · rw [if_neg hc, if_pos (by simpa using hc)]
      refine storeChar_bind (ih.trans ?_)
      simp only [Printer.emit, List.append_assoc, List.singleton_append]
      rfl

end Storing

section Conversions

variable {n fuel : ℕ} {c : Char} {s s' : Printer} {r : Except Exit Printer}

/-- `vsnprintf` goes on as `vsprintf` does, once it has stored what `vsprintf` stores. -/
def Follows (n : ℕ) (s s' : Printer) (r : Except Exit Printer) : Prop :=
  ∃ e, s'.out = s.out ++ e ∧ r = (do let _ ← storeAll n s.out e; .ok s'.counted)

theorem follows_int (h : vsprintfConversion 'd' s = .ok s') :
    Follows n s s' (vsnprintfConversion n 'd' s.counted) := by
  obtain ⟨p, ap, out, ret, cnt⟩ := s
  match ap with
  | [] => cases h
  | .long v :: ap => cases h
  | .str l :: ap => cases h
  | .int i :: ap =>
    by_cases hneg : i < 0
    · simp only [vsprintfConversion, vaInt, bind, Except.bind, if_pos hneg, intDigits_emit] at h
      cases h
      refine ⟨'-' :: digitChars 10 (digitCount 10 (wrapInt (-i)) cnt) (wrapInt (-i)), ?_, ?_⟩
      · simp [Printer.emit, Printer.count]
      · have hstart : vsnprintfConversion n 'd' (Printer.counted
            ⟨p, .int i :: ap, out, ret, cnt⟩) = (do
              let u ← storeChar n '-' (Printer.counted ⟨p, ap, out, ret, cnt⟩)
              intDigits (storeChar n) 10 (digitCount 10 (wrapInt (-i)) u.cnt)
                (wrapInt (-i)) u) := by
          simp only [vsnprintfConversion, vaInt, Printer.counted, bind, Except.bind, if_pos hneg]
        rw [hstart]
        exact storeChar_bind intDigits_counted
    · simp only [vsprintfConversion, vaInt, bind, Except.bind, if_neg hneg, intDigits_emit] at h
      cases h
      refine ⟨digitChars 10 (digitCount 10 i cnt) i, rfl, ?_⟩
      have hstart : vsnprintfConversion n 'd' (Printer.counted ⟨p, .int i :: ap, out, ret, cnt⟩) =
          intDigits (storeChar n) 10 (digitCount 10 i cnt) i
            (Printer.counted ⟨p, ap, out, ret, cnt⟩) := by
        simp only [vsnprintfConversion, vaInt, Printer.counted, bind, Except.bind, if_neg hneg]
      rw [hstart, intDigits_counted]
      rfl

theorem follows_conversion (h : vsprintfConversion c s = .ok s') :
    Follows n s s' (vsnprintfConversion n c s.counted) := by
  by_cases hd : c = 'd'
  · subst hd
    exact follows_int h
  · obtain ⟨p, ap, out, ret, cnt⟩ := s
    unfold vsprintfConversion at h
    split at h
    · cases h
      exact ⟨['%'], rfl, storeChar_counted⟩
    · exact absurd rfl hd
    · match ap with
      | [] => cases h
      | .long v :: ap => cases h
      | .str l :: ap => cases h
      | .int i :: ap =>
        cases h
        exact ⟨[toChar i], rfl, @storeChar_counted n ⟨p, ap, out, ret, cnt⟩ (toChar i)⟩
    · match ap with
      | [] => cases h
      | .long v :: ap => cases h
      | .int i :: ap => cases h
      | .str l :: ap =>
        simp only [vaStr, bind, Except.bind, putString_emit] at h
        cases h
        exact ⟨cString l, rfl, @putString_counted n l ⟨p, ap, out, ret, cnt⟩⟩
    · cases h
      refine ⟨[], by simp, ?_⟩
      unfold vsnprintfConversion
      split <;> first | contradiction | rfl

theorem Follows.next (h : Follows n s s' r) :
    Follows n s s'.next (do let u ← r; .ok u.next) := by
  obtain ⟨e, hout, rfl⟩ := h
  refine ⟨e, hout, ?_⟩
  cases storeAll n s.out e <;> rfl

/-- One round. -/
theorem follows_round (h : vsprintfRound c s = .ok s') :
    Follows n s s' (vsnprintfRound n c s.counted) := by
  by_cases hc : c = '%'
  · subst hc
    cases hchar : s.next.char with
    | error e =>
      simp only [vsprintfRound, hchar, bind, Except.bind] at h
      cases h
    | ok d =>
      simp only [vsprintfRound, hchar, bind, Except.bind] at h
      have hchar' : s.counted.next.char = .ok d := hchar
      cases hconv : vsprintfConversion d s.next with
      | error e =>
        rw [hconv] at h
        cases h
      | ok t =>
        rw [hconv] at h
        cases h
        have hfollow := (follows_conversion (n := n) hconv).next
        simp only [vsnprintfRound, bind, Except.bind, hchar']
        exact hfollow
  · have hround : vsprintfRound c s = .ok ((s.emit c).count 1).next := by
      unfold vsprintfRound
      split
      · contradiction
      · rfl
    have hround' : vsnprintfRound n c s.counted = (do
        let u ← storeChar n c s.counted
        .ok u.next) := by
      unfold vsnprintfRound
      split
      · contradiction
      · rfl
    rw [hround] at h
    cases h
    rw [hround', storeChar_counted]
    exact Follows.next ⟨[c], rfl, rfl⟩

/-- The whole scan. -/
theorem follows_scan (h : scan vsprintfRound fuel s = .ok s') :
    Follows n s s' (scan (vsnprintfRound n) fuel s.counted) := by
  induction fuel generalizing s with
  | zero => cases h
  | succ fuel ih =>
    cases hp : s.pStr with
    | nil =>
      simp only [scan, Printer.char, hp, bind, Except.bind] at h
      cases h
    | cons c p =>
      have hp' : s.counted.pStr = c :: p := hp
      by_cases hc : c = nul
      · subst hc
        rw [scan_end hp] at h
        cases h
        rw [scan_end hp']
        exact ⟨[], by simp, rfl⟩
      · rw [scan_cons hp hc] at h
        rw [scan_cons hp' hc]
        cases hround : vsprintfRound c s with
        | error e =>
          rw [hround] at h
          cases h
        | ok t =>
          rw [hround] at h
          obtain ⟨e, hout, hr⟩ := follows_round (n := n) hround
          obtain ⟨e', hout', hr'⟩ := ih h
          refine ⟨e ++ e', by rw [hout', hout, List.append_assoc], ?_⟩
          rw [hr, storeAll_append, ← hout, ← hr']
          cases storeAll n s.out e <;> rfl

end Conversions

section Outcome

variable {n m : ℕ} {fmt : List Char} {ap : List Arg} {w : Written}

/-- `vsnprintf` in terms of the output of `vsprintf`. -/
theorem vsnprintf_eq (h : vsprintf (some fmt) ap = .ok w) : vsnprintf n (some fmt) ap =
    match storeAll n [] w.chars with
    | .error (.returned out retNum) => .ok ⟨out, false, some retNum⟩
    | .error e => .error e
    | .ok _ => .ok ⟨w.chars, true,
        if wrapInt (strlen w.chars) ≠ 0 ∧ toSize (wrapInt (strlen w.chars)) ≤ n
        then some (wrapInt (strlen w.chars)) else none⟩ := by
  cases hscan : scan vsprintfRound (fmt.length + 1) (.start fmt ap) with
  | error e =>
    simp only [vsprintf, hscan, bind, Except.bind] at h
    cases h
  | ok s =>
    simp only [vsprintf, hscan, bind, Except.bind] at h
    cases h
    obtain ⟨e, hout, hr⟩ := follows_scan (n := n) hscan
    have hout : s.out = e := hout
    have hr : scan (vsnprintfRound n) (fmt.length + 1) (.start fmt ap) =
        (do let _ ← storeAll n [] e; .ok s.counted) := hr
    simp only [vsnprintf, hr, hout, bind, Except.bind]
    cases storeAll n [] e with
    | error e => cases e <;> rfl
    | ok l => simp only [Printer.counted, hout]

/-- All characters fit: `vsnprintf` reaches the end of the format. -/
theorem vsnprintf_complete (h : vsprintf (some fmt) ap = .ok w)
    (hfits : ∀ k, k < w.chars.length → Fits n k) : vsnprintf n (some fmt) ap =
      .ok ⟨w.chars, true, if wrapInt (strlen w.chars) ≠ 0 ∧
        toSize (wrapInt (strlen w.chars)) ≤ n then some (wrapInt (strlen w.chars)) else none⟩ := by
  rw [vsnprintf_eq h, storeAll_fits]
  intro k _ hk
  exact hfits k (by simpa using hk)

/-- `vsnprintf` returns at the first check that fails. -/
theorem vsnprintf_stops (h : vsprintf (some fmt) ap = .ok w) (hm : m < w.chars.length)
    (hfits : ∀ k, k < m → Fits n k) (hstop : ¬ Fits n m) :
    vsnprintf n (some fmt) ap = .ok ⟨w.chars.take m, false, some (wrapInt m)⟩ := by
  rw [vsnprintf_eq h, storeAll_stops (m := m) (by simp) (by simpa using hm)
    (fun k _ hk => hfits k hk) hstop]
  rfl

/-- The first check that fails, when one does. -/
theorem exists_first_stop {l : ℕ} (h : ¬ ∀ k, k < l → Fits n k) :
    ∃ m, m < l ∧ (∀ k, k < m → Fits n k) ∧ ¬ Fits n m := by
  push Not at h
  obtain ⟨hlt, hstop⟩ := Nat.find_spec h
  refine ⟨Nat.find h, hlt, fun k hk => ?_, hstop⟩
  by_contra hnot
  exact Nat.find_min h hk ⟨lt_trans hk hlt, hnot⟩

theorem fits_iff {k : ℕ} (hk : k + 1 < 2147483648) : Fits n k ↔ k + 1 ≤ n := by
  have hwrap : wrapInt ((k : ℤ) + 1) = ((k + 1 : ℕ) : ℤ) := by
    rw [← Nat.cast_succ]
    exact wrapInt_natCast hk
  unfold Fits
  rw [hwrap, toSize_natCast (by omega)]

/-- Below 2^31 the check at the bound fails: a count of 2^31 is negative as an `int`, and
a huge number as a `size_t`. -/
theorem not_fits (hn : n < 2147483648) : ¬ Fits n n := by
  unfold Fits wrapInt toInt toWord toSize
  split_ifs <;> omega

/-- The first characters of the output, as many as the bound lets pass. -/
theorem vsnprintf_prefix (h : vsprintf (some fmt) ap = .ok w) (hpos : w.chars ≠ [])
    (hnul : nul ∉ w.chars) (hlen : min n w.chars.length < 2147483648) :
    ∃ w', vsnprintf n (some fmt) ap = .ok w' ∧ w'.chars = w.chars.take n ∧
      w'.ret = some ((min n w.chars.length : ℕ) : ℤ) := by
  have hpos : 0 < w.chars.length := List.length_pos_iff.mpr hpos
  by_cases hfit : w.chars.length ≤ n
  · rw [min_eq_right hfit] at hlen ⊢
    have hcount : wrapInt (strlen w.chars) = (w.chars.length : ℤ) := by
      rw [strlen_of_not_mem hnul]
      exact wrapInt_natCast hlen
    have hcheck : (w.chars.length : ℤ) ≠ 0 ∧ toSize (w.chars.length : ℤ) ≤ n := by
      rw [toSize_natCast (by omega)]
      constructor <;> omega
    refine ⟨_, vsnprintf_complete h fun k hk => (fits_iff (by omega)).mpr (by omega), ?_, ?_⟩
    · exact (List.take_of_length_le hfit).symm
    · simp only [hcount]
      exact if_pos hcheck
  · rw [min_eq_left (by omega)] at hlen ⊢
    refine ⟨_, vsnprintf_stops h (by omega) (fun k hk => (fits_iff (by omega)).mpr (by omega))
      (not_fits hlen), rfl, ?_⟩
    simp only [wrapInt_natCast hlen]

/-- What `vsnprintf` returns is an `int`. -/
theorem vsnprintf_ret_lt {i : ℤ} (h : vsprintf (some fmt) ap = .ok w) {w' : Written}
    (h' : vsnprintf n (some fmt) ap = .ok w') (hret : w'.ret = some i) : i < 2147483648 := by
  by_cases hall : ∀ k, k < w.chars.length → Fits n k
  · rw [vsnprintf_complete h hall] at h'
    cases h'
    simp only at hret
    split_ifs at hret
    cases hret
    exact wrapInt_lt _
  · obtain ⟨m, hm, hfits, hstop⟩ := exists_first_stop hall
    rw [vsnprintf_stops h hm hfits hstop] at h'
    cases h'
    cases hret
    exact wrapInt_lt _

end Outcome

section FirstCharacters

variable {ps : List Piece} {n : ℕ}

/-- `vsnprintf` stores the first characters of the output of `vsprintf`, as many as the
bound allows, and returns their number, as long as that number is an `int`. -/
theorem vsnprintf_truncates (hps : ∀ x ∈ ps, x.item.Ordinary ∧ x.Proper)
    (hpos : expansion ps ≠ []) (hlen : min n (expansion ps).length < 2147483648) :
    ∃ w w', vsprintf (some (text (format ps))) (arguments ps) = .ok w ∧
      w.chars = expansion ps ∧
      vsnprintf n (some (text (format ps))) (arguments ps) = .ok w' ∧
      w'.chars = w.chars.take (min n w.chars.length) ∧
      w'.ret = some ((min n w.chars.length : ℕ) : ℤ) := by
  have hout := vsprintf_eq fun x hx => (hps x hx).1
  obtain ⟨w', hw', hchars, hret⟩ :=
    vsnprintf_prefix hout hpos (nul_not_mem_expansion hps) hlen
  refine ⟨_, w', hout, rfl, hw', ?_, hret⟩
  rw [hchars, ← List.take_eq_take_min]

/-- `"x%d"` with -42 and room for three characters. -/
def number : List Piece := [.lit 'x', .int (-42)]

theorem number_proper : ∀ x ∈ number, x.item.Ordinary ∧ x.Proper := by
  intro x hx
  obtain rfl | rfl : x = .lit 'x' ∨ x = .int (-42) := by simpa [number] using hx
  · exact ⟨⟨by decide, by decide⟩, trivial⟩
  · exact ⟨trivial, by decide, by decide⟩

theorem vsnprintf_truncates_number : ∃ w w',
    vsprintf (some (text (format number))) (arguments number) = .ok w ∧
      w.chars = expansion number ∧
      vsnprintf 3 (some (text (format number))) (arguments number) = .ok w' ∧
      w'.chars = w.chars.take (min 3 w.chars.length) ∧
      w'.ret = some ((min 3 w.chars.length : ℕ) : ℤ) :=
  vsnprintf_truncates number_proper (by decide +kernel) (by decide +kernel)

/-- A string of 2^31 characters and a bound that large: the number does not fit an `int`. -/
theorem vsnprintf_count_wraps : ¬ ∀ (ps : List Piece) (n : ℕ),
    (∀ x ∈ ps, x.item.Ordinary ∧ x.Proper) → expansion ps ≠ [] →
    ∃ w w', vsprintf (some (text (format ps))) (arguments ps) = .ok w ∧
      vsnprintf n (some (text (format ps))) (arguments ps) = .ok w' ∧
      w'.chars = w.chars.take (min n w.chars.length) ∧
      w'.ret = some ((min n w.chars.length : ℕ) : ℤ) := by
  intro hall
  obtain ⟨l, hlen, hnul⟩ : ∃ l : List Char, l.length = 2147483648 ∧ nul ∉ l :=
    ⟨List.replicate 2147483648 'a', List.length_replicate, fun h =>
      absurd (List.eq_of_mem_replicate h) (by decide)⟩
  have hps : ∀ x ∈ [Piece.str l], x.item.Ordinary ∧ x.Proper := by
    intro x hx
    obtain rfl := List.mem_singleton.mp hx
    exact ⟨trivial, hnul⟩
  have hexp : expansion [Piece.str l] = l := by
    simp [expansion, Piece.expand, cString_of_not_mem hnul]
  have hne : expansion [Piece.str l] ≠ [] := by
    rw [hexp]
    rintro rfl
    simp at hlen
  obtain ⟨w, w', hw, hw', -, hret⟩ := hall [.str l] 2147483648 hps hne
  have hchars : w.chars = l := by
    rw [vsprintf_eq fun x hx => (hps x hx).1, hexp] at hw
    cases hw
    rfl
  have hlt := vsnprintf_ret_lt hw hw' hret
  rw [hchars, hlen] at hlt
  simp at hlt

end FirstCharacters

section Buffer

variable {n : ℕ} {w : Written} {fmt : List Char} {ap : List Arg}

/-- What the call stored from `out` on. -/
def Written.bytes (w : Written) : List Char := w.chars ++ if w.terminated then [nul] else []

/-- The buffer after the call, when it held `b` before. -/
def Written.buffer (w : Written) (b : ℕ → Char) (i : ℕ) : Char := w.bytes.getD i (b i)

/-- Whatever the buffer held: no byte from offset `n` on is written, and when there is room
at all, a NUL stands below offset `n` behind the stored characters. -/
def RespectsBuffer (n : ℕ) (w : Written) : Prop :=
  ∀ b : ℕ → Char, (∀ i, n ≤ i → w.buffer b i = b i) ∧
    (1 ≤ n → ∃ i, w.chars.length ≤ i ∧ i < n ∧ w.buffer b i = nul)

theorem respectsBuffer_iff : RespectsBuffer n w ↔
    (n = 0 ∧ w.bytes = []) ∨ (w.terminated = true ∧ w.chars.length < n) := by
  have hend : w.terminated = true → ∀ b, w.buffer b w.chars.length = nul := by
    intro hterm b
    simp [Written.buffer, Written.bytes, hterm]
  constructor
  · intro h
    cases hterm : w.terminated with
    | true =>
      refine .inr ⟨rfl, ?_⟩
      by_contra hle
      have hsame := (h fun _ => 'a').1 _ (not_lt.mp hle)
      rw [hend hterm] at hsame
      exact absurd hsame (by decide)
    | false =>
      have hbytes : w.bytes = w.chars := by simp [Written.bytes, hterm]
      by_cases hn : n = 0
      · refine .inl ⟨hn, ?_⟩
        rw [hbytes]
        cases hchars : w.chars with
        | nil => rfl
        | cons c l =>
          -- a byte other than the one that was stored
          obtain ⟨d, hd⟩ : ∃ d, d ≠ c := by
            by_cases hc : c = 'a'
            · exact ⟨'b', by rw [hc]; decide⟩
            · exact ⟨'a', fun heq => hc heq.symm⟩
          have hsame := (h fun _ => d).1 0 (by omega)
          rw [Written.buffer, hbytes, hchars] at hsame
          exact absurd hsame.symm hd
      · obtain ⟨i, hlo, -, hnul⟩ := (h fun _ => 'a').2 (by omega)
        rw [Written.buffer, hbytes, List.getD_eq_default _ _ hlo] at hnul
        exact absurd hnul (by decide)
  · rintro (⟨rfl, hempty⟩ | ⟨hterm, hlt⟩) b
    · refine ⟨fun i _ => ?_, fun h => absurd h (by omega)⟩
      rw [Written.buffer, hempty]
      rfl
    · refine ⟨fun i hi => ?_, fun _ => ⟨_, le_rfl, hlt, hend hterm b⟩⟩
      have hlen : w.bytes.length = w.chars.length + 1 := by simp [Written.bytes, hterm]
      exact List.getD_eq_default _ _ (by omega)

/-- No check fails because the count has wrapped: from 2^31 on the count is a huge number. -/
def Unwrapped (n l : ℕ) : Prop := l < 2147483648 ∨ 18446744069414584320 + min l 4294967295 ≤ n

theorem fits_all {l : ℕ} (h : l ≤ n) : (∀ k, k < l → Fits n k) ↔ Unwrapped n l := by
  unfold Unwrapped
  constructor
  · intro hfits
    by_contra hnot
    have hlast := hfits (min l 4294967295 - 1) (by omega)
    unfold Fits wrapInt toInt toWord toSize at hlast
    split_ifs at hlast <;> omega
  · intro hun k hk
    unfold Fits wrapInt toInt toWord toSize
    split_ifs <;> omega

/-- `snprintf` respects its buffer exactly when the output is shorter than the bound, or
there is no room and something to print. The arguments match the format when `vsprintf` gets
through. -/
theorem snprintf_respects_iff (h : vsprintf (some fmt) ap = .ok w) :
    ∃ w', snprintf n (some fmt) ap = .ok w' ∧
      (RespectsBuffer n w' ↔ (n = 0 ∧ w.chars ≠ []) ∨
        (w.chars.length < n ∧ Unwrapped n w.chars.length)) := by
  by_cases hall : ∀ k, k < w.chars.length → Fits n k
  · refine ⟨_, vsnprintf_complete h hall, ?_⟩
    rw [respectsBuffer_iff]
    constructor
    · rintro (⟨-, hempty⟩ | ⟨-, hlt⟩)
      · simp [Written.bytes] at hempty
      · exact .inr ⟨hlt, (fits_all hlt.le).mp hall⟩
    · rintro (⟨rfl, hne⟩ | ⟨hlt, -⟩)
      · exact absurd (hall 0 (List.length_pos_iff.mpr hne)) (not_fits (by omega))
      · exact .inr ⟨rfl, hlt⟩
  · have hun : ¬ (w.chars.length < n ∧ Unwrapped n w.chars.length) :=
      fun h => hall ((fits_all h.1.le).mpr h.2)
    obtain ⟨m, hm, hfits, hstop⟩ := exists_first_stop hall
    refine ⟨_, vsnprintf_stops h hm hfits hstop, ?_⟩
    rw [respectsBuffer_iff]
    constructor
    · rintro (⟨rfl, -⟩ | ⟨hterm, -⟩)
      · exact .inl ⟨rfl, List.length_pos_iff.mp (Nat.zero_lt_of_lt hm)⟩
      · cases hterm
    · rintro (⟨rfl, -⟩ | h)
      · have hzero : m = 0 := by
          apply Nat.eq_zero_of_not_pos
          intro hpos
          exact not_fits (by omega) (hfits 0 hpos)
        rw [hzero]
        exact .inl ⟨rfl, rfl⟩
      · exact absurd h hun

/-- `"x%d"` with -42 and room for eight characters. -/
theorem snprintf_respects_number : ∃ w', snprintf 8 (some ['x', '%', 'd']) [.int (-42)] = .ok w' ∧
    (RespectsBuffer 8 w' ↔ ((8 : ℕ) = 0 ∧ ['x', '-', '4', '2'] ≠ []) ∨
      (['x', '-', '4', '2'].length < 8 ∧ Unwrapped 8 ['x', '-', '4', '2'].length)) :=
  snprintf_respects_iff (w := ⟨['x', '-', '4', '2'], true, some 4⟩) (by decide +kernel)

/-- Three characters and room for three: the NUL goes behind the buffer. -/
theorem snprintf_overruns : ¬ ∀ (fmt : List Char) (ap : List Arg) (n : ℕ) (w : Written),
    vsprintf (some fmt) ap = .ok w →
    ∃ w', snprintf n (some fmt) ap = .ok w' ∧ RespectsBuffer n w' := by
  intro hall
  obtain ⟨w, hw, hrespects⟩ := hall ['a', 'b', 'c'] [] 3 ⟨['a', 'b', 'c'], true, some 3⟩
    (by decide +kernel)
  have hrun : snprintf 3 (some ['a', 'b', 'c']) [] =
      .ok ⟨['a', 'b', 'c'], true, some 3⟩ := by decide +kernel
  obtain rfl : w = ⟨['a', 'b', 'c'], true, some 3⟩ := Except.ok.inj (hw.symm.trans hrun)
  obtain ⟨hzero, -⟩ | ⟨-, hlt⟩ := respectsBuffer_iff.mp hrespects
  · cases hzero
  · exact absurd hlt (by decide)

end Buffer
end KmallocKfree
