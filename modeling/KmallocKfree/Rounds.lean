import KmallocKfree.Formats

/-!
# The rounds of a scan

What one round of `printf` or `vsprintf` does to the state: a conversion asks for an argument
that is not there, or it moves the pointer on, adds to the output and leaves the digit counter
at 0.
-/
namespace KmallocKfree

/-- The states at the head of the loop. -/
inductive AtRound (body : Char → Printer → Except Exit Printer) (start : Printer) : Printer → Prop
  | start : AtRound body start start
  | round {s s' : Printer} {c : Char} {p : List Char} (h : AtRound body start s)
      (hp : s.pStr = c :: p) (hc : c ≠ nul) (hround : body c s = .ok s') : AtRound body start s'

/-- From `s` to `s'` the pointer has moved to `p`. -/
structure Advances (s s' : Printer) (p : List Char) : Prop where
  pStr : s'.pStr = p
  out : s.out <+: s'.out
  cnt : s.cnt = 0 → s'.cnt = 0

/-- The conversions of `printf`. -/
def conversions : List Char := ['%', 'c', 'x', 'b', 'd', 's']

variable {s s' s₁ : Printer} {c d : Char} {p p' : List Char} {k v : ℕ}
  {body : Char → Printer → Except Exit Printer} {start : Printer}

theorem ok_of_bind {α β : Type} {x : Except Exit α} {f : α → Except Exit β} {b : β}
    (h : x >>= f = .ok b) : ∃ a, x = .ok a ∧ f a = .ok b := by
  cases x with
  | error e => cases h
  | ok a => exact ⟨a, rfl, h⟩

section Advances

theorem Advances.refl (s : Printer) : Advances s s s.pStr := ⟨rfl, List.prefix_rfl, id⟩

theorem Advances.trans (h : Advances s s₁ p) (h' : Advances s₁ s' p') : Advances s s' p' :=
  ⟨h'.pStr, h.out.trans h'.out, fun hs => h'.cnt (h.cnt hs)⟩

theorem Advances.next (h : Advances s s' p) : Advances s s'.next p.tail :=
  ⟨congrArg List.tail h.pStr, h.out, h.cnt⟩

/-- The counter is at 0 in every round. -/
theorem AtRound.cnt (h : AtRound body start s) (hstart : start.cnt = 0)
    (hbody : ∀ c p s s', s.pStr = c :: p → body c s = .ok s' → ∃ q, Advances s s' q) :
    s.cnt = 0 := by
  induction h with
  | start => exact hstart
  | round _ hp _ hround ih =>
    obtain ⟨q, hadv⟩ := hbody _ _ _ _ hp hround
    exact hadv.cnt ih

end Advances

section Arguments

theorem vaInt_cases (s : Printer) : vaInt s = .error .argument ∨
    ∃ i ap, s.ap = .int i :: ap ∧ vaInt s = .ok (i, { s with ap := ap }) := by
  unfold vaInt
  split
  · exact .inr ⟨_, _, by assumption, rfl⟩
  · exact .inl rfl

theorem vaLong_cases (s : Printer) : vaLong s = .error .argument ∨
    ∃ v ap, s.ap = .long v :: ap ∧ vaLong s = .ok (v, { s with ap := ap }) := by
  unfold vaLong
  split
  · exact .inr ⟨_, _, by assumption, rfl⟩
  · exact .inl rfl

theorem vaStr_cases (s : Printer) : vaStr s = .error .argument ∨
    ∃ l ap, s.ap = .str l :: ap ∧ vaStr s = .ok (l, { s with ap := ap }) := by
  unfold vaStr
  split
  · exact .inr ⟨_, _, by assumption, rfl⟩
  · exact .inl rfl

end Arguments

section Printf

theorem hexDigits_advances : Advances s (hexDigits k v s) s.pStr := by
  induction k generalizing v s with
  | zero => exact ⟨rfl, List.prefix_rfl, fun _ => rfl⟩
  | succ k ih =>
    have hfirst : ∀ e, Advances s (s.emit e) s.pStr := fun e =>
      ⟨rfl, List.prefix_append _ [e], id⟩
    exact (hfirst _).trans ih

/-- A conversion takes its character; other characters it leaves to be printed. -/
theorem printfConversion_cases (c : Char) (s : Printer) :
    (c ∉ conversions ∧ printfConversion c s = .ok s) ∨
      (c ∈ conversions ∧ (printfConversion c s = .error .argument ∨
        ∃ s', printfConversion c s = .ok s' ∧ Advances s s' s.pStr.tail)) := by
  unfold printfConversion
  split
  · exact .inr ⟨by decide, .inr ⟨_, rfl, rfl, List.prefix_append _ ['%'], id⟩⟩
  · refine .inr ⟨by decide, ?_⟩
    obtain hva | ⟨i, ap, -, hva⟩ := vaInt_cases s
    · rw [hva]
      exact .inl rfl
    · rw [hva]
      exact .inr ⟨_, rfl, rfl, List.prefix_append _ _, id⟩
  · refine .inr ⟨by decide, ?_⟩
    obtain hva | ⟨v, ap, -, hva⟩ := vaLong_cases s
    · rw [hva]
      exact .inl rfl
    · rw [hva]
      have hcount : ∀ n, Advances s (Printer.count { s with ap := ap } n) s.pStr := fun _ =>
        ⟨rfl, List.prefix_rfl, id⟩
      exact .inr ⟨_, rfl, ((hcount _).trans hexDigits_advances).next⟩
  · refine .inr ⟨by decide, ?_⟩
    obtain hva | ⟨i, ap, -, hva⟩ := vaInt_cases s
    · rw [hva]
      exact .inl rfl
    · rw [hva]
      simp only [bind, Except.bind, intDigits_emit]
      exact .inr ⟨_, rfl, rfl, List.prefix_append _ _, fun _ => rfl⟩
  · refine .inr ⟨by decide, ?_⟩
    obtain hva | ⟨i, ap, -, hva⟩ := vaInt_cases s
    · rw [hva]
      exact .inl rfl
    · rw [hva]
      simp only [bind, Except.bind, intDigits_emit]
      split_ifs
      · exact .inr ⟨_, rfl, rfl, (List.prefix_append _ ['-']).trans (List.prefix_append _ _),
          fun _ => rfl⟩
      · exact .inr ⟨_, rfl, rfl, List.prefix_append _ _, fun _ => rfl⟩
  · refine .inr ⟨by decide, ?_⟩
    obtain hva | ⟨l, ap, -, hva⟩ := vaStr_cases s
    · rw [hva]
      exact .inl rfl
    · rw [hva]
      simp only [bind, Except.bind, putString_emit]
      exact .inr ⟨_, rfl, rfl, List.prefix_append _ _, id⟩
  · refine .inl ⟨?_, rfl⟩
    simp only [conversions, List.mem_cons, List.not_mem_nil, or_false, not_or]
    exact ⟨by assumption, by assumption, by assumption, by assumption, by assumption,
      by assumption⟩

theorem printfDefault_cons (hp : s.pStr = c :: p) :
    printfDefault s = .ok ((s.emit c).count 1) := by
  unfold printfDefault Printer.char
  rw [hp]
  rfl

theorem emit_advances : Advances s ((s.emit c).count v) s.pStr :=
  ⟨rfl, List.prefix_append _ [c], id⟩

theorem printfRound_lit (hc : c ≠ '%') (hp : s.pStr = c :: p) :
    ∃ s', printfRound c s = .ok s' ∧ Advances s s' p := by
  have hadv : ∀ n, Advances s ((s.emit c).count n).next p := fun n => by
    have hemit := (@emit_advances s c n).next
    rwa [hp] at hemit
  unfold printfRound
  split
  · exact ⟨_, rfl, hadv 4⟩
  · exact ⟨_, rfl, hadv 1⟩
  · exact ⟨_, rfl, hadv 1⟩
  · exact absurd rfl hc
  · rw [printfDefault_cons hp]
    exact ⟨_, rfl, hadv 1⟩

/-- The percent sign before a character that is no conversion. -/
theorem printfRound_unknown (hd : d ∉ conversions) (hp : s.pStr = '%' :: d :: p) :
    ∃ s', printfRound '%' s = .ok s' ∧ Advances s s' p := by
  have hnext : s.next.pStr = d :: p := congrArg List.tail hp
  obtain ⟨-, hconv⟩ | ⟨hmem, -⟩ := printfConversion_cases d s.next
  · have hround : printfRound '%' s = (do
        let t ← printfDefault s.next
        .ok t.next) := by
      simp only [printfRound, Printer.char, hnext, bind, Except.bind, hconv]
    rw [hround, printfDefault_cons hnext]
    have hemit := (@emit_advances s.next d 1).next
    rw [hnext] at hemit
    exact ⟨_, rfl, hemit.pStr, hemit.out, hemit.cnt⟩
  · exact absurd hmem hd

/-- The percent sign before a conversion, which is followed by a character. -/
theorem printfRound_conversion (hd : d ∈ conversions) (hp : s.pStr = '%' :: d :: p)
    (hne : p ≠ []) : printfRound '%' s = .error .argument ∨
      ∃ s', printfRound '%' s = .ok s' ∧ Advances s s' p.tail := by
  have hnext : s.next.pStr = d :: p := congrArg List.tail hp
  have hround : printfRound '%' s = (do
      let t ← printfConversion d s.next
      let t ← printfDefault t
      .ok t.next) := by
    simp only [printfRound, Printer.char, hnext, bind, Except.bind]
  obtain ⟨hmem, -⟩ | ⟨-, herror | ⟨t, hconv, hadv⟩⟩ := printfConversion_cases d s.next
  · exact absurd hd hmem
  · rw [hround, herror]
    exact .inl rfl
  · obtain ⟨e, p, rfl⟩ := List.exists_cons_of_ne_nil hne
    rw [hnext] at hadv
    have ht : t.pStr = e :: p := hadv.pStr
    rw [hround, hconv]
    simp only [bind, Except.bind]
    rw [printfDefault_cons ht]
    have hemit := (hadv.trans (@emit_advances t e 1)).next
    rw [ht] at hemit
    exact .inr ⟨_, rfl, hemit.pStr, hemit.out, hemit.cnt⟩

/-- A round that gets through. -/
theorem printfRound_advances (hp : s.pStr = c :: p) (h : printfRound c s = .ok s') :
    ∃ q, Advances s s' q := by
  by_cases hc : c = '%'
  · subst hc
    obtain ⟨d, hchar, h⟩ := ok_of_bind (x := s.next.char) h
    obtain ⟨t, hconv, h⟩ := ok_of_bind h
    obtain ⟨u, hdefault, h⟩ := ok_of_bind h
    cases h
    have ht : ∃ q, Advances s t q := by
      obtain ⟨-, hok⟩ | ⟨-, herror | ⟨t', hok, hadv⟩⟩ := printfConversion_cases d s.next
      · rw [hok] at hconv
        cases hconv
        exact ⟨_, rfl, List.prefix_rfl, id⟩
      · rw [herror] at hconv
        cases hconv
      · rw [hok] at hconv
        cases hconv
        exact ⟨_, hadv.pStr, hadv.out, hadv.cnt⟩
    obtain ⟨q, ht⟩ := ht
    obtain ⟨e, -, hdefault⟩ := ok_of_bind hdefault
    cases hdefault
    exact ⟨_, (ht.trans emit_advances).next⟩
  · obtain ⟨t, hround, hadv⟩ := printfRound_lit hc hp
    rw [hround] at h
    cases h
    exact ⟨p, hadv⟩

end Printf

section Vsprintf

/-- A conversion leaves the pointer at its character. -/
theorem vsprintfConversion_cases (c : Char) (s : Printer) :
    vsprintfConversion c s = .error .argument ∨
      ∃ s', vsprintfConversion c s = .ok s' ∧ Advances s s' s.pStr := by
  unfold vsprintfConversion
  split
  · exact .inr ⟨_, rfl, emit_advances⟩
  · obtain hva | ⟨i, ap, -, hva⟩ := vaInt_cases s
    · rw [hva]
      exact .inl rfl
    · rw [hva]
      simp only [bind, Except.bind, intDigits_emit]
      split_ifs
      · exact .inr ⟨_, rfl, rfl, (List.prefix_append _ ['-']).trans (List.prefix_append _ _),
          fun _ => rfl⟩
      · exact .inr ⟨_, rfl, rfl, List.prefix_append _ _, fun _ => rfl⟩
  · obtain hva | ⟨i, ap, -, hva⟩ := vaInt_cases s
    · rw [hva]
      exact .inl rfl
    · rw [hva]
      exact .inr ⟨_, rfl, rfl, List.prefix_append _ _, id⟩
  · obtain hva | ⟨l, ap, -, hva⟩ := vaStr_cases s
    · rw [hva]
      exact .inl rfl
    · rw [hva]
      simp only [bind, Except.bind, putString_emit]
      exact .inr ⟨_, rfl, rfl, List.prefix_append _ _, id⟩
  · exact .inr ⟨_, rfl, Advances.refl s⟩

theorem vsprintfRound_lit (hc : c ≠ '%') : vsprintfRound c s = .ok ((s.emit c).count 1).next := by
  unfold vsprintfRound
  split
  · contradiction
  · rfl

theorem vsprintfRound_percent (hp : s.pStr = '%' :: d :: p) :
    vsprintfRound '%' s = (do
      let t ← vsprintfConversion d s.next
      .ok t.next) := by
  have hnext : s.next.pStr = d :: p := congrArg List.tail hp
  simp only [vsprintfRound, Printer.char, hnext, bind, Except.bind]

/-- A round that gets through. -/
theorem vsprintfRound_advances (hp : s.pStr = c :: p) (h : vsprintfRound c s = .ok s') :
    ∃ q, Advances s s' q := by
  by_cases hc : c = '%'
  · subst hc
    cases p with
    | nil =>
      have hnext : s.next.pStr = [] := congrArg List.tail hp
      simp only [vsprintfRound, Printer.char, hnext, bind, Except.bind] at h
      cases h
    | cons d p =>
      rw [vsprintfRound_percent hp] at h
      obtain herror | ⟨t, hconv, hadv⟩ := vsprintfConversion_cases d s.next
      · rw [herror] at h
        cases h
      · rw [hconv] at h
        cases h
        exact ⟨_, (hadv.next).pStr, hadv.out, hadv.cnt⟩
  · rw [vsprintfRound_lit hc] at h
    cases h
    exact ⟨_, emit_advances.next⟩

end Vsprintf
end KmallocKfree
