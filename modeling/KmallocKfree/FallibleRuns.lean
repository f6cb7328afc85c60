/-!
# Runs of steps that may fail

A machine whose steps may end with an error, and a function that says what the steps mean. If
every step that its caller may take does what it means, or stops for a reason that the
meaning does not speak of, so does a run.
-/
namespace KmallocKfree

variable {S T A E : Type}

/-- One step after the other; the first error ends the run. -/
def runSteps (f : A → S → Except E S) : List A → S → Except E S
  | [], s => .ok s
  | a :: l, s =>
    match f a s with
    | .ok s => runSteps f l s
    | .error e => .error e

/-- Every step meets the condition when it is taken. -/
def StepsMeet (f : A → S → Except E S) (C : S → A → Prop) : List A → S → Prop
  | [], _ => True
  | a :: l, s => C s a ∧ ∀ s', f a s = .ok s' → StepsMeet f C l s'

/-- What is meant, or the end of the run for one of the reasons. -/
def Refines (stops : E → Prop) (R : T → S → Prop) (x : Except E S) : Except E T → Prop
  | .ok t => (∃ s, x = .ok s ∧ R t s) ∨ ∃ e, x = .error e ∧ stops e
  | .error e => x = .error e ∨ ∃ e', x = .error e' ∧ stops e'

/-- A run has ended with an error, at the step that has a reason to stop in the state that the
steps before it reach. -/
def StopsAt (f : A → S → Except E S) (stops : S → E → Prop) (l : List A) (s : S) (e : E) : Prop :=
  ∃ before a after s', l = before ++ a :: after ∧ runSteps f before s = .ok s' ∧
    f a s' = .error e ∧ stops s' e

variable {stops : E → Prop} {R R' : T → S → Prop} {f : A → S → Except E S} {g : A → T → Except E T}
  {C : T → A → Prop} {x : Except E S} {y : Except E T}

theorem Refines.stopped {e : E} (h : stops e) : Refines stops R (.error e : Except E S) y := by
  cases y with
  | ok t => exact .inr ⟨e, rfl, h⟩
  | error e' => exact .inr ⟨e, rfl, h⟩

/-- What is meant comes about, if the machine goes on. -/
theorem Refines.ok (h : Refines stops R x y) (hx : x.isOk = true) (hy : y.isOk = true) :
    ∃ t s, y = .ok t ∧ x = .ok s ∧ R t s := by
  cases y with
  | ok t =>
    rcases h with ⟨s, rfl, hs⟩ | ⟨e, rfl, -⟩
    · exact ⟨t, s, rfl, rfl, hs⟩
    · cases hx
  | error e => cases hy

theorem Refines.mono (h : Refines stops R x y) (hR : ∀ t s, y = .ok t → R t s → R' t s) :
    Refines stops R' x y := by
  cases y with
  | ok t =>
    rcases h with ⟨s, hx, hs⟩ | h
    · exact .inl ⟨s, hx, hR t s rfl hs⟩
    · exact .inr h
  | error e => exact h

theorem Refines.imp {stops' : E → Prop} (h : Refines stops R x y) (himp : ∀ e, stops e → stops' e) :
    Refines stops' R x y := by
  cases y with
  | ok t =>
    rcases h with h | ⟨e, hx, he⟩
    · exact .inl h
    · exact .inr ⟨e, hx, himp e he⟩
  | error e =>
    rcases h with h | ⟨e', hx, he⟩
    · exact .inl h
    · exact .inr ⟨e', hx, himp e' he⟩

theorem StopsAt.cons {reasons : S → E → Prop} {a : A} {l : List A} {s s' : S} {e : E}
    (hf : f a s = .ok s') (h : StopsAt f reasons l s' e) : StopsAt f reasons (a :: l) s e := by
  obtain ⟨before, b, after, s'', rfl, hrun, hb, hreason⟩ := h
  refine ⟨a :: before, b, after, s'', rfl, ?_, hb, hreason⟩
  rw [runSteps, hf]
  exact hrun

/-- Steps that refine what they mean make runs that do. -/
theorem refines_runSteps {reasons : S → E → Prop}
    (hstep : ∀ a t s, R t s → C t a → Refines (reasons s) R (f a s) (g a t)) :
    ∀ l t s, R t s → StepsMeet g C l t →
      Refines (StopsAt f reasons l s) R (runSteps f l s) (runSteps g l t) := by
  intro l
  induction l with
  | nil => exact fun t s hR _ => .inl ⟨s, rfl, hR⟩
  | cons a l ih =>
    intro t s hR hmeet
    obtain ⟨hC, hrest⟩ := hmeet
    have hone := hstep a t s hR hC
    have hhead : ∀ e, f a s = .error e → reasons s e → StopsAt f reasons (a :: l) s e :=
      fun e hf hreason => ⟨[], a, l, s, rfl, rfl, hf, hreason⟩
    rw [runSteps, runSteps]
    cases hg : g a t with
    | ok t' =>
      rw [hg] at hone
      rcases hone with ⟨s', hf, hR'⟩ | ⟨e, hf, hreason⟩
      · rw [hf]
        exact (ih t' s' hR' (hrest t' hg)).imp fun e he => he.cons hf
      · have hstops := hhead e hf hreason
        rw [hf]
        exact Refines.stopped hstops
    | error e =>
      rw [hg] at hone
      rcases hone with hf | ⟨e', hf, hreason⟩
      · rw [hf]
        exact .inl rfl
      · have hstops := hhead e' hf hreason
        rw [hf]
        exact .inr ⟨e', rfl, hstops⟩

/-- The last step of a run. -/
theorem runSteps_snoc {a : A} : ∀ {l : List A} {s s' : S}, runSteps f (l ++ [a]) s = .ok s' →
    ∃ t, runSteps f l s = .ok t ∧ f a t = .ok s' := by
  intro l
  induction l with
  | nil =>
    intro s s' h
    refine ⟨s, rfl, ?_⟩
    rw [List.nil_append, runSteps] at h
    cases hf : f a s with
    | ok t =>
      rw [hf] at h
      exact h
    | error e =>
      rw [hf] at h
      cases h
  | cons b l ih =>
    intro s s' h
    rw [List.cons_append, runSteps] at h
    rw [runSteps]
    cases hf : f b s with
    | ok t =>
      rw [hf] at h
      exact ih h
    | error e =>
      rw [hf] at h
      cases h

/-- A run that meets the condition, and one more step. -/
theorem stepsMeet_snoc {D : S → A → Prop} {a : A} : ∀ {l : List A} {s : S}, StepsMeet f D l s →
    (∀ s', runSteps f l s = .ok s' → D s' a) → StepsMeet f D (l ++ [a]) s := by
  intro l
  induction l with
  | nil => exact fun _ hlast => ⟨hlast _ rfl, fun _ _ => trivial⟩
  | cons b l ih =>
    intro s hmeet hlast
    refine ⟨hmeet.1, fun s' hf => ih (hmeet.2 s' hf) fun t ht => hlast t ?_⟩
    rw [runSteps, hf]
    exact ht

/-- What every step keeps holds at the end of a run. -/
theorem runSteps_invariant {I : S → Prop} (hstep : ∀ a s s', I s → f a s = .ok s' → I s') :
    ∀ l s s', I s → runSteps f l s = .ok s' → I s' := by
  intro l
  induction l with
  | nil =>
    intro s s' hI h
    cases h
    exact hI
  | cons a l ih =>
    intro s s' hI h
    rw [runSteps] at h
    cases hf : f a s with
    | ok t =>
      rw [hf] at h
      exact ih t s' (hstep a s t hI hf) h
    | error e =>
      rw [hf] at h
      cases h

end KmallocKfree
