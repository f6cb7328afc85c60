/-!
# Runs of a machine

A machine has initial states and labelled steps. A run may be restricted to steps
that meet a condition on the state before the step and its label; an invariant that
holds at the start and is kept by every such step holds in every state reached.
-/
namespace KmallocKfree

structure Machine (S A : Type) where
  init : S → Prop
  step : S → A → S → Prop

namespace Machine

variable {S A : Type} {M : Machine S A} {C D : S → A → Prop} {I : S → Prop} {s s' : S}

/-- The states reached by runs whose steps all meet `C`. -/
inductive Reach (M : Machine S A) (C : S → A → Prop) : S → Prop
  | init {s : S} : M.init s → Reach M C s
  | step {s s' : S} (a : A) : Reach M C s → C s a → M.step s a s' → Reach M C s'

theorem Reach.mono (h : Reach M C s) (hCD : ∀ s a, C s a → D s a) : Reach M D s := by
  induction h with
  | init h => exact .init h
  | step a _ hC hstep ih => exact .step a ih (hCD _ _ hC) hstep

/-- Induction over runs: the step may use that its start was reached. -/
theorem Reach.invariant (hinit : ∀ s, M.init s → I s)
    (hstep : ∀ s a s', Reach M C s → I s → C s a → M.step s a s' → I s')
    (h : Reach M C s) : I s := by
  induction h with
  | init h => exact hinit _ h
  | step a hr hC hs ih => exact hstep _ a _ hr ih hC hs

/-- The actions `l`, each meeting `C`, lead from `s` to `s'`. -/
inductive Trace (M : Machine S A) (C : S → A → Prop) : S → List A → S → Prop
  | nil {s : S} : Trace M C s [] s
  | cons {s t u : S} {a : A} {l : List A} : C s a → M.step s a t → Trace M C t l u →
      Trace M C s (a :: l) u

theorem Trace.append {t : S} {l l' : List A} (h : Trace M C s l t) (h' : Trace M C t l' s') :
    Trace M C s (l ++ l') s' := by
  induction h with
  | nil => exact h'
  | cons hC hstep _ ih => exact .cons hC hstep (ih h')

end Machine
end KmallocKfree
