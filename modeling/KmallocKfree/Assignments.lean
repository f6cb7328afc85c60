import Mathlib.Data.List.Basic
import Mathlib.Logic.Function.Basic

/-!
# Assignments one after the other

A list of assignments `x := y` between the cells of a store, made one after the other. When
no cell is read after it was assigned, and none is assigned twice, the result is that of the
simultaneous assignment, whatever the order.
-/
namespace KmallocKfree

variable {A B : Type} [DecidableEq A]

/-- Each cell `x` gets the value that `y` has at that moment. -/
def assign : (A → B) → List (A × A) → A → B
  | m, [] => m
  | m, (x, y) :: l => assign (Function.update m x (m y)) l

/-- A later assignment neither reads nor overwrites what an earlier one has assigned. -/
def Ordered (l : List (A × A)) : Prop := l.Pairwise fun a b => a.1 ≠ b.2 ∧ a.1 ≠ b.1

variable {m : A → B} {l : List (A × A)} {x y : A}

theorem assign_of_not_mem (h : ∀ a ∈ l, a.1 ≠ x) : assign m l x = m x := by
  induction l generalizing m with
  | nil => rfl
  | cons a l ih =>
    have ha : x ≠ a.1 := (h a List.mem_cons_self).symm
    rw [assign, ih fun b hb => h b (List.mem_cons_of_mem _ hb), Function.update_of_ne ha]

/-- An ordered list assigns the values that the store had at the start. -/
theorem assign_of_mem (h : Ordered l) (hxy : (x, y) ∈ l) : assign m l x = m y := by
  induction l generalizing m with
  | nil => cases hxy
  | cons a l ih =>
    obtain ⟨hfirst, hrest⟩ := List.pairwise_cons.mp h
    rw [assign]
    obtain rfl | hmem := List.mem_cons.mp hxy
    · rw [assign_of_not_mem fun b hb => (hfirst b hb).2.symm, Function.update_self]
    · rw [ih hrest hmem, Function.update_of_ne (hfirst _ hmem).1.symm]

/-- Two ordered lists of the same assignments have the same result. -/
theorem assign_congr {l' : List (A × A)} (h : Ordered l) (h' : Ordered l')
    (hl : ∀ a, a ∈ l ↔ a ∈ l') : assign m l = assign m l' := by
  funext x
  by_cases hx : ∃ y, (x, y) ∈ l
  · obtain ⟨y, hy⟩ := hx
    rw [assign_of_mem h hy, assign_of_mem h' ((hl _).mp hy)]
  · have hne : ∀ a ∈ l, a.1 ≠ x := by
      intro a ha heq
      exact hx ⟨a.2, heq ▸ ha⟩
    rw [assign_of_not_mem hne, assign_of_not_mem fun a ha => hne a ((hl a).mpr ha)]

end KmallocKfree
