import Mathlib.Data.List.Perm.Basic
import Mathlib.Data.List.Nodup

/-!
# Regions of addresses

A region is a half-open interval of addresses. Allocators keep lists of regions
that are pairwise disjoint; splitting a region, dropping one and joining two
neighbours are the edits that keep such a list disjoint.
-/
namespace KmallocKfree

structure Region where
  start : ℕ
  len : ℕ
  deriving DecidableEq

namespace Region

def stop (r : Region) : ℕ := r.start + r.len

def Contains (r : Region) (x : ℕ) : Prop := r.start ≤ x ∧ x < r.stop

def Disj (r t : Region) : Prop := r.stop ≤ t.start ∨ t.stop ≤ r.start

/-- `r` lies inside `t`. -/
def Within (r t : Region) : Prop := t.start ≤ r.start ∧ r.stop ≤ t.stop

instance (r : Region) (x : ℕ) : Decidable (r.Contains x) := inferInstanceAs (Decidable (_ ∧ _))
instance (r t : Region) : Decidable (r.Disj t) := inferInstanceAs (Decidable (_ ∨ _))
instance (r t : Region) : Decidable (r.Within t) := inferInstanceAs (Decidable (_ ∧ _))

variable {r t u : Region} {x : ℕ}

theorem Disj.symm (h : r.Disj t) : t.Disj r := Or.symm h

theorem Disj.mono (h : r.Disj t) (hu : u.Within r) : u.Disj t := by
  unfold Disj Within at *
  omega

theorem Disj.not_contains (h : r.Disj t) (hx : r.Contains x) : ¬ t.Contains x := by
  unfold Disj Contains at *
  omega

theorem Disj.start_ne (h : r.Disj t) (hr : 0 < r.len) (ht : 0 < t.len) : r.start ≠ t.start := by
  unfold Disj stop at h
  omega

theorem Within.contains (h : r.Within t) (hx : r.Contains x) : t.Contains x := by
  unfold Within Contains at *
  omega

/-- What is disjoint from two neighbouring regions is disjoint from their union. -/
theorem Disj.join (hr : r.Disj u) (ht : t.Disj u) (hadj : r.stop = t.start)
    (hlen : 0 < u.len) : Disj ⟨r.start, r.len + t.len⟩ u := by
  unfold Disj stop at *
  simp only
  omega

end Region

open Region

variable {l l₁ l₂ : List Region} {r t u : Region}

/-- `x` lies in a region of the list. -/
def Covered (l : List Region) (x : ℕ) : Prop := ∃ r ∈ l, r.Contains x

@[simp] theorem covered_nil {x : ℕ} : Covered [] x ↔ False := by simp [Covered]

@[simp] theorem covered_cons {x : ℕ} : Covered (r :: l) x ↔ r.Contains x ∨ Covered l x := by
  simp [Covered]

@[simp] theorem covered_append {x : ℕ} :
    Covered (l₁ ++ l₂) x ↔ Covered l₁ x ∨ Covered l₂ x := by
  simp only [Covered, List.mem_append, or_and_right, exists_or]

theorem covered_perm (h : l₁.Perm l₂) {x : ℕ} : Covered l₁ x ↔ Covered l₂ x := by
  unfold Covered
  simp only [h.mem_iff]

/-- Disjointness of a list does not depend on its order. -/
theorem disjoint_perm (h : l₁.Perm l₂) : l₁.Pairwise Disj ↔ l₂.Pairwise Disj :=
  h.pairwise_iff fun h => Disj.symm h

theorem disjoint_of_mem (hl : (l₁ ++ r :: l₂).Pairwise Disj) (ht : t ∈ l₁ ++ l₂) :
    r.Disj t := by
  have hperm : (r :: (l₁ ++ l₂)).Pairwise Disj :=
    (disjoint_perm List.perm_middle).mp hl
  exact (List.pairwise_cons.mp hperm).1 t ht

/-- A region of a disjoint list shares no byte with the others. -/
theorem not_covered_of_contains (hl : (l₁ ++ r :: l₂).Pairwise Disj) {x : ℕ} (hx : r.Contains x) :
    ¬ Covered (l₁ ++ l₂) x := by
  rintro ⟨t, ht, htx⟩
  exact (disjoint_of_mem hl ht).not_contains hx htx

theorem disjoint_of_ne (hl : l.Pairwise Disj) (hr : r ∈ l) (ht : t ∈ l) (hne : r ≠ t) :
    r.Disj t := by
  obtain ⟨l₁, l₂, rfl⟩ := List.append_of_mem hr
  refine disjoint_of_mem hl ?_
  simp only [List.mem_append, List.mem_cons] at ht ⊢
  rcases ht with h | rfl | h
  · exact .inl h
  · exact absurd rfl hne
  · exact .inr h

/-- Nonempty disjoint regions start at different addresses. -/
theorem starts_nodup (hl : l.Pairwise Disj) (hpos : ∀ r ∈ l, 0 < r.len) :
    (l.map Region.start).Nodup := by
  refine List.pairwise_map.mpr (hl.imp_of_mem fun ha hb h => ?_)
  exact h.start_ne (hpos _ ha) (hpos _ hb)

theorem eq_of_start_eq (hl : l.Pairwise Disj) (hpos : ∀ r ∈ l, 0 < r.len)
    (hr : r ∈ l) (ht : t ∈ l) (h : r.start = t.start) : r = t := by
  by_contra hne
  exact (disjoint_of_ne hl hr ht hne).start_ne (hpos r hr) (hpos t ht) h

end KmallocKfree
