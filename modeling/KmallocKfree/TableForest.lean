import Mathlib.Data.Set.Basic
import Mathlib.Data.List.Induction

/-!
# Trees of tables in a memory

A table is an address with numbered slots, and the word in a slot may name a table of
the next level. A path is a list of slot numbers; `ws` has the number of slots of each level
that leads to another one. Tables form a forest if no table is met on two ways. What a
writer may do to the words is described by what it does to the tables on paths: nothing, a
new table at the end of one path, or a new root.
-/
namespace KmallocKfree

/-- Every slot number of a path is one of its level. -/
def PathIn : List ℕ → List ℕ → Prop
  | _, [] => True
  | [], _ :: _ => False
  | w :: ws, k :: ks => k < w ∧ PathIn ws ks

section Paths

variable {ws p q : List ℕ} {k : ℕ}

@[simp] theorem pathIn_nil : PathIn ws [] := by
  cases ws <;> trivial

theorem PathIn.of_append (h : PathIn ws (p ++ q)) : PathIn ws p := by
  induction p generalizing ws with
  | nil => exact pathIn_nil
  | cons k p ih =>
    cases ws with
    | nil => exact h
    | cons w ws => exact ⟨h.1, ih h.2⟩

theorem PathIn.append_right (ws' : List ℕ) (h : PathIn ws p) : PathIn (ws ++ ws') p := by
  induction p generalizing ws with
  | nil => exact pathIn_nil
  | cons k p ih =>
    cases ws with
    | nil => exact absurd h id
    | cons w ws => exact ⟨h.1, ih h.2⟩

theorem PathIn.length_le (h : PathIn ws p) : p.length ≤ ws.length := by
  induction p generalizing ws with
  | nil => exact Nat.zero_le _
  | cons k p ih =>
    cases ws with
    | nil => exact absurd h id
    | cons w ws => exact Nat.succ_le_succ (ih h.2)

/-- The last number of a path is one of the level that the path before it leads to. -/
theorem pathIn_snoc : PathIn ws (p ++ [k]) ↔ PathIn ws p ∧ ∃ w, ws[p.length]? = some w ∧ k < w := by
  induction p generalizing ws with
  | nil =>
    cases ws with
    | nil => simp [PathIn]
    | cons w ws => simp [PathIn]
  | cons j p ih =>
    cases ws with
    | nil => simp [PathIn]
    | cons w ws => simp [PathIn, ih, and_assoc]

end Paths

section Tables

variable {W : Type*} (child : W → Option ℕ) (slot : ℕ → ℕ → ℕ)

/-- The table that a path leads to. -/
def descend (m : ℕ → W) : ℕ → List ℕ → Option ℕ
  | t, [] => some t
  | t, k :: p => (child (m (slot t k))).bind fun u => descend m u p

/-- The tables on paths from a set of roots. -/
def Reached (m : ℕ → W) (ws : List ℕ) (roots : Set ℕ) (u : ℕ) : Prop :=
  ∃ r ∈ roots, ∃ p, PathIn ws p ∧ descend child slot m r p = some u

/-- Every table is met on one path from one root. -/
structure Forest (m : ℕ → W) (ws : List ℕ) (roots : Set ℕ) : Prop where
  unique : ∀ r ∈ roots, ∀ r' ∈ roots, ∀ p p' u, PathIn ws p → PathIn ws p' →
    descend child slot m r p = some u → descend child slot m r' p' = some u → r = r' ∧ p = p'

variable {child slot} {m m' : ℕ → W} {ws p : List ℕ} {roots : Set ℕ} {r t u q k : ℕ} {e : W}

theorem descend_append (t : ℕ) (p p' : List ℕ) : descend child slot m t (p ++ p') =
    (descend child slot m t p).bind fun u => descend child slot m u p' := by
  induction p generalizing t with
  | nil => rfl
  | cons k p ih =>
    simp only [List.cons_append, descend, Option.bind_assoc]
    congr 1
    funext u
    exact ih u

theorem descend_snoc (t : ℕ) (p : List ℕ) (k : ℕ) : descend child slot m t (p ++ [k]) =
    (descend child slot m t p).bind fun u => child (m (slot u k)) := by
  rw [descend_append]
  congr 1
  funext u
  simp [descend]

theorem descend_snoc_of (h : descend child slot m t p = some u) :
    descend child slot m t (p ++ [k]) = child (m (slot u k)) := by
  rw [descend_snoc, h]
  rfl

/-- The tables depend only on the slots that lead on. -/
theorem descend_congr (h : ∀ p k u, PathIn ws (p ++ [k]) → descend child slot m t p = some u →
      child (m' (slot u k)) = child (m (slot u k))) :
    ∀ p, PathIn ws p → descend child slot m' t p = descend child slot m t p := by
  intro p
  induction p using List.reverseRecOn with
  | nil => exact fun _ => rfl
  | append_singleton p k ih =>
    intro hp
    rw [descend_snoc, descend_snoc, ih hp.of_append]
    cases hu : descend child slot m t p with
    | none => rfl
    | some u => exact h p k u hp hu

theorem Forest.congr (h : Forest child slot m ws roots)
    (heq : ∀ r ∈ roots, ∀ p, PathIn ws p → descend child slot m' r p = descend child slot m r p) :
    Forest child slot m' ws roots := by
  refine ⟨fun r hr r' hr' p p' u hp hp' hu hu' => ?_⟩
  rw [heq r hr p hp] at hu
  rw [heq r' hr' p' hp'] at hu'
  exact h.unique r hr r' hr' p p' u hp hp' hu hu'

theorem Forest.mono {roots' : Set ℕ} (h : Forest child slot m ws roots) (hsub : roots' ⊆ roots) :
    Forest child slot m ws roots' :=
  ⟨fun r hr r' hr' => h.unique r (hsub hr) r' (hsub hr')⟩

section Link

/-- An empty slot gets a table that nothing led to and that leads to nothing. -/
structure Link (child : W → Option ℕ) (slot : ℕ → ℕ → ℕ) (m m' : ℕ → W) (ws : List ℕ)
    (roots : Set ℕ) (r : ℕ) (p : List ℕ) (t k q : ℕ) : Prop where
  root : r ∈ roots
  path : PathIn ws (p ++ [k])
  table : descend child slot m r p = some t
  free : child (m (slot t k)) = none
  linked : child (m' (slot t k)) = some q
  fresh : ¬Reached child slot m ws roots q
  bare : ∀ j, PathIn ws (p ++ [k] ++ [j]) → child (m' (slot q j)) = none
  frame : ∀ r' ∈ roots, ∀ p' v j, PathIn ws (p' ++ [j]) → descend child slot m r' p' = some v →
    (v = t → j ≠ k) → child (m' (slot v j)) = child (m (slot v j))

variable (hf : Forest child slot m ws roots) (hl : Link child slot m m' ws roots r p t k q)

include hf hl

theorem Link.descend_eq : ∀ r' ∈ roots, ∀ p', PathIn ws p' → ∀ u,
    descend child slot m' r' p' = some u ↔
      descend child slot m r' p' = some u ∨ r' = r ∧ p' = p ++ [k] ∧ u = q := by
  intro r' hr' p'
  induction p' using List.reverseRecOn with
  | nil =>
    intro _ u
    simp [descend]
  | append_singleton p' j ih =>
    intro hp' u
    have ih' := ih hp'.of_append
    rw [descend_snoc, descend_snoc]
    cases hv : descend child slot m r' p' with
    | some v =>
      have hv' := (ih' v).mpr (.inl hv)
      rw [hv']
      simp only [Option.bind_some]
      by_cases hvt : v = t ∧ j = k
      · obtain ⟨rfl, rfl⟩ := hvt
        obtain ⟨hrr, hpp⟩ := hf.unique r' hr' r hl.root p' p v hp'.of_append hl.path.of_append hv
          hl.table
        rw [hl.linked, hl.free, hrr, hpp]
        simp [eq_comm]
      · rw [hl.frame r' hr' p' v j hp' hv (fun h h' => hvt ⟨h, h'⟩)]
        refine ⟨.inl, ?_⟩
        rintro (h | ⟨rfl, hpp, rfl⟩)
        · exact h
        · have hinj := List.append_inj' hpp rfl
          obtain ⟨rfl, hjk⟩ := hinj
          rw [hl.table] at hv
          cases hv
          exact absurd ⟨rfl, by simpa using hjk⟩ hvt
    | none =>
      simp only [Option.bind_none, reduceCtorEq, false_or]
      cases hv' : descend child slot m' r' p' with
      | none =>
        simp only [Option.bind_none, reduceCtorEq, false_iff]
        rintro ⟨rfl, hpp, rfl⟩
        obtain ⟨rfl, -⟩ := List.append_inj' hpp rfl
        rw [hl.table] at hv
        cases hv
      | some v =>
        rcases (ih' v).mp hv' with h | ⟨rfl, rfl, rfl⟩
        · rw [hv] at h
          cases h
        · simp only [Option.bind_some, hl.bare j hp', reduceCtorEq, false_iff]
          rintro ⟨-, hpp, -⟩
          have := congrArg List.length hpp
          simp at this

theorem Link.forest : Forest child slot m' ws roots := by
  have hnot : ∀ r' ∈ roots, ∀ p', PathIn ws p' → ¬descend child slot m r' p' = some q :=
    fun r' hr' p' hp' h => hl.fresh ⟨r', hr', p', hp', h⟩
  refine ⟨fun r₁ h₁ r₂ h₂ p₁ p₂ u hp₁ hp₂ hu₁ hu₂ => ?_⟩
  rcases (hl.descend_eq hf r₁ h₁ p₁ hp₁ u).mp hu₁ with hu₁ | ⟨rfl, rfl, rfl⟩
  · rcases (hl.descend_eq hf r₂ h₂ p₂ hp₂ u).mp hu₂ with hu₂ | ⟨-, -, rfl⟩
    · exact hf.unique r₁ h₁ r₂ h₂ p₁ p₂ u hp₁ hp₂ hu₁ hu₂
    · exact absurd hu₁ (hnot r₁ h₁ p₁ hp₁)
  · rcases (hl.descend_eq hf r₂ h₂ p₂ hp₂ u).mp hu₂ with hu₂ | ⟨rfl, rfl, -⟩
    · exact absurd hu₂ (hnot r₂ h₂ p₂ hp₂)
    · exact ⟨rfl, rfl⟩

end Link
end Tables
end KmallocKfree
