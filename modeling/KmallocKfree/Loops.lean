import KmallocKfree.Records
import KmallocKfree.Pmm

/-!
# The loops of the allocator

Every loop of `pmm.c` walks links and writes nothing. Along a null-terminated
path each of them returns, and its result is a search or a scan of the list of
addresses.
-/
namespace KmallocKfree

open Prog

variable {F : Footprint Struct Global Lock} {s : PmmState} {k : Struct} {h t : ℕ}
  {l : List ℕ} {Q : ℕ → PmmState → Prop}

/-- `b` is the nearest address of `l` below `t`, or 0 when there is none. -/
def NearestBelow (l : List ℕ) (t b : ℕ) : Prop :=
  (b = 0 ∧ ∀ x ∈ l, ¬ x < t) ∨ (b ∈ l ∧ b < t ∧ ∀ x ∈ l, x < t → ¬ b < x)

/-- `a` is the nearest address of `l` above `t`, or 0 when there is none. -/
def NearestAbove (l : List ℕ) (t a : ℕ) : Prop :=
  (a = 0 ∧ ∀ x ∈ l, ¬ t < x) ∨ (a ∈ l ∧ t < a ∧ ∀ x ∈ l, t < x → ¬ x < a)

lemma foldl_neighbours (l : List ℕ) (t : ℕ) (acc : ℕ × ℕ) :
    l.foldl (fun (acc : ℕ × ℕ) h =>
      (if h < t ∧ (acc.1 = 0 ∨ acc.1 < h) then h else acc.1,
       if t < h ∧ (acc.2 = 0 ∨ h < acc.2) then h else acc.2)) acc =
    (l.foldl (pick (· < t) (· < ·)) acc.1, l.foldl (pick (t < ·) (· > ·)) acc.2) := by
  induction l generalizing acc with
  | nil => rfl
  | cons x l ih => exact ih _

theorem wp_neighbours {Q : ℕ × ℕ → PmmState → Prop} (hpath : Path (nextAt s.mem) h l 0)
    (hsees : ∀ x ∈ l, F.Sees k x 16) (hlen : l.length < loopBound)
    (hQ : ∀ b a, NearestBelow l t b → NearestAbove l t a → Q (b, a) s) :
    wp F.Allows (neighbours (readPtr k) t h) s Q := by
  have hpos : ∀ x ∈ l, x ≠ 0 := fun x hx => (hsees x hx).ne_null
  unfold neighbours
  refine wp_walk (nextAt s.mem) (fun h acc => .inl
      (if h < t ∧ (acc.1 = 0 ∨ acc.1 < h) then h else acc.1,
       if t < h ∧ (acc.2 = 0 ∨ h < acc.2) then h else acc.2))
    hpath hpos hlen ?_ ?_ ?_
  · intro x _ acc
    rw [wp_pure]
    exact ⟨rfl, rfl⟩
  · intro x hx
    rw [wp_readPtr (hsees x hx)]
    exact ⟨rfl, rfl⟩
  · rw [walkList_foldl, foldl_neighbours]
    exact hQ _ _ (foldl_pick l hpos) (foldl_pick l hpos)

theorem wp_predecessor {a : ℕ} (hpath : Path (nextAt s.mem) h l 0)
    (hsees : ∀ x ∈ l, F.Sees k x 16) (hlen : l.length < loopBound)
    (hQ : Q ((l.find? fun x => decide (nextAt s.mem x = a)).getD 0) s) :
    wp F.Allows (predecessor (readPtr k) a h) s Q := by
  unfold predecessor
  refine wp_walk (nextAt s.mem)
    (fun x (_ : Unit) => if nextAt s.mem x = a then .inr x else .inl ())
    hpath (fun x hx => (hsees x hx).ne_null) hlen ?_ ?_ ?_
  · intro x hx _
    rw [wp_bind, wp_readPtr (hsees x hx)]
    split_ifs <;> simp only [wp_pure, and_self]
  · intro x hx
    rw [wp_readPtr (hsees x hx)]
    exact ⟨rfl, rfl⟩
  · rw [walkList_find]
    simpa using hQ

theorem wp_scanPagelist {Q : ℕ × Bool → PmmState → Prop} (hpath : Path (nextAt s.mem) h l 0)
    (hsees : ∀ x ∈ l, F.Sees .pageheader x 16) (hlen : l.length < loopBound)
    (hQ : Q (((l.find? fun x => decide (x < t ∧ t < addPtr x pageBytes)).map
      fun x => (x, true)).getD (0, false)) s) :
    wp F.Allows (scanPagelist t h) s Q := by
  unfold scanPagelist
  refine wp_walk (nextAt s.mem)
    (fun x (_ : Unit) => if x < t ∧ t < addPtr x pageBytes then .inr (x, true) else .inl ())
    hpath (fun x hx => (hsees x hx).ne_null) hlen ?_ ?_ ?_
  · intro x _ _
    split_ifs <;> simp only [wp_pure, and_self]
  · intro x hx
    rw [wp_readPtr (hsees x hx)]
    exact ⟨rfl, rfl⟩
  · rw [walkList_find]
    exact hQ

/-- The two page searches of `kalloc`: a size test, then a free block. -/
lemma wp_findPage {p : ℤ → Prop} [DecidablePred p] (hpath : Path (nextAt s.mem) h l 0)
    (hsees : ∀ x ∈ l, F.Sees .pageheader x 16) (hlen : l.length < loopBound)
    (hQ : Q ((l.find? fun x => decide (p (sizeAt s.mem x) ∧ 0 < wordAt s.mem x)).getD 0) s) :
    wp F.Allows (walk (fun ph (_ : Unit) => do
      let pageSize ← Pageheader.size ph
      if p pageSize then
        let index ← Pageheader.pagefreeheadIndex ph
        if 0 < index then pure (.inr ph) else pure (.inl ())
      else pure (.inl ()))
    Pageheader.next (fun _ => 0) h ()) s Q := by
  refine wp_walk (nextAt s.mem)
    (fun x (_ : Unit) => if p (sizeAt s.mem x) ∧ 0 < wordAt s.mem x then .inr x else .inl ())
    hpath (fun x hx => (hsees x hx).ne_null) hlen ?_ ?_ ?_
  · intro x hx _
    rw [wp_bind, wp_readSize (hsees x hx), wp_ite, wp_bind, wp_readWord (hsees x hx), wp_ite]
    by_cases h₁ : p (sizeAt s.mem x)
    · by_cases h₂ : 0 < wordAt s.mem x <;> simp [h₁, h₂]
    · simp [h₁]
  · intro x hx
    rw [wp_readPtr (hsees x hx)]
    exact ⟨rfl, rfl⟩
  · rw [walkList_find]
    simpa using hQ

theorem wp_findSized {size : ℕ} (hpath : Path (nextAt s.mem) h l 0)
    (hsees : ∀ x ∈ l, F.Sees .pageheader x 16) (hlen : l.length < loopBound)
    (hQ : Q ((l.find? fun x =>
      decide (toSize (sizeAt s.mem x) = size ∧ 0 < wordAt s.mem x)).getD 0) s) :
    wp F.Allows (findSized size h) s Q :=
  wp_findPage (p := fun i => toSize i = size) hpath hsees hlen hQ

theorem wp_findEmpty (hpath : Path (nextAt s.mem) h l 0)
    (hsees : ∀ x ∈ l, F.Sees .pageheader x 16) (hlen : l.length < loopBound)
    (hQ : Q ((l.find? fun x => decide (sizeAt s.mem x = 0 ∧ 0 < wordAt s.mem x)).getD 0) s) :
    wp F.Allows (findEmpty h) s Q :=
  wp_findPage (p := fun i => i = 0) hpath hsees hlen hQ

end KmallocKfree
