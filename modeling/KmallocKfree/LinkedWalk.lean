import KmallocKfree.Program
import Mathlib.Data.List.Nodup
import Mathlib.Data.Finset.Card
import Mathlib.Data.Finset.Range
import Mathlib.Order.Basic
import Mathlib.Tactic.Positivity

/-!
# Linked lists and walks along them

`Path f a l e` says that following the link function `f` from `a` visits exactly
the addresses of `l` and then reaches `e`. The edits of a list are stated on the
link function: a path sees only the links of its own addresses.

`walkList` is the pure fold that a `while (h) { ...; h = h->next; }` loop computes
along a null-terminated path, including the loops that leave early.
-/
namespace KmallocKfree

def Path (f : ℕ → ℕ) : ℕ → List ℕ → ℕ → Prop
  | a, [], e => a = e
  | a, x :: l, e => a = x ∧ Path f (f x) l e

instance Path.decidable (f : ℕ → ℕ) : ∀ a l e, Decidable (Path f a l e)
  | a, [], e => inferInstanceAs (Decidable (a = e))
  | a, x :: l, e =>
      have := Path.decidable f (f x) l e
      inferInstanceAs (Decidable (a = x ∧ Path f (f x) l e))

namespace Path

variable {f g : ℕ → ℕ} {a b c e x y : ℕ} {l l₁ l₂ : List ℕ}

@[simp] theorem nil : Path f a [] e ↔ a = e := Iff.rfl

@[simp] theorem cons : Path f a (x :: l) e ↔ a = x ∧ Path f (f x) l e := Iff.rfl

theorem append : Path f a (l₁ ++ l₂) e ↔ ∃ c, Path f a l₁ c ∧ Path f c l₂ e := by
  induction l₁ generalizing a with
  | nil => simp
  | cons x l₁ ih => simp [ih, and_assoc]

/-- A path only reads the links of its own addresses. -/
theorem congr (h : Path f a l e) (hg : ∀ x ∈ l, g x = f x) : Path g a l e := by
  induction l generalizing a with
  | nil => exact h
  | cons x l ih =>
    refine ⟨h.1, ?_⟩
    rw [hg x List.mem_cons_self]
    exact ih h.2 (fun y hy => hg y (List.mem_cons_of_mem _ hy))

/-- Bypass `y`: its predecessor `x` takes over its link. -/
theorem unlink (h : Path f a (l₁ ++ x :: y :: l₂) e) (hx : g x = f y)
    (hg : ∀ z ∈ l₁ ++ l₂, g z = f z) : Path g a (l₁ ++ x :: l₂) e := by
  obtain ⟨c, h₁, rfl, rfl, h₂⟩ := append.mp h
  refine append.mpr ⟨c, h₁.congr fun z hz => hg z (List.mem_append_left _ hz), rfl, ?_⟩
  rw [hx]
  exact h₂.congr fun z hz => hg z (List.mem_append_right _ hz)

/-- Two null-terminated paths from one address agree. -/
theorem unique (h₁ : Path f a l₁ 0) (h₂ : Path f a l₂ 0) (hl₁ : 0 ∉ l₁) (hl₂ : 0 ∉ l₂) :
    l₁ = l₂ := by
  induction l₁ generalizing a l₂ with
  | nil =>
    cases l₂ with
    | nil => rfl
    | cons y l₂ =>
      simp only [nil, cons] at h₁ h₂
      simp_all
  | cons x l₁ ih =>
    cases l₂ with
    | nil =>
      simp only [nil, cons] at h₁ h₂
      simp_all
    | cons y l₂ =>
      obtain ⟨rfl, h₁⟩ := h₁
      obtain ⟨rfl, h₂⟩ := h₂
      rw [ih h₁ h₂ (fun h => hl₁ (List.mem_cons_of_mem _ h))
        (fun h => hl₂ (List.mem_cons_of_mem _ h))]

/-- Every link of a path leads to a later address or to its end. -/
theorem link_mem (h : Path f a l e) (hx : x ∈ l) : f x ∈ l.tail ∨ f x = e := by
  induction l generalizing a with
  | nil => simp at hx
  | cons y l ih =>
    obtain ⟨-, h⟩ := h
    rcases List.mem_cons.mp hx with rfl | hx
    · cases l with
      | nil => exact .inr h
      | cons z l => exact .inl (by rw [h.1]; exact List.mem_cons_self)
    · rcases ih h hx with h' | h'
      · exact .inl (List.mem_of_mem_tail h')
      · exact .inr h'

/-- The first address that links to `y` is the one before it. -/
theorem find_link (h : Path f a (l₁ ++ x :: y :: l₂) e) (hnd : (l₁ ++ x :: y :: l₂).Nodup) :
    (l₁ ++ x :: y :: l₂).find? (fun z => decide (f z = y)) = some x := by
  induction l₁ generalizing a with
  | nil =>
    obtain ⟨-, hx, -⟩ := h
    simp [hx]
  | cons z l₁ ih =>
    obtain ⟨-, h⟩ := h
    rw [List.cons_append] at hnd ⊢
    obtain ⟨-, hnd'⟩ := List.nodup_cons.mp hnd
    have hz : f z ≠ y := by
      rintro rfl
      cases l₁ with
      | nil =>
        have hx : f z = x := h.1
        rw [List.nil_append, hx] at hnd'
        simp at hnd'
      | cons w l₁ =>
        have hw : f z = w := h.1
        rw [hw] at hnd'
        simp at hnd'
    simp [hz, ih h hnd']

/-- No address of a path links back to its start. -/
theorem link_ne_start (h : Path f x (x :: l) e) (hnd : (x :: l).Nodup) (he : x ≠ e)
    (hy : y ∈ x :: l) : f y ≠ x := by
  intro hyx
  rcases h.link_mem hy with h' | h'
  · rw [hyx] at h'
    exact (List.nodup_cons.mp hnd).1 h'
  · exact he (hyx.symm.trans h')

theorem find_start (h : Path f x (x :: l) e) (hnd : (x :: l).Nodup) (he : x ≠ e) :
    (x :: l).find? (fun z => decide (f z = x)) = none := by
  rw [List.find?_eq_none]
  intro z hz
  rw [decide_eq_true_eq]
  exact h.link_ne_start hnd he hz

/-- Searching a path for a link to `y` finds the address before `y`, if any. -/
theorem find_before (h : Path f a (l₁ ++ y :: l₂) e) (hnd : (l₁ ++ y :: l₂).Nodup)
    (he : y ≠ e) :
    ((l₁ ++ y :: l₂).find? fun z => decide (f z = y)).getD 0 = l₁.getLastD 0 := by
  rcases List.eq_nil_or_concat' l₁ with rfl | ⟨l₀, x, rfl⟩
  · obtain rfl : a = y := h.1
    rw [List.nil_append] at hnd h ⊢
    rw [h.find_start hnd he]
    rfl
  · rw [List.append_assoc, List.singleton_append] at h hnd ⊢
    rw [h.find_link hnd]
    simp

end Path

/-- The addresses met by following `f` from `a`, for at most `n` links. -/
def follow (f : ℕ → ℕ) : ℕ → ℕ → List ℕ
  | 0, _ => []
  | n + 1, a => if a = 0 then [] else a :: follow f n (f a)

/-- Following the links of a null-terminated path visits the path. -/
theorem Path.follow_eq {f : ℕ → ℕ} {a n : ℕ} {l : List ℕ} (h : Path f a l 0) (h0 : 0 ∉ l)
    (hn : l.length < n) : follow f n a = l := by
  induction n generalizing a l with
  | zero => omega
  | succ n ih =>
    cases l with
    | nil =>
      obtain rfl : a = 0 := h
      rfl
    | cons x l =>
      obtain ⟨rfl, h⟩ := h
      rw [List.mem_cons, not_or] at h0
      rw [follow, if_neg (Ne.symm h0.1), ih h h0.2 (by rw [List.length_cons] at hn; omega)]

/-- Distinct addresses below a bound are at most that many. -/
theorem length_le_of_nodup {l : List ℕ} {n : ℕ} (hl : l.Nodup) (hn : ∀ x ∈ l, x < n) :
    l.length ≤ n := by
  have hsub : l.toFinset ⊆ Finset.range n := by
    intro x hx
    exact Finset.mem_range.mpr (hn x (List.mem_toFinset.mp hx))
  have hcard := Finset.card_le_card hsub
  rwa [List.toFinset_card_of_nodup hl, Finset.card_range] at hcard

/-- A walk along distinct 64-bit addresses stays within the loop bound. -/
theorem length_lt_loopBound {l : List ℕ} (hl : l.Nodup) (h0 : 0 ∉ l)
    (hlt : ∀ x ∈ l, x < 2 ^ 64) : l.length < Prog.loopBound := by
  have hlen := length_le_of_nodup (List.nodup_cons.mpr ⟨h0, hl⟩) (n := 2 ^ 64) (by
    intro x hx
    rcases List.mem_cons.mp hx with rfl | hx
    · positivity
    · exact hlt x hx)
  unfold Prog.loopBound
  rw [List.length_cons] at hlen
  omega

variable {K V L E α β : Type}

/-- The value of a walk along a list of addresses. -/
def walkList (visit : ℕ → β → β ⊕ α) (exit : β → α) : List ℕ → β → α
  | [], acc => exit acc
  | x :: l, acc =>
      match visit x acc with
      | .inl acc' => walkList visit exit l acc'
      | .inr a => a

/-- A search loop returns its result at the first address that passes the test. -/
theorem walkList_find {p : ℕ → Prop} [DecidablePred p] (g : ℕ → α) (d : α) (l : List ℕ) :
    walkList (fun x (_ : Unit) => if p x then .inr (g x) else .inl ()) (fun _ => d) l () =
      ((l.find? (fun x => decide (p x))).map g).getD d := by
  induction l with
  | nil => rfl
  | cons x l ih => by_cases h : p x <;> simp [walkList, h, ih]

/-- A loop that never leaves early is a fold. -/
theorem walkList_foldl (f : β → ℕ → β) (exit : β → α) (l : List ℕ) (acc : β) :
    walkList (fun x acc => .inl (f acc x)) exit l acc = exit (l.foldl f acc) := by
  induction l generalizing acc with
  | nil => rfl
  | cons x l ih => simp [walkList, ih]

section Pick

variable {p : ℕ → Prop} [DecidablePred p] {R : ℕ → ℕ → Prop} [DecidableRel R]

/-- Keep the better of two candidates; 0 stands for no candidate yet. -/
def pick (p : ℕ → Prop) [DecidablePred p] (R : ℕ → ℕ → Prop) [DecidableRel R] (acc x : ℕ) : ℕ :=
  if p x ∧ (acc = 0 ∨ R acc x) then x else acc

/-- The scan for the best candidate finds one that no other candidate beats. -/
theorem foldl_pick [IsTrans ℕ R] [Std.Irrefl R] (l : List ℕ) (hpos : ∀ x ∈ l, x ≠ 0) :
    (l.foldl (pick p R) 0 = 0 ∧ ∀ x ∈ l, ¬ p x) ∨
      (l.foldl (pick p R) 0 ∈ l ∧ p (l.foldl (pick p R) 0) ∧
        ∀ x ∈ l, p x → ¬ R (l.foldl (pick p R) 0) x) := by
  induction l using List.reverseRecOn with
  | nil => simp
  | append_singleton l y ih =>
    have ih := ih fun x hx => hpos x (List.mem_append_left _ hx)
    rw [List.foldl_append, List.foldl_cons, List.foldl_nil]
    generalize l.foldl (pick p R) 0 = a at ih ⊢
    unfold pick
    split_ifs with h
    · right
      refine ⟨by simp, h.1, fun x hx hp hR => ?_⟩
      rcases List.mem_append.mp hx with hx | hx
      · rcases ih with ⟨-, hnone⟩ | ⟨ha, -, hbest⟩
        · exact hnone x hx hp
        · have ha0 : a ≠ 0 := hpos a (List.mem_append_left _ ha)
          exact hbest x hx hp (IsTrans.trans _ _ _ (h.2.resolve_left ha0) hR)
      · rw [List.mem_singleton.mp hx] at hR
        exact Std.Irrefl.irrefl y hR
    · rcases ih with ⟨ha, hnone⟩ | ⟨ha, hpa, hbest⟩
      · left
        refine ⟨ha, fun x hx hp => ?_⟩
        rcases List.mem_append.mp hx with hx | hx
        · exact hnone x hx hp
        · rw [List.mem_singleton.mp hx] at hp
          exact h ⟨hp, .inl ha⟩
      · right
        refine ⟨List.mem_append_left _ ha, hpa, fun x hx hp hR => ?_⟩
        rcases List.mem_append.mp hx with hx | hx
        · exact hbest x hx hp hR
        · rw [List.mem_singleton.mp hx] at hp hR
          exact h ⟨hp, .inr hR⟩

end Pick

namespace Prog

variable [DecidableEq V] [DecidableEq L] {P : Op K V L → Prop} {s : Store V L}

/-- A walk that reads the links of a null-terminated path and changes nothing. -/
theorem wp_walk {visit : ℕ → β → Prog K V L E (β ⊕ α)} {next : ℕ → Prog K V L E ℕ}
    {exit : β → α} {Q : α → Store V L → Prop} (f : ℕ → ℕ) (v : ℕ → β → β ⊕ α)
    {h : ℕ} {l : List ℕ} {acc : β} (hpath : Path f h l 0)
    (hpos : ∀ x ∈ l, x ≠ 0) (hlen : l.length < loopBound)
    (hvisit : ∀ x ∈ l, ∀ acc, wp P (visit x acc) s fun r t => r = v x acc ∧ t = s)
    (hnext : ∀ x ∈ l, wp P (next x) s fun y t => y = f x ∧ t = s)
    (hQ : Q (walkList v exit l acc) s) : wp P (walk visit next exit h acc) s Q := by
  refine wp_iterate (fun k b t => t = s ∧ ∃ r, r.length = k ∧ (∀ x ∈ r, x ∈ l) ∧
    Path f b.1 r 0 ∧ walkList v exit r b.2 = walkList v exit l acc)
    (fun k b t hI => ?_) ⟨rfl, l, rfl, fun _ => id, hpath, rfl⟩ hlen
  obtain ⟨rfl, r, hk, hmem, hr, hval⟩ := hI
  obtain ⟨h, acc'⟩ := b
  cases r with
  | nil =>
    obtain rfl : h = 0 := hr
    rw [← hval] at hQ
    simpa [walkList] using hQ
  | cons x r =>
    obtain ⟨rfl, hr⟩ := hr
    have hx := hmem h List.mem_cons_self
    simp only [if_neg (hpos h hx), wp_bind']
    refine wp_post (hvisit h hx acc') ?_
    rintro _ _ ⟨rfl, rfl⟩
    simp only [walkList] at hval
    cases hv : v h acc' with
    | inr a =>
      rw [hv] at hval
      simp only at hval
      simpa [hval] using hQ
    | inl b =>
      rw [hv] at hval
      simp only [wp_bind', wp_ret]
      refine wp_post (hnext h hx) ?_
      rintro _ _ ⟨rfl, rfl⟩
      refine ⟨r.length, by simp only [List.length_cons] at hk; omega, rfl, r, rfl, ?_, hr, hval⟩
      exact fun y hy => hmem y (List.mem_cons_of_mem _ hy)

/-- A walk to the end that returns has followed a null-terminated path. -/
theorem exec_walk_path {visit : ℕ → β → Prog K V L E (β ⊕ α)} {next : ℕ → Prog K V L E ℕ}
    {exit : β → α} (f : ℕ → ℕ)
    (hvisit : ∀ x acc, x ≠ 0 → ∃ b, exec (visit x acc) s = .ok (.inl b, s))
    (hnext : ∀ x, x ≠ 0 → exec (next x) s = .ok (f x, s)) {h : ℕ} {acc : β} {a : α}
    {t : Store V L} (hrun : exec (walk visit next exit h acc) s = .ok (a, t)) :
    ∃ l, Path f h l 0 ∧ (∀ x ∈ l, x ≠ 0) ∧ l.length < loopBound := by
  unfold walk at hrun
  generalize loopBound = n at hrun
  induction n generalizing h acc with
  | zero => cases hrun
  | succ n ih =>
    obtain ⟨r, u, hbody, hrest⟩ := exec_bind_ok hrun
    by_cases hx : h = 0
    · exact ⟨[], hx, by simp, Nat.succ_pos n⟩
    · obtain ⟨b, hb⟩ := hvisit h acc hx
      simp only [if_neg hx] at hbody
      obtain ⟨v, u₁, hv, hbody⟩ := exec_bind_ok hbody
      rw [hb] at hv
      cases hv
      obtain ⟨y, u₂, hy, hbody⟩ := exec_bind_ok hbody
      rw [hnext h hx] at hy
      cases hy
      cases hbody
      obtain ⟨l, hpath, hpos, hlen⟩ := ih hrest
      exact ⟨h :: l, ⟨rfl, hpath⟩, List.forall_mem_cons.mpr ⟨hx, hpos⟩, Nat.succ_lt_succ hlen⟩

end Prog
end KmallocKfree
