import KmallocKfree.Atomicity

/-!
# Processors that share a store

An agreement says when a store is whole, with ghost state beside it, and which places are a
processor's own. A program is safe on a processor when each of its operations is admitted,
leaves the store whole and leaves alone what is the others' own, whatever the others have
done before it under the same terms. A program that is verified alone, in a footprint of its
processor's own places, is safe: the others cannot be told from a standstill. A section
under a lock is safe when releasing the lock makes the store whole again.
-/
namespace KmallocKfree

open Prog

variable {K V L E G α β : Type} [DecidableEq V] [DecidableEq L]

/-- Takes or writes the lock. -/
def Op.Changes (l : L) : Op K V L → Prop
  | .acquire m => m = l
  | .put m _ => m = l
  | _ => False

/-- `same i g h` when `g` and `h` do not differ for processor `i`. An operation is performed
only where `assumes` holds, and `moves` says how it may change the ghost state. -/
structure Sharing (K V L E G : Type) [DecidableEq V] [DecidableEq L] where
  whole : Store V L → G → Prop
  same : ℕ → G → G → Prop
  /-- The places of the processor. -/
  foot : ℕ → G → Footprint K V L
  /-- The locks that only this processor uses. -/
  own : ℕ → L → Prop
  admits : ℕ → Op K V L → G → Prop
  assumes : ℕ → Op K V L → Store V L → G → Prop
  moves : ℕ → Op K V L → G → G → Prop
  same_refl : ∀ i g, same i g g
  same_trans : ∀ {i g h k}, same i g h → same i h k → same i g k
  foot_same : ∀ {i g h}, same i g h → foot i h = foot i g
  admits_own : ∀ {i g o}, (foot i g).Allows o → (∀ l, o.Changes l → own i l) → admits i o g
  moves_own : ∀ {i g o}, (∀ l, o.Changes l → own i l) → moves i o g g
  keeps : ∀ {i g s o v t}, whole s g → (foot i g).Allows o → (∀ l, o.Changes l → own i l) →
    (o.run s : Except (Fault E) (ℕ × Store V L)) = .ok (v, t) →
    whole t g ∧ ∀ j, j ≠ i → Agree (foot j g) s t

namespace Prog

section Agreement

variable {F : Footprint K V L} {s t u : Store V L}

omit [DecidableEq V] [DecidableEq L] in
theorem Agree.refl (F : Footprint K V L) (s : Store V L) : Agree F s s :=
  ⟨fun _ _ => rfl, fun _ _ => rfl, fun _ _ => rfl⟩

omit [DecidableEq V] [DecidableEq L] in
theorem Agree.trans (h : Agree F s t) (h' : Agree F t u) : Agree F s u where
  mem x hx := (h'.mem x hx).trans (h.mem x hx)
  var x hx := (h'.var x hx).trans (h.var x hx)
  lock l hl := (h'.lock l hl).trans (h.lock l hl)

end Agreement

end Prog

section Locks

variable {F : Footprint K V L} {o : Op K V L} {l : L}

omit [DecidableEq V] [DecidableEq L] in
/-- An operation that changes a lock stays in the locks of its footprint. -/
theorem Op.Changes.locks (h : o.Changes l) (ho : F.Allows o) : F.locks l := by
  cases o with
  | acquire m =>
    obtain rfl : m = l := h
    exact ho
  | put m v =>
    obtain rfl : m = l := h
    exact ho
  | _ => exact h.elim

omit [DecidableEq V] [DecidableEq L] in
theorem Op.Changes.not_plain (h : o.Changes l) : ¬ o.Plain := by
  cases o with
  | acquire m => exact id
  | put m v => exact id
  | _ => exact h.elim

end Locks

namespace Sharing

variable {R : Sharing K V L E G} {i j : ℕ} {s s' t u : Store V L} {g g' h : G}
  {p q : Prog K V L E α} {Q Q' : α → Store V L → G → Prop}

/-- Steps of the others have led from `s` and `g` to `t` and `h`. -/
structure Later (R : Sharing K V L E G) (i : ℕ) (s : Store V L) (g : G) (t : Store V L) (h : G) :
    Prop where
  same : R.same i g h
  agree : Agree (R.foot i g) s t

theorem Later.refl (R : Sharing K V L E G) (i : ℕ) (s : Store V L) (g : G) : R.Later i s g s g :=
  ⟨R.same_refl i g, .refl _ s⟩

theorem Later.trans {k : G} (h₁ : R.Later i s g t h) (h₂ : R.Later i t h u k) :
    R.Later i s g u k where
  same := R.same_trans h₁.same h₂.same
  agree := by
    have h := h₂.agree
    rw [R.foot_same h₁.same] at h
    exact h₁.agree.trans h

/-- A step of the processor whose operation led from `t` and `h` to `t'` and `h'`. -/
structure Step (R : Sharing K V L E G) (i : ℕ) (o : Op K V L) (t : Store V L) (h : G)
    (t' : Store V L) (h' : G) : Prop where
  whole : R.whole t' h'
  others : ∀ j, j ≠ i → R.Later j t h t' h'
  moves : R.moves i o h h'

/-- The program is safe on processor `i` from `s` and `g` on, and ends in `Q` if it ends. -/
def Safe (R : Sharing K V L E G) (i : ℕ) :
    Prog K V L E α → Store V L → G → (α → Store V L → G → Prop) → Prop
  | .ret a, s, g, Q => Q a s g
  | .fail _, _, _, _ => True
  | .op o k, s, g, Q => ∀ t h, R.whole t h → R.Later i s g t h → R.admits i o h ∧
      (R.assumes i o t h → ∀ v t', (o.run t : Except (Fault E) (ℕ × Store V L)) = .ok (v, t') →
        ∃ h', R.Step i o t h t' h' ∧ Safe R i (k v) t' h' Q)

theorem safe_fail (f : Fault E) : R.Safe i (.fail f : Prog K V L E α) s g Q := trivial

/-- What the others do later keeps the postcondition. -/
def Stable (R : Sharing K V L E G) (i : ℕ) (Q : α → Store V L → G → Prop) : Prop :=
  ∀ a s g t h, Q a s g → R.Later i s g t h → Q a t h

theorem Safe.later (hp : R.Safe i p s g Q) (hQ : R.Stable i Q) (hl : R.Later i s g t h) :
    R.Safe i p t h Q := by
  cases p with
  | ret a => exact hQ a s g t h hp hl
  | fail f => trivial
  | op o k =>
    intro t' h' hw' hl'
    exact hp t' h' hw' (hl.trans hl')

theorem Safe.mono (hp : R.Safe i p s g Q) (hQ : ∀ a t h, Q a t h → Q' a t h) :
    R.Safe i p s g Q' := by
  induction p generalizing s g with
  | ret a => exact hQ a s g hp
  | fail f => trivial
  | op o k ih =>
    intro t h hw hl
    obtain ⟨hadm, hstep⟩ := hp t h hw hl
    refine ⟨hadm, fun ha v t' hr => ?_⟩
    obtain ⟨h', hs, hk⟩ := hstep ha v t' hr
    exact ⟨h', hs, ih v hk⟩

theorem safe_bind {f : α → Prog K V L E β} {Q : β → Store V L → G → Prop}
    (hp : R.Safe i p s g fun a t h => R.Safe i (f a) t h Q) : R.Safe i (p >>= f) s g Q := by
  change R.Safe i (Prog.bind p f) s g Q
  induction p generalizing s g with
  | ret a => exact hp
  | fail f => trivial
  | op o k ih =>
    intro t h hw hl
    obtain ⟨hadm, hstep⟩ := hp t h hw hl
    refine ⟨hadm, fun ha v t' hr => ?_⟩
    obtain ⟨h', hs, hk⟩ := hstep ha v t' hr
    exact ⟨h', hs, ih v hk⟩

/-- A loop whose body keeps an invariant. -/
theorem safe_iterate {body : β → Prog K V L E (β ⊕ α)} (I : β → Store V L → G → Prop)
    (hbody : ∀ b s g, I b s g → R.Safe i (body b) s g fun r t h =>
      match r with
      | .inl b' => I b' t h
      | .inr a => Q a t h)
    (n : ℕ) {b : β} (hI : I b s g) : R.Safe i (iterate body n b) s g Q := by
  induction n generalizing b s g with
  | zero => trivial
  | succ n ih =>
    refine safe_bind ((hbody b s g hI).mono fun r t h hr => ?_)
    cases r with
    | inl b' => exact ih hr
    | inr a => exact hr

/-- One operation at the places of the processor. -/
theorem step_own {o : Op K V L} {v : ℕ} (hw : R.whole t h) (ho : (R.foot i h).Allows o)
    (hown : ∀ l, o.Changes l → R.own i l)
    (hr : (o.run t : Except (Fault E) (ℕ × Store V L)) = .ok (v, u)) : R.Step i o t h u h := by
  obtain ⟨hw', hothers⟩ := R.keeps hw ho hown hr
  exact ⟨hw', fun j hj => ⟨R.same_refl j h, hothers j hj⟩, R.moves_own hown⟩

/-- The same operation, in a store that others have changed and in the one that they have not. -/
theorem Later.run {o : Op K V L} {v : ℕ} (hl : R.Later i s g t h) (ho : (R.foot i g).Allows o)
    (hr : (o.run s : Except (Fault E) (ℕ × Store V L)) = .ok (v, s')) :
    ∃ t', (o.run t : Except (Fault E) (ℕ × Store V L)) = .ok (v, t') ∧ R.Later i s' g t' h := by
  obtain ⟨t', ht, hpar⟩ := run_transfer ho hl.agree hr
  exact ⟨t', ht, hl.same, hl.agree.step hpar⟩

variable {F : Footprint K V L} {Q₀ : α → Store V L → Prop}

/-- A program that stays at the places of its processor does what it does alone. -/
theorem safe_of_wp (hp : wp F.Allows p s Q₀) (hsub : F.Sub (R.foot i g))
    (hown : ∀ l, F.locks l → R.own i l) (hl : R.Later i s g t h) :
    R.Safe i p t h fun a u k => ∃ s', Q₀ a s' ∧ R.Later i s' g u k := by
  induction p generalizing s t h with
  | ret a => exact ⟨s, hp, hl⟩
  | fail f => trivial
  | op o k ih =>
    intro t₁ h₁ hw hl₁
    simp only [wp] at hp
    obtain ⟨ho, hrest⟩ := hp
    have hl' := hl.trans hl₁
    have ho' := hsub.allows ho
    have hchanges : ∀ l, o.Changes l → R.own i l := fun l hol => hown l (hol.locks ho)
    have hoh : (R.foot i h₁).Allows o := by rwa [R.foot_same hl'.same]
    refine ⟨R.admits_own hoh hchanges, fun _ v t' hr => ?_⟩
    cases hs : (o.run s : Except (Fault E) (ℕ × Store V L)) with
    | error f =>
      rw [hs] at hrest
      exact hrest.elim
    | ok r =>
      rw [hs] at hrest
      obtain ⟨t₂, ht₂, hl₂⟩ := hl'.run ho' hs
      rw [hr] at ht₂
      cases ht₂
      exact ⟨h₁, step_own hw hoh hchanges hr, ih r.1 hrest hl₂⟩

/-- A section does what it does alone, up to the release of its lock. -/
theorem safe_section {l : L} (hc : Critical l p) (hp : wp F.Allows p s Q₀)
    (hsub : F.Sub (R.foot i g)) (hl : R.Later i s g t h)
    (hclose : ∀ a s' u k, Q₀ a (s'.setLock l 0) → R.whole u k → R.Later i s' g u k →
      R.admits i (.put l 0) k ∧
      ∃ k', R.Step i (.put l 0) u k (u.setLock l 0) k' ∧ Q a (u.setLock l 0) k') :
    R.Safe i p t h Q := by
  induction p generalizing s t h with
  | ret a => exact hc.elim
  | fail f => trivial
  | op o k ih =>
    intro t₁ h₁ hw hl₁
    simp only [wp] at hp
    obtain ⟨ho, hrest⟩ := hp
    have hl' := hl.trans hl₁
    by_cases hplain : o.Plain
    · have ho' := hsub.allows ho
      have hchanges : ∀ l, o.Changes l → R.own i l := fun l hol =>
        absurd hplain hol.not_plain
      have hoh : (R.foot i h₁).Allows o := by rwa [R.foot_same hl'.same]
      refine ⟨R.admits_own hoh hchanges, fun _ v t' hr => ?_⟩
      cases hs : (o.run s : Except (Fault E) (ℕ × Store V L)) with
      | error f =>
        rw [hs] at hrest
        exact hrest.elim
      | ok r =>
        rw [hs] at hrest
        obtain ⟨t₂, ht₂, hl₂⟩ := hl'.run ho' hs
        rw [hr] at ht₂
        cases ht₂
        exact ⟨h₁, step_own hw hoh hchanges hr, ih r.1 (hc.next hplain r.1) hrest hl₂⟩
    · cases o with
      | acquire m => exact hc.1.elim
      | put m v =>
        obtain ⟨rfl, rfl, a, hk⟩ := hc
        simp only [Op.run, hk] at hrest
        obtain ⟨hadm, k', hstep, hQ⟩ := hclose a s t₁ h₁ hrest hw hl'
        refine ⟨hadm, fun _ v t' hr => ?_⟩
        cases hr
        exact ⟨k', hstep, by rw [hk]; exact hQ⟩
      | _ => exact absurd trivial hplain

section Proceeds

variable {Q : α → Store V L → G → Prop} {f : β → Prog K V L E α} {r : Prog K V L E β}

/-- `Q` holds in the end, whatever the others have done meanwhile. -/
def Finally (R : Sharing K V L E G) (i : ℕ) (Q : α → Store V L → G → Prop) (a : α)
    (s : Store V L) (g : G) : Prop :=
  ∀ t h, R.whole t h → R.Later i s g t h → Q a t h

/-- The program is safe and `Q` holds in the end, when it starts at `s` and `g` or later. -/
def Proceeds (R : Sharing K V L E G) (i : ℕ) (p : Prog K V L E α) (s : Store V L) (g : G)
    (Q : α → Store V L → G → Prop) : Prop :=
  ∀ t h, R.Later i s g t h → R.Safe i p t h (R.Finally i Q)

theorem stable_finally (Q : α → Store V L → G → Prop) : R.Stable i (R.Finally i Q) :=
  fun _ _ _ _ _ hq hl t h hw hl' => hq t h hw (hl.trans hl')

theorem proceeds_of_safe (hp : R.Safe i p s g (R.Finally i Q)) : R.Proceeds i p s g Q :=
  fun _ _ hl => hp.later (stable_finally Q) hl

theorem proceeds_ret {a : α} (h : R.Finally i Q a s g) : R.Proceeds i (.ret a) s g Q :=
  fun _ _ hl t h' hw hl' => h t h' hw (hl.trans hl')

theorem proceeds_fail (f : Fault E) : R.Proceeds i (.fail f : Prog K V L E α) s g Q :=
  fun _ _ _ => trivial

/-- It is enough to start where the store is whole. -/
theorem proceeds_whole
    (hp : ∀ t h, R.whole t h → R.Later i s g t h → R.Proceeds i p t h Q) :
    R.Proceeds i p s g Q := by
  intro t h hl
  cases p with
  | ret a =>
    intro t' h' hw hl'
    exact hp t' h' hw (hl.trans hl') t' h' (.refl R i t' h') t' h' hw (.refl R i t' h')
  | fail f => trivial
  | op o k =>
    intro t' h' hw hl'
    exact hp t' h' hw (hl.trans hl') t' h' (.refl R i t' h') t' h' hw (.refl R i t' h')

/-- One operation, and what follows it. -/
theorem proceeds_op {o : Op K V L} {k : ℕ → Prog K V L E α}
    (hp : ∀ t h, R.whole t h → R.Later i s g t h → R.admits i o h ∧
      (R.assumes i o t h → ∀ v t', (o.run t : Except (Fault E) (ℕ × Store V L)) = .ok (v, t') →
        ∃ h', R.Step i o t h t' h' ∧ R.Proceeds i (k v) t' h' Q)) :
    R.Proceeds i (.op o k) s g Q := by
  intro t h hl t₁ h₁ hw hl₁
  obtain ⟨hadm, hstep⟩ := hp t₁ h₁ hw (hl.trans hl₁)
  refine ⟨hadm, fun ha v t' hr => ?_⟩
  obtain ⟨h', hs, hk⟩ := hstep ha v t' hr
  exact ⟨h', hs, hk t' h' (.refl R i t' h')⟩

theorem proceeds_bind (hr : R.Safe i r s g fun b u k => R.Proceeds i (f b) u k Q) :
    R.Proceeds i (r >>= f) s g Q := by
  intro t h hl
  have hstable : R.Stable i fun b u k => R.Proceeds i (f b) u k Q :=
    fun _ _ _ _ _ hb hl₁ u k hl₂ => hb u k (hl₁.trans hl₂)
  exact safe_bind ((hr.later hstable hl).mono fun _ u k hb => hb u k (.refl R i u k))

/-- What the first part ends in is where the second one starts. -/
theorem proceeds_seq {Q' : β → Store V L → G → Prop} (hr : R.Proceeds i r s g Q')
    (hf : ∀ b t h, R.whole t h → Q' b t h → R.Proceeds i (f b) t h Q) :
    R.Proceeds i (r >>= f) s g Q := by
  refine proceeds_bind ((hr s g (.refl R i s g)).mono fun b u k hb => ?_)
  exact proceeds_whole fun t h hw hl => hf b t h hw (hb t h hw hl)

/-- A part that stays at the places of the processor is verified as if it ran alone. -/
theorem proceeds_wp (hsub : F.Sub (R.foot i g)) (hown : ∀ l, F.locks l → R.own i l)
    (hp : wp F.Allows r s fun b s' => R.Proceeds i (f b) s' g Q) :
    R.Proceeds i (r >>= f) s g Q := by
  intro t h hl
  refine safe_bind ((safe_of_wp hp hsub hown hl).mono ?_)
  rintro _ u k ⟨s', hb, hl'⟩
  exact hb u k hl'

/-- So is the last part. -/
theorem proceeds_last (hsub : F.Sub (R.foot i g)) (hown : ∀ l, F.locks l → R.own i l)
    (hp : wp F.Allows p s fun a s' => R.Finally i Q a s' g) : R.Proceeds i p s g Q := by
  intro t h hl
  refine (safe_of_wp hp hsub hown hl).mono ?_
  rintro _ u k ⟨s', ha, hl'⟩ t' h' hw hl''
  exact ha t' h' hw (hl'.trans hl'')

end Proceeds

/-- Processor `i` has gone on to `c'` from program `p`, with the ghost state `g'`. -/
structure Goes (R : Sharing K V L E G) (i : ℕ) (p : Prog K V L E α) (c : Config K V L E α) (g : G)
    (c' : Config K V L E α) (g' : G) (Q : α → Store V L → G → Prop) : Prop where
  whole : R.whole c'.store g'
  others : ∀ j, j ≠ i → R.Later j c.store g c'.store g'
  safe : ∃ p', (c'.thread i).code = some p' ∧ R.Safe i p' c'.store g' Q
  moves : ∀ o k, p = .op o k → R.moves i o g g'
  stays : (∀ o k, p ≠ .op o k) → g' = g

/-- A safe program goes on. -/
theorem Safe.moves {c c' : Config K V L E α} (hm : Moves i c c')
    (hcode : (c.thread i).code = some p) (hret : ∀ a, p ≠ .ret a) (hw : R.whole c.store g)
    (ha : ∀ o k, p = .op o k → R.assumes i o c.store g) (hp : R.Safe i p c.store g Q) :
    ∃ g', R.Goes i p c g c' g' Q := by
  have hrun : ∀ {o : Op K V L} {k : ℕ → Prog K V L E α} {v : ℕ} {s : Store V L} {held : List L},
      p = .op o k → (o.run c.store : Except (Fault E) (ℕ × Store V L)) = .ok (v, s) →
      ∃ g', R.Goes i p c g (c.update i s ⟨some (k v), held⟩) g' Q := by
    rintro o k v s held rfl hr
    obtain ⟨-, hstep⟩ := hp c.store g hw (.refl R i _ _)
    obtain ⟨g', hs, hk⟩ := hstep (ha o k rfl) v s hr
    refine ⟨g', hs.whole, hs.others, ⟨k v, by simp, hk⟩, ?_, fun hne => absurd rfl (hne o k)⟩
    intro o' k' heq
    cases heq
    exact hs.moves
  cases hm with
  | acquire hc hfree =>
    rw [hcode] at hc
    exact hrun (Option.some.inj hc) (if_pos hfree)
  | release hc =>
    rw [hcode] at hc
    exact hrun (Option.some.inj hc) rfl
  | plain hc ho hr =>
    rw [hcode] at hc
    exact hrun (Option.some.inj hc) hr
  | fault hc ho hr =>
    rw [hcode] at hc
    obtain rfl := Option.some.inj hc
    refine ⟨g, hw, fun j _ => .refl R j _ _, ⟨_, by rw [Config.update_self], safe_fail _⟩, ?_,
      fun _ => rfl⟩
    intro o' k' heq
    cases heq
    exact R.moves_own fun l hol => absurd ho hol.not_plain
  | loop hc =>
    rw [hcode] at hc
    obtain rfl := Option.some.inj hc
    refine ⟨g, hw, fun j _ => .refl R j _ _, ⟨_, hcode, hp⟩, ?_, fun _ => rfl⟩
    intro o' k' heq
    cases heq
  | finish hc =>
    rw [hcode] at hc
    exact absurd (Option.some.inj hc) (hret _)

end Sharing
end KmallocKfree
