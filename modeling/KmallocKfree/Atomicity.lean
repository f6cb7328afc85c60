import KmallocKfree.Footprint
import KmallocKfree.Interleaving

/-!
# Sections under a lock

A program that leads to a lock has touched nothing but a lock of its own and variables that
never change. Behind the lock it runs a section: no other lock is taken, and releasing the
lock is the last thing it does. The section returns what it returns alone as long as the
others leave the bytes that it reads, and bytes outside its footprint may change in between.
-/
namespace KmallocKfree

open Prog

variable {K V L E α β : Type}

section Store

variable [DecidableEq L]

@[simp] theorem Store.setLock_self (s : Store V L) (l : L) : s.setLock l (s.lock l) = s := by
  cases s
  simp only [Store.setLock, Store.mk.injEq, true_and]
  funext m
  split_ifs with hm
  · rw [hm]
  · rfl

@[simp] theorem Store.setLock_setLock (s : Store V L) (l : L) (v w : ℕ) :
    (s.setLock l v).setLock l w = s.setLock l w := by
  simp only [Store.setLock, Store.mk.injEq, true_and]
  funext m
  split_ifs <;> rfl

end Store

/-- The same places, and one lock only. -/
def Footprint.only (F : Footprint K V L) (l : L) : Footprint K V L := { F with locks := (· = l) }

/-- Takes and releases no lock, and reads the word of `l` only. -/
def Op.Within (l : L) : Op K V L → Prop
  | .acquire _ => False
  | .put _ _ => False
  | .peek m => m = l
  | _ => True

namespace Prog

/-- Every operation that the program may come to satisfies `P`, whatever the store answers. -/
def All (P : Op K V L → Prop) : Prog K V L E α → Prop
  | .ret _ => True
  | .fail _ => True
  | .op o k => P o ∧ ∀ v, All P (k v)

/-- The program stays in the section of `l` and returns once it has released `l`. -/
def Critical (l : L) : Prog K V L E α → Prop
  | .ret _ => False
  | .fail _ => True
  | .op o k =>
      match o with
      | .put m v => m = l ∧ v = 0 ∧ ∃ a, k 0 = .ret a
      | o => o.Within l ∧ ∀ v, Critical l (k v)

/-- The way from `p` to `q` with the lock `l` held or not at its ends: it takes and releases
`l`, and reads variables whose values `const` gives. -/
inductive Leads (l : L) (const : V → Option ℕ) :
    Bool → Bool → Prog K V L E α → Prog K V L E α → Prop
  | here {b : Bool} {p : Prog K V L E α} : Leads l const b b p p
  | acquire {b : Bool} {k : ℕ → Prog K V L E α} {q : Prog K V L E α} :
      Leads l const true b (k 0) q → Leads l const false b (.op (.acquire l) k) q
  | peek {b : Bool} {k : ℕ → Prog K V L E α} {q : Prog K V L E α} :
      Leads l const true b (k 1) q → Leads l const true b (.op (.peek l) k) q
  | put {b : Bool} {k : ℕ → Prog K V L E α} {q : Prog K V L E α} :
      Leads l const false b (k 0) q → Leads l const true b (.op (.put l 0) k) q
  | get {b c : Bool} {x : V} {v : ℕ} {k : ℕ → Prog K V L E α} {q : Prog K V L E α} :
      const x = some v → Leads l const c b (k v) q → Leads l const c b (.op (.get x) k) q

section All

variable {P : Op K V L → Prop} {l : L}

@[simp] theorem all_ret (a : α) : All P (.ret a : Prog K V L E α) := trivial

@[simp] theorem all_pure (a : α) : All P (pure a : Prog K V L E α) := trivial

theorem all_bind' {p : Prog K V L E α} {f : α → Prog K V L E β} (hp : All P p)
    (hf : ∀ a, All P (f a)) : All P (Prog.bind p f) := by
  induction p with
  | ret a => exact hf a
  | fail f => trivial
  | op o k ih => exact ⟨hp.1, fun v => ih v (hp.2 v)⟩

theorem all_bind {p : Prog K V L E α} {f : α → Prog K V L E β} (hp : All P p)
    (hf : ∀ a, All P (f a)) : All P (p >>= f) := all_bind' hp hf

theorem all_check (e : E) (c : Prop) [Decidable c] : All P (check e c : Prog K V L E Unit) := by
  unfold check
  split_ifs <;> trivial

theorem all_iterate {body : β → Prog K V L E (β ⊕ α)} (hbody : ∀ b, All P (body b)) (n : ℕ)
    (b : β) : All P (iterate body n b) := by
  induction n generalizing b with
  | zero => trivial
  | succ n ih =>
    refine all_bind' (hbody b) fun r => ?_
    cases r with
    | inl b' => exact ih b'
    | inr a => trivial

theorem all_walk {visit : ℕ → β → Prog K V L E (β ⊕ α)} {next : ℕ → Prog K V L E ℕ}
    {exit : β → α} (hvisit : ∀ x b, All P (visit x b)) (hnext : ∀ x, All P (next x)) (h : ℕ)
    (acc : β) : All P (walk visit next exit h acc) := by
  apply all_iterate
  rintro ⟨x, b⟩
  simp only
  split_ifs
  · trivial
  · refine all_bind' (hvisit x b) fun r => ?_
    cases r with
    | inl b' => exact all_bind' (hnext x) fun y => trivial
    | inr a => trivial

theorem critical_bind {p : Prog K V L E α} {f : α → Prog K V L E β}
    (hp : All (Op.Within l) p) (hf : ∀ a, Critical l (f a)) : Critical l (p >>= f) := by
  change Critical l (Prog.bind p f)
  induction p with
  | ret a => exact hf a
  | fail f => trivial
  | op o k ih =>
    obtain ⟨ho, hk⟩ := hp
    have hrest : ∀ v, Critical l (Prog.bind (k v) f) := fun v => ih v (hk v)
    cases o with
    | acquire m => exact ho.elim
    | put m v => exact ho.elim
    | load t q off n => exact ⟨ho, hrest⟩
    | store t q off n w => exact ⟨ho, hrest⟩
    | fill t q n => exact ⟨ho, hrest⟩
    | get x => exact ⟨ho, hrest⟩
    | set x w => exact ⟨ho, hrest⟩
    | peek m => exact ⟨ho, hrest⟩

/-- The answer of a section may be put in another form. -/
theorem Critical.map {p : Prog K V L E α} (h : Critical l p) (f : α → β) :
    Critical l (p >>= fun a => pure (f a)) := by
  change Critical l (Prog.bind p fun a => .ret (f a))
  induction p with
  | ret a => exact h.elim
  | fail e => trivial
  | op o k ih =>
    cases o with
    | acquire m => exact h.1.elim
    | put m v =>
      obtain ⟨hm, hv, a, hk⟩ := h
      exact ⟨hm, hv, f a, by simp only [hk, bind]⟩
    | load t q off n => exact ⟨h.1, fun v => ih v (h.2 v)⟩
    | store t q off n w => exact ⟨h.1, fun v => ih v (h.2 v)⟩
    | fill t q n => exact ⟨h.1, fun v => ih v (h.2 v)⟩
    | get x => exact ⟨h.1, fun v => ih v (h.2 v)⟩
    | set x w => exact ⟨h.1, fun v => ih v (h.2 v)⟩
    | peek m => exact ⟨h.1, fun v => ih v (h.2 v)⟩

/-- The operations of a section are those that the footprint with its lock allows. -/
theorem Critical.allows {F : Footprint K V L} {o : Op K V L} {k : ℕ → Prog K V L E α}
    (h : Critical l (.op o k)) (hplain : o.Plain) (ho : F.Allows o) : (F.only l).Allows o := by
  cases o with
  | acquire m => exact hplain.elim
  | put m w => exact hplain.elim
  | load t q off n => exact ho
  | store t q off n w => exact ho
  | fill t q n => exact ho
  | get x => exact ho
  | set x w => exact ho
  | peek m => exact h.1

/-- A section goes on with any operation but the release. -/
theorem Critical.next {o : Op K V L} {k : ℕ → Prog K V L E α} (h : Critical l (.op o k))
    (ho : o.Plain) (v : ℕ) : Critical l (k v) := by
  cases o with
  | acquire m => exact ho.elim
  | put m w => exact ho.elim
  | load t q off n => exact h.2 v
  | store t q off n w => exact h.2 v
  | fill t q n => exact h.2 v
  | get x => exact h.2 v
  | set x w => exact h.2 v
  | peek m => exact h.2 v

end All

namespace Leads

variable {l : L} {const : V → Option ℕ} {b c d : Bool}

theorem bind {p : Prog K V L E α} {f : α → Prog K V L E β} {a : α} {q : Prog K V L E β}
    (hp : Leads l const c b p (.ret a)) (hf : Leads l const b d (f a) q) :
    Leads l const c d (p >>= f) q := by
  change Leads l const c d (Prog.bind p f) q
  generalize hr : (Prog.ret a : Prog K V L E α) = r at hp
  induction hp with
  | here =>
    subst hr
    exact hf
  | acquire _ ih => exact .acquire (ih hf hr)
  | peek _ ih => exact .peek (ih hf hr)
  | put _ ih => exact .put (ih hf hr)
  | get hx _ ih => exact .get hx (ih hf hr)

/-- The same way, with more behind its end. -/
theorem followed {p q : Prog K V L E α} (h : Leads l const c b p q) (f : α → Prog K V L E β) :
    Leads l const c b (p >>= f) (q >>= f) := by
  induction h with
  | here => exact .here
  | acquire _ ih => exact .acquire ih
  | peek _ ih => exact .peek ih
  | put _ ih => exact .put ih
  | get hx _ ih => exact .get hx ih

variable [DecidableEq V] [DecidableEq L] {P : Op K V L → Prop} {s : Store V L}
  {p q : Prog K V L E α} {Q : α → Store V L → Prop}

/-- A program that runs alone comes to the end of its way in the store that it started in,
but for its own lock. -/
theorem wp (h : Leads l const c b p q) (hlock : s.lock l = c.toNat)
    (hconst : ∀ x v, const x = some v → s.var x = v) (hp : Prog.wp P p s Q) :
    Prog.wp P q (s.setLock l b.toNat) Q := by
  induction h generalizing s with
  | here => rwa [← hlock, s.setLock_self]
  | acquire _ ih =>
    simp only [Prog.wp, Op.run, hlock, Bool.toNat_false, if_true] at hp
    have hq := ih (s := s.setLock l 1) (by simp) hconst hp.2
    rwa [Store.setLock_setLock] at hq
  | peek _ ih =>
    simp only [Prog.wp, Op.run, hlock, Bool.toNat_true] at hp
    exact ih hlock hconst hp.2
  | put _ ih =>
    have hq := ih (s := s.setLock l 0) (by simp) hconst hp.2
    rwa [Store.setLock_setLock] at hq
  | get hx _ ih =>
    simp only [Prog.wp, Op.run, hconst _ _ hx] at hp
    exact ih hlock hconst hp.2

theorem exec (h : Leads l const c b p q) (hlock : s.lock l = c.toNat)
    (hconst : ∀ x v, const x = some v → s.var x = v) :
    Prog.exec p s = Prog.exec q (s.setLock l b.toNat) := by
  induction h generalizing s with
  | here => rw [← hlock, s.setLock_self]
  | acquire _ ih =>
    have hq := ih (s := s.setLock l 1) (by simp) hconst
    rw [Store.setLock_setLock] at hq
    simpa only [Prog.exec, Op.run, hlock, Bool.toNat_false, if_true] using hq
  | peek _ ih =>
    simp only [Prog.exec, Op.run, hlock, Bool.toNat_true]
    exact ih hlock hconst
  | put _ ih =>
    have hq := ih (s := s.setLock l 0) (by simp) hconst
    rw [Store.setLock_setLock] at hq
    exact hq
  | get hx _ ih =>
    simp only [Prog.exec, Op.run, hconst _ _ hx]
    exact ih hlock hconst

end Leads

section Finishes

variable [DecidableEq V] [DecidableEq L] {F : Footprint K V L} {l : L} {q : Prog K V L E α}
  {s s' t t' : Store V L} {a : α} {Q : α → Store V L → Prop}

/-- The program returns `a` with the memory and the variables of `t`, and stays in `F`. -/
def Finishes (F : Footprint K V L) (q : Prog K V L E α) (s : Store V L) (a : α)
    (t : Store V L) : Prop :=
  wp F.Allows q s fun b u => b = a ∧ u.mem = t.mem ∧ u.var = t.var

theorem finishes_of_exec (h : wp F.Allows q s Q) (he : exec q s = .ok (a, t)) :
    Finishes F q s a t := by
  have hself : Agree F s s := ⟨fun _ _ => rfl, fun _ _ => rfl, fun _ _ => rfl⟩
  refine wp_post (wp_transfer h hself) ?_
  rintro b u ⟨t', he', -, hpar⟩
  rw [he] at he'
  cases he'
  refine ⟨rfl, funext fun x => ?_, funext fun x => ?_⟩
  · obtain ⟨h₁, h₂⟩ | h₁ := hpar.mem x
    · rw [h₁, h₂]
    · exact h₁
  · obtain ⟨h₁, h₂⟩ | h₁ := hpar.var x
    · rw [h₁, h₂]
    · exact h₁

/-- A program in a section uses no lock but the one of the section. -/
theorem wp_critical (hc : Critical l q) (h : wp F.Allows q s Q) :
    wp (F.only l).Allows q s Q := by
  induction q generalizing s with
  | ret a => exact h
  | fail f => exact h
  | op o k ih =>
    simp only [wp] at h ⊢
    obtain ⟨ho, hrest⟩ := h
    by_cases hplain : o.Plain
    · refine ⟨hc.allows hplain ho, ?_⟩
      cases hr : (o.run s : Except (Fault E) (ℕ × Store V L)) with
      | ok r =>
        rw [hr] at hrest
        exact ih r.1 (hc.next hplain r.1) hrest
      | error f =>
        rw [hr] at hrest
        exact hrest
    · cases o with
      | acquire m => exact hc.1.elim
      | put m v =>
        obtain ⟨rfl, rfl, a, hk⟩ := hc
        refine ⟨rfl, ?_⟩
        simp only [Op.run, hk] at hrest ⊢
        exact hrest
      | load t p off n => exact absurd trivial hplain
      | store t p off n w => exact absurd trivial hplain
      | fill t p n => exact absurd trivial hplain
      | get x => exact absurd trivial hplain
      | set x w => exact absurd trivial hplain
      | peek m => exact absurd trivial hplain

/-- Behind its lock, a program that begins with taking it. -/
theorem finishes_behind {k : ℕ → Prog K V L E α} (hc : Critical l (k 0)) (hlock : s.lock l = 0)
    (h : wp F.Allows (.op (.acquire l) k) s Q) (he : exec (.op (.acquire l) k) s = .ok (a, t)) :
    Finishes (F.only l) (k 0) (s.setLock l 1) a t := by
  simp only [wp, Op.run, hlock, if_true] at h
  simp only [exec, Op.run, hlock, if_true] at he
  exact finishes_of_exec (wp_critical hc h.2) he

/-- A section that has not failed goes on. -/
theorem Finishes.next {o : Op K V L} {k : ℕ → Prog K V L E α} (h : Finishes F (.op o k) s a t) :
    F.Allows o ∧ ∃ v s', (o.run s : Except (Fault E) (ℕ × Store V L)) = .ok (v, s') ∧
      Finishes F (k v) s' a t := by
  simp only [Finishes, wp] at h
  obtain ⟨ho, hrest⟩ := h
  refine ⟨ho, ?_⟩
  cases hr : (o.run s : Except (Fault E) (ℕ × Store V L)) with
  | ok r =>
    rw [hr] at hrest
    exact ⟨r.1, r.2, rfl, hrest⟩
  | error f =>
    rw [hr] at hrest
    exact hrest.elim

/-- What others change meanwhile: no place that the program looks at, and only bytes that it
does not write end as they leave them. -/
theorem Finishes.carry (h : Finishes F q s a t) (hs : Agree F s s') (hvar : s'.var = s.var)
    (hmem : ∀ x, (s'.mem x = s.mem x ∧ t'.mem x = t.mem x) ∨
      (¬ F.writes x ∧ t'.mem x = s'.mem x)) (ht : t'.var = t.var) : Finishes F q s' a t' := by
  refine wp_post (wp_frame (wp_transfer h hs)) ?_
  rintro b u ⟨⟨v, -, ⟨rfl, hm, hv⟩, hpar⟩, hframe⟩
  refine ⟨rfl, funext fun x => ?_, funext fun x => ?_⟩
  · obtain ⟨h₁, h₂⟩ | ⟨h₁, h₂⟩ := hmem x
    · obtain ⟨h₃, h₄⟩ | h₃ := hpar.mem x
      · rw [h₄, h₁, ← h₃, hm, h₂]
      · rw [h₃, hm, h₂]
    · rw [h₂]
      exact hframe.mem x h₁
  · obtain ⟨h₃, h₄⟩ | h₃ := hpar.var x
    · rw [h₄, hvar, ← h₃, hv, ht]
    · rw [h₃, hv, ht]

/-- Other locks do not matter. -/
theorem Finishes.locks (h : Finishes (F.only l) q s a t) (hmem : s'.mem = s.mem)
    (hvar : s'.var = s.var) (hlock : s'.lock l = s.lock l) : Finishes (F.only l) q s' a t := by
  refine h.carry ⟨fun x _ => by rw [hmem], fun x _ => by rw [hvar], ?_⟩ hvar
    (fun x => .inl ⟨by rw [hmem], rfl⟩) rfl
  rintro _ rfl
  exact hlock

/-- A byte that the program neither reads nor writes. -/
theorem Finishes.setByte {x : ℕ} (h : Finishes F q s a t) (hr : ¬ F.reads x) (hw : ¬ F.writes x)
    (v : UInt8) : Finishes F q (s.setMem fun y => if y = x then v else s.mem y) a
      (t.setMem fun y => if y = x then v else t.mem y) := by
  refine h.carry ⟨fun y hy => if_neg ?_, fun _ _ => rfl, fun _ _ => rfl⟩ rfl (fun y => ?_) rfl
  · rintro rfl
    exact hr hy
  · by_cases hyx : y = x
    · subst hyx
      exact .inr ⟨hw, by simp⟩
    · exact .inl ⟨if_neg hyx, if_neg hyx⟩

end Finishes

end Prog

section Moves

variable [DecidableEq V] [DecidableEq L] {c c' : Config K V L E α} {i : ℕ} {l : L} {o : Op K V L}
  {k : ℕ → Prog K V L E α} {v : ℕ}

/-- The progress of a CPU that is about to take a lock. -/
theorem Moves.of_acquire (h : Moves i c c')
    (hcode : (c.thread i).code = some (.op (.acquire l) k)) :
    c' = c.update i (c.store.setLock l 1) ⟨some (k 0), l :: (c.thread i).held⟩ := by
  cases h with
  | acquire hc _ => rw [hcode] at hc; cases hc; rfl
  | release hc => rw [hcode] at hc; cases hc
  | plain hc ho _ => rw [hcode] at hc; cases hc; exact ho.elim
  | fault hc ho _ => rw [hcode] at hc; cases hc; exact ho.elim
  | loop hc => rw [hcode] at hc; cases hc
  | finish hc => rw [hcode] at hc; cases hc

/-- The progress of a CPU that is about to write a lock word. -/
theorem Moves.of_put (h : Moves i c c') (hcode : (c.thread i).code = some (.op (.put l v) k)) :
    c' = c.update i (c.store.setLock l v) ⟨some (k 0), (c.thread i).held.erase l⟩ := by
  cases h with
  | acquire hc _ => rw [hcode] at hc; cases hc
  | release hc => rw [hcode] at hc; cases hc; rfl
  | plain hc ho _ => rw [hcode] at hc; cases hc; exact ho.elim
  | fault hc ho _ => rw [hcode] at hc; cases hc; exact ho.elim
  | loop hc => rw [hcode] at hc; cases hc
  | finish hc => rw [hcode] at hc; cases hc

/-- The progress of a CPU at any other operation, which does not fail. -/
theorem Moves.of_plain {u : Store V L} (h : Moves i c c')
    (hcode : (c.thread i).code = some (.op o k)) (hplain : o.Plain)
    (hr : (o.run c.store : Except (Fault E) (ℕ × Store V L)) = .ok (v, u)) :
    c' = c.update i u ⟨some (k v), (c.thread i).held⟩ := by
  cases h with
  | acquire hc _ => rw [hcode] at hc; cases hc; exact hplain.elim
  | release hc => rw [hcode] at hc; cases hc; exact hplain.elim
  | plain hc _ hr' => rw [hcode] at hc; cases hc; rw [hr] at hr'; cases hr'; rfl
  | fault hc _ hr' => rw [hcode] at hc; cases hc; rw [hr] at hr'; cases hr'
  | loop hc => rw [hcode] at hc; cases hc
  | finish hc => rw [hcode] at hc; cases hc

end Moves
end KmallocKfree
