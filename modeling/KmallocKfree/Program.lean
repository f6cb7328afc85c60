import KmallocKfree.ByteMemory

/-!
# Programs over a byte memory, variables and locks

A program is a tree of primitive operations with their answers. `exec` runs it
alone, to its result or to the fault that stops it. `wp` is its total-correctness
predicate transformer: it carries, next to the postcondition, a predicate that
every operation performed has to satisfy. One `wp` proof therefore gives the
result of a program, the bytes it may change and the pointers it goes through.

A loop is unrolled at most `loopBound` times. The loops of this development walk
links and write nothing, so a walk that outlasts the address space visits an
address twice and never returns: running out of `loopBound` is not returning.
-/
namespace KmallocKfree

open ByteMemory (Mem)

variable {K V L E α β : Type}

/-- Primitive operations. A memory access goes through a base pointer `p` of
static type `k`; `off` is the offset of the field. -/
inductive Op (K V L : Type) where
  | load (k : K) (p off n : ℕ)
  | store (k : K) (p off n v : ℕ)
  | fill (k : K) (p n : ℕ)
  | get (x : V)
  | set (x : V) (v : ℕ)
  /-- Exchange 1 into the lock word until the old value was 0. -/
  | acquire (l : L)
  /-- Read the lock word. -/
  | peek (l : L)
  /-- Write the lock word. -/
  | put (l : L) (v : ℕ)

inductive Fault (E : Type) where
  | assertion (e : E)
  | panic
  | divideByZero
  | nullDereference
  /-- A loop that never returns. -/
  | divergence
  /-- A spin on a lock that nobody else can release. -/
  | deadlock
  deriving DecidableEq

structure Store (V L : Type) where
  mem : Mem
  var : V → ℕ
  lock : L → ℕ

namespace Store

variable [DecidableEq V] [DecidableEq L]

def setMem (s : Store V L) (m : Mem) : Store V L := { s with mem := m }
def setVar (s : Store V L) (x : V) (v : ℕ) : Store V L :=
  { s with var := fun y => if y = x then v else s.var y }
def setLock (s : Store V L) (l : L) (v : ℕ) : Store V L :=
  { s with lock := fun k => if k = l then v else s.lock k }

omit [DecidableEq V] [DecidableEq L] in
@[simp] theorem setMem_mem (s : Store V L) (m : Mem) : (s.setMem m).mem = m := rfl
omit [DecidableEq V] [DecidableEq L] in
@[simp] theorem setMem_var (s : Store V L) (m : Mem) : (s.setMem m).var = s.var := rfl
omit [DecidableEq V] [DecidableEq L] in
@[simp] theorem setMem_lock (s : Store V L) (m : Mem) : (s.setMem m).lock = s.lock := rfl
omit [DecidableEq L] in
@[simp] theorem setVar_mem (s : Store V L) (x : V) (v : ℕ) : (s.setVar x v).mem = s.mem := rfl
omit [DecidableEq L] in
@[simp] theorem setVar_lock (s : Store V L) (x : V) (v : ℕ) :
    (s.setVar x v).lock = s.lock := rfl
omit [DecidableEq L] in
@[simp] theorem setVar_var (s : Store V L) (x y : V) (v : ℕ) :
    (s.setVar x v).var y = if y = x then v else s.var y := rfl
omit [DecidableEq V] in
@[simp] theorem setLock_mem (s : Store V L) (l : L) (v : ℕ) : (s.setLock l v).mem = s.mem := rfl
omit [DecidableEq V] in
@[simp] theorem setLock_var (s : Store V L) (l : L) (v : ℕ) : (s.setLock l v).var = s.var := rfl
omit [DecidableEq V] in
@[simp] theorem setLock_lock (s : Store V L) (l k : L) (v : ℕ) :
    (s.setLock l v).lock k = if k = l then v else s.lock k := rfl

end Store

/-- One operation of a program that runs alone: its answer and the next store. -/
def Op.run [DecidableEq V] [DecidableEq L] (s : Store V L) :
    Op K V L → Except (Fault E) (ℕ × Store V L)
  | .load _ p off n =>
      if p = 0 then .error .nullDereference else .ok (ByteMemory.load s.mem (p + off) n, s)
  | .store _ p off n v =>
      if p = 0 then .error .nullDereference
      else .ok (0, s.setMem (ByteMemory.store s.mem (p + off) n v))
  | .fill _ p n =>
      if p = 0 then .error .nullDereference else .ok (0, s.setMem (ByteMemory.fill s.mem p n 0))
  | .get x => .ok (s.var x, s)
  | .set x v => .ok (0, s.setVar x v)
  | .acquire l => if s.lock l = 0 then .ok (0, s.setLock l 1) else .error .deadlock
  | .peek l => .ok (s.lock l, s)
  | .put l v => .ok (0, s.setLock l v)

inductive Prog (K V L E α : Type) where
  | ret (a : α)
  | fail (f : Fault E)
  | op (o : Op K V L) (k : ℕ → Prog K V L E α)

namespace Prog

def bind : Prog K V L E α → (α → Prog K V L E β) → Prog K V L E β
  | .ret a, f => f a
  | .fail e, _ => .fail e
  | .op o k, f => .op o fun v => bind (k v) f

instance : Monad (Prog K V L E) where
  pure := .ret
  bind := bind

def perform (o : Op K V L) : Prog K V L E ℕ := .op o .ret

def check (e : E) (c : Prop) [Decidable c] : Prog K V L E Unit :=
  if c then .ret () else .fail (.assertion e)

/-- Unroll a loop body: `inl` goes round again, `inr` leaves. -/
def iterate (body : β → Prog K V L E (β ⊕ α)) : ℕ → β → Prog K V L E α
  | 0, _ => .fail .divergence
  | n + 1, b => bind (body b) fun r =>
      match r with
      | .inl b' => iterate body n b'
      | .inr a => .ret a

@[irreducible] def loopBound : ℕ := 2 ^ 64

/-- `while (h) { visit; h = next(h); }`, where `visit` updates an accumulator
or leaves the loop with a result. -/
def walk (visit : ℕ → β → Prog K V L E (β ⊕ α)) (next : ℕ → Prog K V L E ℕ) (exit : β → α)
    (h : ℕ) (acc : β) : Prog K V L E α :=
  iterate (fun (x : ℕ × β) =>
    if x.1 = 0 then .ret (.inr (exit x.2))
    else bind (visit x.1 x.2) fun r =>
      match r with
      | .inr a => .ret (.inr a)
      | .inl b => bind (next x.1) fun y => .ret (.inl (y, b))) loopBound (h, acc)

/-- Run a program alone. -/
def exec [DecidableEq V] [DecidableEq L] :
    Prog K V L E α → Store V L → Except (Fault E) (α × Store V L)
  | .ret a, s => .ok (a, s)
  | .fail f, _ => .error f
  | .op o k, s =>
      match o.run s with
      | .ok (v, s') => exec (k v) s'
      | .error f => .error f

/-- The program returns from `s`, its result and final store satisfy `Q`, and
every operation on the way satisfies `P`. -/
def wp [DecidableEq V] [DecidableEq L] (P : Op K V L → Prop) :
    Prog K V L E α → Store V L → (α → Store V L → Prop) → Prop
  | .ret a, s, Q => Q a s
  | .fail _, _, _ => False
  | .op o k, s, Q => P o ∧
      match (o.run s : Except (Fault E) (ℕ × Store V L)) with
      | .ok (v, s') => wp P (k v) s' Q
      | .error _ => False

section Rules

variable [DecidableEq V] [DecidableEq L] {P : Op K V L → Prop} {s : Store V L}

@[simp] theorem wp_ret (a : α) (Q : α → Store V L → Prop) :
    wp P (.ret a : Prog K V L E α) s Q ↔ Q a s := Iff.rfl

@[simp] theorem wp_pure (a : α) (Q : α → Store V L → Prop) :
    wp P (pure a : Prog K V L E α) s Q ↔ Q a s := Iff.rfl

theorem wp_bind' (p : Prog K V L E α) (f : α → Prog K V L E β) (Q : β → Store V L → Prop) :
    wp P (bind p f) s Q ↔ wp P p s (fun a s' => wp P (f a) s' Q) := by
  induction p generalizing s with
  | ret a => rfl
  | fail e => rfl
  | op o k ih =>
    simp only [bind, wp]
    cases (o.run s : Except (Fault E) (ℕ × Store V L)) with
    | ok r => rcases r with ⟨v, s'⟩; simp only [ih]
    | error e => rfl

@[simp] theorem wp_bind (p : Prog K V L E α) (f : α → Prog K V L E β)
    (Q : β → Store V L → Prop) :
    wp P (p >>= f) s Q ↔ wp P p s (fun a s' => wp P (f a) s' Q) := wp_bind' p f Q

@[simp] theorem wp_ite (c : Prop) [Decidable c] (p q : Prog K V L E α)
    (Q : α → Store V L → Prop) :
    wp P (if c then p else q) s Q ↔ if c then wp P p s Q else wp P q s Q := by
  split_ifs <;> rfl

@[simp] theorem wp_check (e : E) (c : Prop) [Decidable c] (Q : Unit → Store V L → Prop) :
    wp P (check e c : Prog K V L E Unit) s Q ↔ c ∧ Q () s := by
  unfold check
  split_ifs with h
  · simp [h]
  · simp [wp, h]

theorem wp_mono {P' : Op K V L → Prop} {p : Prog K V L E α} {Q Q' : α → Store V L → Prop}
    (h : wp P p s Q) (hP : ∀ o, P o → P' o) (hQ : ∀ a s', Q a s' → Q' a s') :
    wp P' p s Q' := by
  induction p generalizing s with
  | ret a => exact hQ a s h
  | fail e => exact h
  | op o k ih =>
    simp only [wp] at h ⊢
    obtain ⟨ho, hrest⟩ := h
    refine ⟨hP o ho, ?_⟩
    cases hr : (o.run s : Except (Fault E) (ℕ × Store V L)) with
    | ok r => rw [hr] at hrest; exact ih r.1 hrest
    | error e => rw [hr] at hrest; exact hrest

theorem wp_post {p : Prog K V L E α} {Q Q' : α → Store V L → Prop}
    (h : wp P p s Q) (hQ : ∀ a s', Q a s' → Q' a s') : wp P p s Q' :=
  wp_mono h (fun _ => id) hQ

/-- What `wp` promises of the run. -/
theorem wp_exec {p : Prog K V L E α} {Q : α → Store V L → Prop} (h : wp P p s Q) :
    ∃ a s', exec p s = .ok (a, s') ∧ Q a s' := by
  induction p generalizing s with
  | ret a => exact ⟨a, s, rfl, h⟩
  | fail e => exact h.elim
  | op o k ih =>
    simp only [wp] at h
    obtain ⟨_, hrest⟩ := h
    cases hr : (o.run s : Except (Fault E) (ℕ × Store V L)) with
    | ok r =>
      rw [hr] at hrest
      obtain ⟨a, s', he, hq⟩ := ih r.1 hrest
      exact ⟨a, s', by simp only [exec, hr]; exact he, hq⟩
    | error e => rw [hr] at hrest; exact hrest.elim

/-- The postcondition holds of the result that `exec` computes. -/
theorem wp_result {p : Prog K V L E α} {Q : α → Store V L → Prop} {a : α} {s' : Store V L}
    (h : wp P p s Q) (he : exec p s = .ok (a, s')) : Q a s' := by
  obtain ⟨b, t, hb, hq⟩ := wp_exec h
  rw [he] at hb
  cases hb
  exact hq

@[simp] theorem exec_pure (a : α) : exec (pure a : Prog K V L E α) s = .ok (a, s) := rfl

theorem exec_of_wp {p : Prog K V L E α} {a : α} {t : Store V L}
    (h : wp P p s fun b u => b = a ∧ u = t) : exec p s = .ok (a, t) := by
  obtain ⟨b, u, he, rfl, rfl⟩ := wp_exec h
  exact he

theorem exec_bind (p : Prog K V L E α) (f : α → Prog K V L E β) :
    exec (p >>= f) s = match exec p s with
      | .ok (a, s') => exec (f a) s'
      | .error e => .error e := by
  change exec (bind p f) s = _
  induction p generalizing s with
  | ret a => rfl
  | fail e => rfl
  | op o k ih =>
    simp only [bind, exec]
    cases (o.run s : Except (Fault E) (ℕ × Store V L)) with
    | ok r => simp only [ih]
    | error e => rfl

/-- A sequence that returns passes through a result of its first part. -/
theorem exec_bind_ok {p : Prog K V L E α} {f : α → Prog K V L E β} {b : β} {t : Store V L}
    (h : exec (p >>= f) s = .ok (b, t)) :
    ∃ a u, exec p s = .ok (a, u) ∧ exec (f a) u = .ok (b, t) := by
  rw [exec_bind] at h
  cases hp : exec p s with
  | ok r =>
    rw [hp] at h
    exact ⟨r.1, r.2, rfl, h⟩
  | error e =>
    rw [hp] at h
    cases h

end Rules

section Loops

variable [DecidableEq V] [DecidableEq L] {P : Op K V L → Prop} {s : Store V L}

/-- A loop whose body decreases the index of its invariant returns. -/
theorem wp_iterate {body : β → Prog K V L E (β ⊕ α)} {Q : α → Store V L → Prop}
    (I : ℕ → β → Store V L → Prop)
    (hbody : ∀ k b t, I k b t → wp P (body b) t fun r t' =>
      match r with
      | .inl b' => ∃ j < k, I j b' t'
      | .inr a => Q a t')
    {n k : ℕ} {b : β} (hI : I k b s) (hk : k < n) : wp P (iterate body n b) s Q := by
  induction n generalizing k b s with
  | zero => omega
  | succ n ih =>
    rw [iterate, wp_bind']
    refine wp_post (hbody k b s hI) fun r t' hr => ?_
    cases r with
    | inl b' =>
      obtain ⟨j, hj, hI'⟩ := hr
      exact ih hI' (by omega)
    | inr a => exact hr

end Loops

end Prog
end KmallocKfree
