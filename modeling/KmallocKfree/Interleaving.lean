import KmallocKfree.Program
import KmallocKfree.Runs
import Mathlib.Logic.Relation
import Mathlib.Data.List.Nodup

/-!
# Programs that run side by side

Processors run programs over one store, one primitive operation at a time, in any order.
A lock is taken by exchanging 1 into its word until the old value was 0; a processor that
finds the lock taken exchanges again. Between the operations the bytes of the memory may
change in any way.

A locking discipline bounds what a program does for every answer that the store may give:
locks are taken in the order of their ranks, released only when held, and held where an
operation needs them. Then in every reached configuration each lock has one holder at
most, the word of a lock tells whether it is held, no cycle of processors wait for one
another, and a lock that a processor waits for leads to a processor that can move.
-/
namespace KmallocKfree

open Prog

variable {K V L E α β : Type}

/-- The rest of the program of a processor, none when it is idle, and the locks it holds. -/
structure Thread (K V L E α : Type) where
  code : Option (Prog K V L E α)
  held : List L

structure Config (K V L E α : Type) where
  store : Store V L
  thread : ℕ → Thread K V L E α

/-- Neither takes nor releases a lock. -/
def Op.Plain : Op K V L → Prop
  | .acquire _ => False
  | .put _ _ => False
  | _ => True

section Steps

variable [DecidableEq V] [DecidableEq L]

/-- Processor `i` goes on in store `s` as thread `t`. -/
def Config.update (c : Config K V L E α) (i : ℕ) (s : Store V L) (t : Thread K V L E α) :
    Config K V L E α := ⟨s, Function.update c.thread i t⟩

/-- Processor `i` makes progress. -/
inductive Moves (i : ℕ) : Config K V L E α → Config K V L E α → Prop
  | acquire {c : Config K V L E α} {l : L} {k : ℕ → Prog K V L E α} :
      (c.thread i).code = some (.op (.acquire l) k) → c.store.lock l = 0 →
      Moves i c (c.update i (c.store.setLock l 1) ⟨some (k 0), l :: (c.thread i).held⟩)
  | release {c : Config K V L E α} {l : L} {v : ℕ} {k : ℕ → Prog K V L E α} :
      (c.thread i).code = some (.op (.put l v) k) →
      Moves i c (c.update i (c.store.setLock l v) ⟨some (k 0), (c.thread i).held.erase l⟩)
  | plain {c : Config K V L E α} {o : Op K V L} {v : ℕ} {s : Store V L}
      {k : ℕ → Prog K V L E α} :
      (c.thread i).code = some (.op o k) → o.Plain →
      (o.run c.store : Except (Fault E) (ℕ × Store V L)) = .ok (v, s) →
      Moves i c (c.update i s ⟨some (k v), (c.thread i).held⟩)
  | fault {c : Config K V L E α} {o : Op K V L} {f : Fault E} {k : ℕ → Prog K V L E α} :
      (c.thread i).code = some (.op o k) → o.Plain → o.run c.store = .error f →
      Moves i c (c.update i c.store ⟨some (.fail f), (c.thread i).held⟩)
  /-- A loop that never ends goes round. -/
  | loop {c : Config K V L E α} : (c.thread i).code = some (.fail .divergence) → Moves i c c
  | finish {c : Config K V L E α} {a : α} : (c.thread i).code = some (.ret a) →
      Moves i c (c.update i c.store ⟨none, (c.thread i).held⟩)

/-- Processor `i` waits for lock `l`. -/
def Waits (c : Config K V L E α) (i : ℕ) (l : L) : Prop :=
  (∃ k, (c.thread i).code = some (.op (.acquire l) k)) ∧ c.store.lock l ≠ 0

/-- Processor `i` waits for a lock that processor `j` holds. -/
def WaitsFor (c : Config K V L E α) (i j : ℕ) : Prop :=
  ∃ l, Waits c i l ∧ l ∈ (c.thread j).held

/-- What happens in a step of the whole machine. -/
inductive Event where
  | call (i : ℕ)
  | move (i : ℕ)
  | spin (i : ℕ)
  | write

/-- `calls i` are the programs that processor `i` may start. -/
inductive ConcurrentStep (calls : ℕ → Prog K V L E α → Prop) :
    Config K V L E α → Event → Config K V L E α → Prop
  | call {c : Config K V L E α} {i : ℕ} {p : Prog K V L E α} : calls i p →
      (c.thread i).code = none →
      ConcurrentStep calls c (.call i) (c.update i c.store ⟨some p, (c.thread i).held⟩)
  | move {c c' : Config K V L E α} {i : ℕ} : Moves i c c' → ConcurrentStep calls c (.move i) c'
  /-- The exchange that finds the lock taken. -/
  | spin {c : Config K V L E α} {i : ℕ} {l : L} : Waits c i l →
      ConcurrentStep calls c (.spin i) ⟨c.store.setLock l 1, c.thread⟩
  | write {c : Config K V L E α} (m : ByteMemory.Mem) :
      ConcurrentStep calls c .write ⟨c.store.setMem m, c.thread⟩

/-- The machine starts with idle processors in a store that meets `start`. -/
def concurrent (calls : ℕ → Prog K V L E α → Prop) (start : Store V L → Prop) :
    Machine (Config K V L E α) Event where
  init c := start c.store ∧ ∀ i, c.thread i = ⟨none, []⟩
  step := ConcurrentStep calls

end Steps

/-- `dom` are the locks in use, `needs i o l` says that operation `o` of processor `i`
needs lock `l`, and assertions in `never` must hold. -/
structure Discipline (K V L E : Type) where
  rank : L → ℕ
  dom : L → Prop
  needs : ℕ → Op K V L → L → Prop
  never : E → Prop

namespace Discipline

variable [DecidableEq L] {D : Discipline K V L E} {i : ℕ} {held : List L}

/-- Program `p` of processor `i` keeps the discipline when it starts with the locks `held`,
whatever the store answers, and ends in `Q`. -/
def Keeps (D : Discipline K V L E) (i : ℕ) : List L → Prog K V L E α → (α → List L → Prop) → Prop
  | held, .ret a, Q => Q a held
  | _, .fail f, _ => ∀ e, f = .assertion e → ¬ D.never e
  | held, .op o k, Q =>
      match o with
      | .acquire l => D.dom l ∧ (∀ h ∈ held, D.rank h < D.rank l) ∧ Keeps D i (l :: held) (k 0) Q
      | .peek l => l ∈ held ∧ Keeps D i held (k 1) Q
      | .put l v => l ∈ held ∧ v = 0 ∧ Keeps D i (held.erase l) (k 0) Q
      | o => (∀ l, D.needs i o l → l ∈ held) ∧ ∀ v, Keeps D i held (k v) Q

/-- Neither takes, reads nor releases a lock. -/
def Data : Op K V L → Prop
  | .acquire _ => False
  | .peek _ => False
  | .put _ _ => False
  | _ => True

@[simp] theorem keeps_ret (a : α) (Q : α → List L → Prop) :
    D.Keeps i held (.ret a) Q ↔ Q a held := Iff.rfl

@[simp] theorem keeps_pure (a : α) (Q : α → List L → Prop) :
    D.Keeps i held (pure a) Q ↔ Q a held := Iff.rfl

theorem keeps_data {o : Op K V L} (ho : Data o) (k : ℕ → Prog K V L E α)
    (Q : α → List L → Prop) : D.Keeps i held (.op o k) Q ↔
      (∀ l, D.needs i o l → l ∈ held) ∧ ∀ v, D.Keeps i held (k v) Q := by
  cases o <;> first | exact Iff.rfl | exact ho.elim

theorem keeps_mono {p : Prog K V L E α} {Q Q' : α → List L → Prop} (h : D.Keeps i held p Q)
    (hQ : ∀ a held', Q a held' → Q' a held') : D.Keeps i held p Q' := by
  induction p generalizing held with
  | ret a => exact hQ a held h
  | fail f => exact h
  | op o k ih =>
    cases o with
    | acquire l => exact ⟨h.1, h.2.1, ih 0 h.2.2⟩
    | peek l => exact ⟨h.1, ih 1 h.2⟩
    | put l v => exact ⟨h.1, h.2.1, ih 0 h.2.2⟩
    | load t p off n => exact ⟨h.1, fun v => ih v (h.2 v)⟩
    | store t p off n w => exact ⟨h.1, fun v => ih v (h.2 v)⟩
    | fill t p n => exact ⟨h.1, fun v => ih v (h.2 v)⟩
    | get x => exact ⟨h.1, fun v => ih v (h.2 v)⟩
    | set x w => exact ⟨h.1, fun v => ih v (h.2 v)⟩

theorem keeps_bind' {p : Prog K V L E α} {f : α → Prog K V L E β} {Q : β → List L → Prop} :
    D.Keeps i held (Prog.bind p f) Q ↔
      D.Keeps i held p fun a held' => D.Keeps i held' (f a) Q := by
  induction p generalizing held with
  | ret a => rfl
  | fail f => rfl
  | op o k ih => cases o <;> simp only [Prog.bind, Keeps, ih]

@[simp] theorem keeps_bind {p : Prog K V L E α} {f : α → Prog K V L E β}
    {Q : β → List L → Prop} :
    D.Keeps i held (p >>= f) Q ↔
      D.Keeps i held p fun a held' => D.Keeps i held' (f a) Q := keeps_bind'

theorem keeps_perform {o : Op K V L} (ho : Data o) (Q : ℕ → List L → Prop) :
    D.Keeps i held (perform o : Prog K V L E ℕ) Q ↔
      (∀ l, D.needs i o l → l ∈ held) ∧ ∀ v, Q v held := keeps_data ho _ _

@[simp] theorem keeps_ite (c : Prop) [Decidable c] (p q : Prog K V L E α)
    (Q : α → List L → Prop) :
    D.Keeps i held (if c then p else q) Q ↔
      if c then D.Keeps i held p Q else D.Keeps i held q Q := by
  split_ifs <;> rfl

/-- A loop whose body keeps the locks keeps them. -/
theorem keeps_iterate {body : β → Prog K V L E (β ⊕ α)}
    (hbody : ∀ b, D.Keeps i held (body b) fun _ held' => held' = held) (n : ℕ) (b : β) :
    D.Keeps i held (iterate body n b) fun _ held' => held' = held := by
  induction n generalizing b with
  | zero =>
    intro e he
    cases he
  | succ n ih =>
    rw [iterate, keeps_bind']
    refine keeps_mono (hbody b) ?_
    rintro r _ rfl
    cases r with
    | inl b' => exact ih b'
    | inr a => rfl

theorem keeps_walk {visit : ℕ → β → Prog K V L E (β ⊕ α)} {next : ℕ → Prog K V L E ℕ}
    {exit : β → α} (hvisit : ∀ x b, D.Keeps i held (visit x b) fun _ held' => held' = held)
    (hnext : ∀ x, D.Keeps i held (next x) fun _ held' => held' = held) (h : ℕ) (acc : β) :
    D.Keeps i held (walk visit next exit h acc) fun _ held' => held' = held := by
  apply keeps_iterate
  rintro ⟨x, b⟩
  simp only
  split_ifs
  · rfl
  · rw [keeps_bind']
    refine keeps_mono (hvisit x b) ?_
    rintro r _ rfl
    cases r with
    | inl b' =>
      rw [keeps_bind']
      refine keeps_mono (hnext x) ?_
      rintro y _ rfl
      rfl
    | inr a => rfl

end Discipline

section Order

variable [DecidableEq V] [DecidableEq L] {D : Discipline K V L E} {c c' : Config K V L E α}
  {calls : ℕ → Prog K V L E α → Prop} {start : Store V L → Prop}
  {C : Config K V L E α → Event → Prop} {s : Store V L} {i j : ℕ} {l l' : L}

/-- The program of each processor keeps the discipline from the locks it holds on, and the
word of a lock tells whether a processor, exactly one, holds it. -/
structure Orderly (D : Discipline K V L E) (c : Config K V L E α) : Prop where
  idle : ∀ i, (c.thread i).code = none → (c.thread i).held = []
  code : ∀ i p, (c.thread i).code = some p → D.Keeps i (c.thread i).held p fun _ held => held = []
  nodup : ∀ i, (c.thread i).held.Nodup
  dom : ∀ i, ∀ l ∈ (c.thread i).held, D.dom l
  word : ∀ l, D.dom l → (c.store.lock l = 0 ∧ ∀ i, l ∉ (c.thread i).held) ∨
    (c.store.lock l = 1 ∧ ∃ i, ∀ j, l ∈ (c.thread j).held ↔ j = i)

omit [DecidableEq V] [DecidableEq L] in
@[simp] theorem Config.update_store (i : ℕ) (s : Store V L) (t : Thread K V L E α) :
    (c.update i s t).store = s := rfl

omit [DecidableEq V] [DecidableEq L] in
@[simp] theorem Config.update_self (i : ℕ) (s : Store V L) (t : Thread K V L E α) :
    (c.update i s t).thread i = t := Function.update_self _ _ _

omit [DecidableEq V] [DecidableEq L] in
theorem Config.update_other (h : j ≠ i) (s : Store V L) (t : Thread K V L E α) :
    (c.update i s t).thread j = c.thread j := Function.update_of_ne h _ _

omit [DecidableEq V] in
/-- One processor goes on, the others stay where they are. -/
theorem Orderly.update {t : Thread K V L E α} (h : Orderly D c)
    (hidle : t.code = none → t.held = [])
    (hcode : ∀ p, t.code = some p → D.Keeps i t.held p fun _ held => held = [])
    (hnodup : t.held.Nodup) (hdom : ∀ l ∈ t.held, D.dom l)
    (hword : ∀ l, D.dom l → (s.lock l = 0 ∧ ∀ j, l ∉ ((c.update i s t).thread j).held) ∨
      (s.lock l = 1 ∧ ∃ k, ∀ j, l ∈ ((c.update i s t).thread j).held ↔ j = k)) :
    Orderly D (c.update i s t) := by
  refine ⟨fun j hj => ?_, fun j p hj => ?_, fun j => ?_, fun j l hl => ?_, hword⟩ <;>
    by_cases hji : j = i
  · subst hji
    rw [Config.update_self] at hj ⊢
    exact hidle hj
  · rw [Config.update_other hji] at hj ⊢
    exact h.idle j hj
  · subst hji
    rw [Config.update_self] at hj ⊢
    exact hcode p hj
  · rw [Config.update_other hji] at hj ⊢
    exact h.code j p hj
  · subst hji
    rw [Config.update_self]
    exact hnodup
  · rw [Config.update_other hji]
    exact h.nodup j
  · subst hji
    rw [Config.update_self] at hl
    exact hdom l hl
  · rw [Config.update_other hji] at hl
    exact h.dom j l hl

omit [DecidableEq V] in
/-- A processor goes on with the same locks. -/
theorem Orderly.continue {code : Option (Prog K V L E α)} (h : Orderly D c)
    (hlock : s.lock = c.store.lock) (hidle : code = none → (c.thread i).held = [])
    (hcode : ∀ p, code = some p → D.Keeps i (c.thread i).held p fun _ held => held = []) :
    Orderly D (c.update i s ⟨code, (c.thread i).held⟩) := by
  have hheld : ∀ j, ((c.update i s ⟨code, (c.thread i).held⟩).thread j).held =
      (c.thread j).held := by
    intro j
    by_cases hj : j = i
    · rw [hj, Config.update_self]
    · rw [Config.update_other hj]
  refine h.update hidle hcode (h.nodup i) (h.dom i) fun l hl => ?_
  simp only [hheld, hlock]
  exact h.word l hl

omit [DecidableEq V] in
/-- The word of a lock that is held. -/
theorem Orderly.word_of_held (h : Orderly D c) (hl : l ∈ (c.thread i).held) :
    c.store.lock l = 1 ∧ ∀ j, l ∈ (c.thread j).held ↔ j = i := by
  obtain ⟨-, hnone⟩ | ⟨hone, k, hk⟩ := h.word l (h.dom i l hl)
  · exact absurd hl (hnone i)
  · have hik := (hk i).mp hl
    rw [hik]
    exact ⟨hone, hk⟩

/-- An operation does not fail an assertion. -/
theorem run_not_assertion (o : Op K V L) (s : Store V L) (e : E) :
    (o.run s : Except (Fault E) (ℕ × Store V L)) ≠ .error (.assertion e) := by
  intro h
  cases o <;> simp only [Op.run] at h <;> (try split_ifs at h) <;> cases h

/-- Data operations leave the locks alone. -/
theorem lock_of_plain {o : Op K V L} {v : ℕ} (ho : o.Plain)
    (hr : (o.run c.store : Except (Fault E) (ℕ × Store V L)) = .ok (v, s)) :
    s.lock = c.store.lock := by
  cases o with
  | load t p off n =>
    simp only [Op.run] at hr
    split_ifs at hr
    cases hr
    rfl
  | store t p off n w =>
    simp only [Op.run] at hr
    split_ifs at hr
    cases hr
    rfl
  | fill t p n =>
    simp only [Op.run] at hr
    split_ifs at hr
    cases hr
    rfl
  | get x => cases hr; rfl
  | set x w => cases hr; rfl
  | acquire l => exact ho.elim
  | peek l => cases hr; rfl
  | put l w => exact ho.elim

/-- The program after a plain operation. -/
theorem Orderly.code_after {o : Op K V L} {k : ℕ → Prog K V L E α} {v : ℕ} (h : Orderly D c)
    (hcode : (c.thread i).code = some (.op o k)) (ho : o.Plain)
    (hr : (o.run c.store : Except (Fault E) (ℕ × Store V L)) = .ok (v, s)) :
    D.Keeps i (c.thread i).held (k v) fun _ held => held = [] := by
  have hkeeps := h.code i _ hcode
  cases o with
  | acquire l => exact ho.elim
  | put l w => exact ho.elim
  | peek l =>
    -- the answer is the word of a lock that the processor holds
    obtain ⟨hheld, hk⟩ := hkeeps
    cases hr
    rw [(h.word_of_held hheld).1]
    exact hk
  | load t p off n => exact hkeeps.2 v
  | store t p off n w => exact hkeeps.2 v
  | fill t p n => exact hkeeps.2 v
  | get x => exact hkeeps.2 v
  | set x w => exact hkeeps.2 v

omit [DecidableEq V] in
/-- A processor takes a free lock. -/
theorem Orderly.acquire {k : ℕ → Prog K V L E α} (h : Orderly D c)
    (hcode : (c.thread i).code = some (.op (.acquire l) k)) (hfree : c.store.lock l = 0) :
    Orderly D (c.update i (c.store.setLock l 1) ⟨some (k 0), l :: (c.thread i).held⟩) := by
  obtain ⟨hdom, -, hk⟩ := h.code i _ hcode
  have hnone : ∀ j, l ∉ (c.thread j).held := by
    obtain ⟨-, hnone⟩ | ⟨hone, -⟩ := h.word l hdom
    · exact hnone
    · rw [hfree] at hone
      cases hone
  refine h.update (fun hidle => nomatch hidle) (fun p hp => ?_)
    (List.nodup_cons.mpr ⟨hnone i, h.nodup i⟩) (fun m hm => ?_) fun m hm => ?_
  · cases hp
    exact hk
  · obtain rfl | hm := List.mem_cons.mp hm
    · exact hdom
    · exact h.dom i m hm
  · by_cases hml : m = l
    · subst hml
      refine .inr ⟨by simp, i, fun j => ?_⟩
      by_cases hji : j = i
      · subst hji
        simp
      · rw [Config.update_other hji]
        exact ⟨fun hj => absurd hj (hnone j), fun hj => absurd hj hji⟩
    · have hmem : ∀ j, m ∈ ((c.update i (c.store.setLock l 1)
          ⟨some (k 0), l :: (c.thread i).held⟩).thread j).held ↔ m ∈ (c.thread j).held := by
        intro j
        by_cases hji : j = i
        · subst hji
          simp [hml]
        · rw [Config.update_other hji]
      simp only [hmem, Store.setLock_lock, if_neg hml]
      exact h.word m hm

omit [DecidableEq V] in
/-- A processor releases a lock. -/
theorem Orderly.release {v : ℕ} {k : ℕ → Prog K V L E α} (h : Orderly D c)
    (hcode : (c.thread i).code = some (.op (.put l v) k)) :
    Orderly D (c.update i (c.store.setLock l v) ⟨some (k 0), (c.thread i).held.erase l⟩) := by
  obtain ⟨hheld, rfl, hk⟩ := h.code i _ hcode
  obtain ⟨-, honly⟩ := h.word_of_held hheld
  have hgone : l ∉ (c.thread i).held.erase l := (h.nodup i).not_mem_erase
  refine h.update (fun hidle => nomatch hidle) (fun p hp => ?_) ((h.nodup i).erase l)
    (fun m hm => h.dom i m (List.mem_of_mem_erase hm)) fun m hm => ?_
  · cases hp
    exact hk
  · by_cases hml : m = l
    · subst hml
      refine .inl ⟨by simp, fun j => ?_⟩
      by_cases hji : j = i
      · subst hji
        rw [Config.update_self]
        exact hgone
      · rw [Config.update_other hji]
        exact fun hj => hji ((honly j).mp hj)
    · have hmem : ∀ j, m ∈ ((c.update i (c.store.setLock l 0)
          ⟨some (k 0), (c.thread i).held.erase l⟩).thread j).held ↔ m ∈ (c.thread j).held := by
        intro j
        by_cases hji : j = i
        · subst hji
          rw [Config.update_self]
          exact List.mem_erase_of_ne hml
        · rw [Config.update_other hji]
      simp only [hmem, Store.setLock_lock, if_neg hml]
      exact h.word m hm

/-- Progress keeps the order. -/
theorem Orderly.moves (h : Orderly D c) (hm : Moves i c c') : Orderly D c' := by
  cases hm with
  | acquire hcode hfree => exact h.acquire hcode hfree
  | release hcode => exact h.release hcode
  | plain hcode ho hr =>
    refine h.continue (lock_of_plain ho hr) (fun hidle => nomatch hidle) ?_
    intro p hp
    cases hp
    exact h.code_after hcode ho hr
  | fault hcode ho hr =>
    refine h.continue rfl (fun hidle => nomatch hidle) ?_
    intro p hp
    cases hp
    intro e he
    subst he
    exact absurd hr (run_not_assertion _ _ _)
  | loop hcode => exact h
  | finish hcode =>
    refine h.continue rfl (fun _ => h.code i _ hcode) ?_
    intro p hp
    cases hp

/-- So does every step. -/
theorem Orderly.step {e : Event} (h : Orderly D c)
    (hcalls : ∀ i p, calls i p → D.Keeps i [] p fun _ held => held = [])
    (hs : ConcurrentStep calls c e c') : Orderly D c' := by
  cases hs with
  | @call i p hp hidle =>
    refine h.continue rfl (fun hnone => nomatch hnone) ?_
    intro q hq
    cases hq
    rw [h.idle i hidle]
    exact hcalls i p hp
  | move hm => exact h.moves hm
  | @spin i l hw =>
    obtain ⟨⟨k, hcode⟩, htaken⟩ := hw
    have hone : c.store.lock l = 1 := by
      obtain ⟨hzero, -⟩ | ⟨hone, -⟩ := h.word l (h.code i _ hcode).1
      · exact absurd hzero htaken
      · exact hone
    refine ⟨h.idle, h.code, h.nodup, h.dom, fun m hm => ?_⟩
    have hsame : (c.store.setLock l 1).lock m = c.store.lock m := by
      rw [Store.setLock_lock]
      split_ifs with hml
      · rw [hml, hone]
      · rfl
    simp only [hsame]
    exact h.word m hm
  | write m => exact ⟨h.idle, h.code, h.nodup, h.dom, h.word⟩

/-- Every reached configuration is in order. -/
theorem orderly_of_reach (hstart : ∀ s, start s → ∀ l, D.dom l → s.lock l = 0)
    (hcalls : ∀ i p, calls i p → D.Keeps i [] p fun _ held => held = [])
    (h : (concurrent calls start).Reach C c) : Orderly D c := by
  refine h.invariant (I := Orderly D) ?_ fun c e c' _ hc _ hs => hc.step hcalls hs
  rintro c ⟨hs, hidle⟩
  refine ⟨fun i _ => ?_, fun i p hp => ?_, fun i => ?_, fun i l hl => ?_,
    fun l hl => .inl ⟨hstart _ hs l hl, ?_⟩⟩
  · rw [hidle]
  · rw [hidle] at hp
    cases hp
  · rw [hidle]
    exact List.nodup_nil
  · rw [hidle] at hl
    exact absurd hl List.not_mem_nil
  · intro i
    rw [hidle]
    exact List.not_mem_nil

end Order

section Consequences

variable [DecidableEq V] [DecidableEq L] {D : Discipline K V L E} {c : Config K V L E α}
  {i j : ℕ} {l l' : L}

omit [DecidableEq V] in
/-- A lock has one holder. -/
theorem Orderly.holder_unique (h : Orderly D c) (hi : l ∈ (c.thread i).held)
    (hj : l ∈ (c.thread j).held) : i = j :=
  (((h.word_of_held hj).2 i).mp hi)

omit [DecidableEq V] in
/-- An assertion that must hold does not fail. -/
theorem Orderly.not_failed {e : E} (h : Orderly D c) (he : D.never e) :
    (c.thread i).code ≠ some (.fail (.assertion e)) := fun hcode => h.code i _ hcode e rfl he

omit [DecidableEq V] in
/-- An operation has the locks that it needs. -/
theorem Orderly.needs_held {o : Op K V L} {k : ℕ → Prog K V L E α} (h : Orderly D c)
    (hcode : (c.thread i).code = some (.op o k)) (ho : Discipline.Data o) (hl : D.needs i o l) :
    l ∈ (c.thread i).held :=
  ((Discipline.keeps_data ho k _).mp (h.code i _ hcode)).1 l hl

omit [DecidableEq V] in
/-- The locks that a waiting processor holds rank below the one it waits for. -/
theorem Orderly.rank_lt (h : Orderly D c) (hw : Waits c i l) (hl : l' ∈ (c.thread i).held) :
    D.rank l' < D.rank l := by
  obtain ⟨⟨k, hcode⟩, -⟩ := hw
  exact (h.code i _ hcode).2.1 l' hl

omit [DecidableEq V] in
theorem Orderly.not_held_of_waits (h : Orderly D c) (hw : Waits c i l) :
    l ∉ (c.thread i).held := fun hl => lt_irrefl _ (h.rank_lt hw hl)

omit [DecidableEq V] in
/-- Along a chain of waiting processors the ranks grow. -/
theorem Orderly.rank_le_of_chain (h : Orderly D c) (hchain : Relation.TransGen (WaitsFor c) i j) :
    ∃ l l', Waits c i l ∧ l' ∈ (c.thread j).held ∧ D.rank l ≤ D.rank l' := by
  induction hchain with
  | single hw =>
    obtain ⟨l, hw, hl⟩ := hw
    exact ⟨l, l, hw, hl, le_rfl⟩
  | tail _ hw ih =>
    obtain ⟨l, l', hwi, hl', hle⟩ := ih
    obtain ⟨m, hwm, hm⟩ := hw
    exact ⟨l, m, hwi, hm, hle.trans (h.rank_lt hwm hl').le⟩

omit [DecidableEq V] in
/-- No processors wait for one another in a cycle. -/
theorem Orderly.acyclic (h : Orderly D c) : ¬ Relation.TransGen (WaitsFor c) i i := by
  intro hcycle
  obtain ⟨l, l', hw, hl', hle⟩ := h.rank_le_of_chain hcycle
  exact absurd (h.rank_lt hw hl') (not_lt.mpr hle)

/-- A processor in a program moves, unless it waits or has stopped. -/
theorem moves_of_running {p : Prog K V L E α} (hcode : (c.thread i).code = some p)
    (hstop : ∀ f, p = .fail f → f = .divergence) (hwait : ∀ l, ¬ Waits c i l) :
    ∃ c', Moves i c c' := by
  cases p with
  | ret a => exact ⟨_, .finish hcode⟩
  | fail f =>
    obtain rfl := hstop f rfl
    exact ⟨c, .loop hcode⟩
  | op o k =>
    have hplain : o.Plain → ∃ c', Moves i c c' := by
      intro ho
      cases hr : (o.run c.store : Except (Fault E) (ℕ × Store V L)) with
      | ok r => exact ⟨_, .plain hcode ho hr⟩
      | error f => exact ⟨_, .fault hcode ho hr⟩
    cases o with
    | acquire l =>
      have hfree : c.store.lock l = 0 := by
        by_contra htaken
        exact hwait l ⟨⟨k, hcode⟩, htaken⟩
      exact ⟨_, .acquire hcode hfree⟩
    | put l v => exact ⟨_, .release hcode⟩
    | load t p off n => exact hplain trivial
    | store t p off n w => exact hplain trivial
    | fill t p n => exact hplain trivial
    | get x => exact hplain trivial
    | set x w => exact hplain trivial
    | peek l => exact hplain trivial

/-- Behind every lock that a processor waits for there is a holder of a lock that moves,
as long as no processor has stopped. -/
theorem Orderly.progress {n : ℕ} (h : Orderly D c) (hrank : ∀ l, D.rank l < n)
    (hrun : ∀ j f, (c.thread j).code = some (.fail f) → f = .divergence) (hw : Waits c i l) :
    ∃ j, (c.thread j).held ≠ [] ∧ ∃ c', Moves j c c' := by
  -- induction on the ranks above the lock that is waited for
  induction hm : n - D.rank l using Nat.strong_induction_on generalizing i l with
  | _ m ih =>
    obtain ⟨⟨k, hcode⟩, htaken⟩ := hw
    obtain ⟨hzero, -⟩ | ⟨-, j, hj⟩ := h.word l (h.code i _ hcode).1
    · exact absurd hzero htaken
    · have hl : l ∈ (c.thread j).held := (hj j).mpr rfl
      by_cases hwj : ∃ l', Waits c j l'
      · obtain ⟨l', hwj⟩ := hwj
        have hlt := h.rank_lt hwj hl
        have hn := hrank l'
        exact ih (n - D.rank l') (by omega) hwj rfl
      · refine ⟨j, List.ne_nil_of_mem hl, ?_⟩
        cases hjcode : (c.thread j).code with
        | none =>
          rw [h.idle j hjcode] at hl
          exact absurd hl List.not_mem_nil
        | some p =>
          refine moves_of_running hjcode (fun f hf => hrun j f ?_) fun l' hw' => hwj ⟨l', hw'⟩
          rw [hjcode, hf]

end Consequences

section Computed

variable [DecidableEq V] [DecidableEq L] {calls : ℕ → Prog K V L E α → Prop}
  {start : Store V L → Prop} {c : Config K V L E α} {i : ℕ}

/-- Up to `n` moves of one processor, from its program, the store and its locks; none when
it cannot make them. -/
def advance : ℕ → Prog K V L E α × Store V L × List L → Option (Prog K V L E α × Store V L × List L)
  | 0, x => some x
  | n + 1, (.op o k, s, held) =>
      match o with
      | .acquire l => if s.lock l = 0 then advance n (k 0, s.setLock l 1, l :: held) else none
      | .put l v => advance n (k 0, s.setLock l v, held.erase l)
      | o =>
          match (o.run s : Except (Fault E) (ℕ × Store V L)) with
          | .ok (v, s') => advance n (k v, s', held)
          | .error _ => none
  | _ + 1, _ => none

theorem advance_plain {o : Op K V L} {k : ℕ → Prog K V L E α} {s : Store V L} {held : List L}
    {x : Prog K V L E α × Store V L × List L} {n : ℕ} (ho : o.Plain)
    (h : advance (n + 1) (.op o k, s, held) = some x) :
    ∃ v s', (o.run s : Except (Fault E) (ℕ × Store V L)) = .ok (v, s') ∧
      advance n (k v, s', held) = some x := by
  have hrun : (match (o.run s : Except (Fault E) (ℕ × Store V L)) with
      | .ok (v, s') => advance n (k v, s', held)
      | .error _ => none) = some x := by
    cases o with
    | acquire l => exact ho.elim
    | put l v => exact ho.elim
    | _ => exact h
  cases hr : (o.run s : Except (Fault E) (ℕ × Store V L)) with
  | ok r =>
    rw [hr] at hrun
    exact ⟨r.1, r.2, rfl, hrun⟩
  | error f =>
    rw [hr] at hrun
    cases hrun

omit [DecidableEq V] [DecidableEq L] in
theorem Config.update_update (s s' : Store V L) (t t' : Thread K V L E α) :
    (c.update i s t).update i s' t' = c.update i s' t' := by
  simp [Config.update]

end Computed
end KmallocKfree
