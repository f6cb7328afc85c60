import KmallocKfree.Sessions
import Mathlib.Algebra.BigOperators.Group.Finset.Piecewise
import Mathlib.Algebra.Order.Group.Multiset

/-!
# Large calls of many CPUs take effect one at a time

In every interleaving of the memory operations of large calls there is a run of the same
calls one at a time, in the order in which they took the heap lock, that gives the callers
the same blocks. A CPU on its way to the lock has changed nothing; the one behind the lock
finishes what the run alone has done, whatever owners write in the meantime.
-/
namespace KmallocKfree

open Prog Region Shape
open ByteMemory (Mem)

/-- The command is a call of CPU `i`. -/
def Cmd.IssuedBy (i : ℕ) : Cmd → Bool
  | .alloc cpu _ => cpu = i
  | .free cpu _ => cpu = i
  | .write _ _ => false

/-- The calls of CPU `i` among the commands. -/
def callsOf (i : ℕ) (cmds : List Cmd) : List Cmd := cmds.filter (Cmd.IssuedBy i)

/-- What the command returns to CPU `i` when it is made in `w`; nothing when it is no call of
CPU `i`. -/
def World.answer (p : Platform) (i : ℕ) (w : World) : Cmd → Option ℕ
  | .alloc cpu n => if cpu = i then (Call.alloc n).answer p w cpu else none
  | .free cpu ptr => if cpu = i then (Call.free ptr).answer p w cpu else none
  | .write _ _ => none

/-- What the calls of CPU `i` return when the commands are made one at a time. -/
def answersOf (p : Platform) (i : ℕ) : World → List Cmd → List ℕ
  | _, [] => []
  | w, c :: l => (w.answer p i c).toList ++ (w.exec p c).elim [] fun w' => answersOf p i w' l

section Answers

variable {p : Platform} {i j x : ℕ} {v : UInt8} {c : Call} {w w₀ w' : World} {l : List Cmd}

@[simp] theorem answer_self : w.answer p i (c.cmd i) = c.answer p w i := by
  cases c <;> exact if_pos rfl

theorem answer_other (h : j ≠ i) : w.answer p j (c.cmd i) = none := by
  cases c <;> exact if_neg h.symm

/-- One more command. -/
theorem answersOf_snoc {d : Cmd} (h : (allocator p).Trace (fun _ _ => True) w₀ l w)
    (hexec : w.exec p d = some w') :
    answersOf p i w₀ (l ++ [d]) = answersOf p i w₀ l ++ (w.answer p i d).toList := by
  induction h with
  | nil => simp [answersOf, hexec]
  | cons _ hstep _ ih =>
    have hstep : _ = some _ := hstep
    rw [List.cons_append, answersOf, answersOf, hstep, Option.elim_some, Option.elim_some,
      ih hexec, List.append_assoc]

end Answers

section Calls

variable {i j a x : ℕ} {c : Call} {cmds : List Cmd} {live : List Block} {v : UInt8}

@[simp] theorem callsOf_self : callsOf i (cmds ++ [c.cmd i]) = callsOf i cmds ++ [c.cmd i] := by
  cases c <;> simp [callsOf, Call.cmd, Cmd.IssuedBy]

theorem callsOf_other (h : j ≠ i) : callsOf j (cmds ++ [c.cmd i]) = callsOf j cmds := by
  cases c <;> simp [callsOf, Call.cmd, Cmd.IssuedBy, h.symm]

@[simp] theorem callsOf_write : callsOf i (cmds ++ [.write x v]) = callsOf i cmds := by
  simp [callsOf, Cmd.IssuedBy]

theorem Call.returned_coe (c : Call) (a : ℕ) (live : List Block) :
    (c.returned a live : Multiset Block) = ↑live + ↑(c.returned a []) := by
  cases c with
  | alloc n =>
    unfold Call.returned
    split_ifs
    · simp
    · rw [← Multiset.cons_coe, ← Multiset.cons_coe, Multiset.coe_nil, Multiset.add_cons, add_zero]
  | free ptr => simp [Call.returned]

end Calls

/-- What a call that has not taken effect owes its caller: the block that it frees. -/
inductive Call.Pending : Call → Multiset Block → Prop
  | alloc (n : ℕ) : Call.Pending (.alloc n) 0
  | free (b : Block) : Call.Pending (.free b.addr) {b}

/-- Where CPU `i` is in its call, when the calls that took the heap lock have led to `w`:
`owed` are the live blocks of `w` that its caller does not own, `given` what its calls have
returned, and `said` what they return one at a time. -/
inductive Status (p : Platform) (i : ℕ) (s : PmmState) (w : World) (call : Option Call)
    (t : Thread Struct Global Lock Check ℕ) (made order : List Cmd) (given said : List ℕ)
    (owed : Multiset Block) : Prop
  | idle : call = none → t.code = none → made = order → said = given → owed = 0 →
      Status p i s w call t made order given said owed
  /-- On its way to the heap lock. -/
  | opening {c : Call} {q : Code ℕ} {holds : Bool} : call = some c → t.code = some q → c.Large →
      i < p.cpuCount → Leads (.pagelist i) (emptyLists p) holds false q c.underLock →
      (holds = true → .pagelist i ∈ t.held) → .heapLock ∉ t.held →
      made = order ++ [c.cmd i] → said = given → c.Pending owed →
      Status p i s w call t made order given said owed
  /-- Behind the heap lock. -/
  | inside {c : Call} {q : Code ℕ} {F : Footprint Struct Global Lock} {a : ℕ} : call = some c →
      t.code = some q → i < p.cpuCount → .heapLock ∈ t.held → Critical .heapLock q →
      (∀ b ∈ w.live, b ∉ owed → Spares F b) → (∀ x, F.sets x → x = .head) →
      Finishes (F.only .heapLock) q s a w.st → made = order → said = given ++ [a] →
      owed = c.returned a [] → Status p i s w call t made order given said owed
  /-- Behind the release. -/
  | done {c : Call} {a : ℕ} : call = some c → t.code = some (.ret a) → i < p.cpuCount →
      .heapLock ∉ t.held → made = order → said = given ++ [a] → owed = c.returned a [] →
      Status p i s w call t made order given said owed

/-- The session and the run of its calls one at a time, which has led from `w₀` to `w`. -/
structure Serial (p : Platform) (w₀ : World) (s : Session) (w : World) (m : Model)
    (owed : ℕ → Multiset Block) : Prop where
  run : (allocator p).Trace (fun _ _ => True) w₀ s.order w
  computes : Computes p w m
  pages : m.shape.pages = []
  status : ∀ i, Status p i s.config.store w (s.call i) (s.config.thread i) (callsOf i s.made)
    (callsOf i s.order) (s.answers i) (answersOf p i w₀ s.order) (owed i)
  blocks : (w.live : Multiset Block) = s.live + ∑ i ∈ Finset.range p.cpuCount, owed i
  bound : ∀ i, p.cpuCount ≤ i → owed i = 0
  heads : ∀ cpu < p.cpuCount, s.config.store.var (.pagehead cpu) = 0
  same : (∀ i, .heapLock ∉ (s.config.thread i).held) →
    s.config.store.mem = w.st.mem ∧ s.config.store.var = w.st.var

section Steps

variable {p : Platform} {s s' : Session} {w w' w₀ : World} {m m' : Model}
  {owed : ℕ → Multiset Block} {i j : ℕ} {u u' : PmmState} {call : Option Call}
  {t : Thread Struct Global Lock Check ℕ}
  {made order : List Cmd} {given said : List ℕ} {o : Multiset Block}

/-- One CPU owes other blocks. -/
theorem sum_update (owed : ℕ → Multiset Block) (hi : i < p.cpuCount) (o : Multiset Block) :
    ∑ j ∈ Finset.range p.cpuCount, Function.update owed i o j + owed i =
      ∑ j ∈ Finset.range p.cpuCount, owed j + o := by
  have hmem : i ∈ Finset.range p.cpuCount := Finset.mem_range.mpr hi
  rw [Finset.sum_update_of_mem hmem, Finset.sdiff_singleton_eq_erase,
    ← Finset.sum_erase_add _ owed hmem]
  ac_rfl

/-- A CPU that is not behind the heap lock stays where it is. -/
theorem Status.outside (h : Status p i u w call t made order given said o)
    (hheld : .heapLock ∉ t.held) :
    Status p i u' w' call t made order given said o := by
  cases h with
  | idle h₁ h₂ h₃ h₄ h₅ => exact .idle h₁ h₂ h₃ h₄ h₅
  | opening h₁ h₂ h₃ h₄ h₅ h₆ h₇ h₈ h₉ h₁₀ => exact .opening h₁ h₂ h₃ h₄ h₅ h₆ h₇ h₈ h₉ h₁₀
  | inside _ _ _ hin _ _ _ _ _ _ _ => exact absurd hin hheld
  | done h₁ h₂ h₃ h₄ h₅ h₆ h₇ => exact .done h₁ h₂ h₃ h₄ h₅ h₆ h₇

/-- A CPU stays where it is while others move, and while owners write. -/
theorem Status.keep (h : Status p i u w call t made order given said o) (hlive : w'.live = w.live)
    (hfin : ∀ (F : Footprint Struct Global Lock) (q : Code ℕ) (a : ℕ),
      (∀ b ∈ w.live, b ∉ o → Spares F b) → Finishes (F.only .heapLock) q u a w.st →
      Finishes (F.only .heapLock) q u' a w'.st) :
    Status p i u' w' call t made order given said o := by
  by_cases hheld : .heapLock ∈ t.held
  · cases h with
    | idle h₁ h₂ h₃ h₄ h₅ => exact .idle h₁ h₂ h₃ h₄ h₅
    | opening _ _ _ _ _ _ hout _ _ _ => exact absurd hheld hout
    | inside h₁ h₂ h₃ _ h₅ hspares h₇ hfinish h₉ h₁₀ h₁₁ =>
      refine .inside h₁ h₂ h₃ hheld h₅ ?_ h₇ (hfin _ _ _ hspares hfinish) h₉ h₁₀ h₁₁
      rwa [hlive]
    | done _ _ _ hout _ _ _ => exact absurd hheld hout
  · exact h.outside hheld

/-- A CPU stays where it is when a store differs in other locks. -/
theorem Status.locks (h : Status p i u w call t made order given said o) (hmem : u'.mem = u.mem)
    (hvar : u'.var = u.var) (hlock : u'.lock .heapLock = u.lock .heapLock) :
    Status p i u' w call t made order given said o :=
  h.keep rfl fun _ _ _ _ hfin => hfin.locks hmem hvar hlock

/-- CPU `i` makes a step, after which the others are where they were. -/
theorem Serial.advance (h : Serial p w₀ s w m owed) (hi : i < p.cpuCount)
    (hcall : ∀ j ≠ i, s'.call j = s.call j)
    (hthread : ∀ j ≠ i, s'.config.thread j = s.config.thread j)
    (hmade : ∀ j ≠ i, callsOf j s'.made = callsOf j s.made)
    (horder : ∀ j ≠ i, callsOf j s'.order = callsOf j s.order)
    (hgiven : ∀ j ≠ i, s'.answers j = s.answers j)
    (hsaid : ∀ j ≠ i, answersOf p j w₀ s'.order = answersOf p j w₀ s.order)
    (hrun : (allocator p).Trace (fun _ _ => True) w₀ s'.order w') (hcomp : Computes p w' m')
    (hpages : m'.shape.pages = [])
    (hothers : ∀ j ≠ i, ∀ {call made order given said}, Status p j s.config.store w
      call (s.config.thread j) made order given said (owed j) →
      Status p j s'.config.store w' call (s.config.thread j) made order given said (owed j))
    (hstatus : Status p i s'.config.store w' (s'.call i) (s'.config.thread i)
      (callsOf i s'.made) (callsOf i s'.order) (s'.answers i) (answersOf p i w₀ s'.order) o)
    (hblocks : (w'.live : Multiset Block) + s.live + owed i = w.live + s'.live + o)
    (hheads : ∀ cpu < p.cpuCount, s'.config.store.var (.pagehead cpu) = 0)
    (hsame : (∀ j, .heapLock ∉ (s'.config.thread j).held) →
      s'.config.store.mem = w'.st.mem ∧ s'.config.store.var = w'.st.var) :
    Serial p w₀ s' w' m' (Function.update owed i o) := by
  refine ⟨hrun, hcomp, hpages, fun j => ?_, ?_, fun j hj => ?_, hheads, hsame⟩
  · by_cases hji : j = i
    · subst hji
      rwa [Function.update_self]
    · rw [Function.update_of_ne hji, hcall j hji, hthread j hji, hmade j hji, horder j hji,
        hgiven j hji, hsaid j hji]
      exact hothers j hji (h.status j)
  · have hsum := sum_update owed hi o
    set S := ∑ j ∈ Finset.range p.cpuCount, owed j
    set S' := ∑ j ∈ Finset.range p.cpuCount, Function.update owed i o j
    have hboth : (w'.live : Multiset Block) + (s.live + owed i) =
        s'.live + S' + (s.live + owed i) := by
      calc (w'.live : Multiset Block) + (s.live + owed i) = s.live + S + s'.live + o := by
            rw [← add_assoc, hblocks, h.blocks]
        _ = s.live + s'.live + (S + o) := by ac_rfl
        _ = s'.live + S' + (s.live + owed i) := by rw [← hsum]; ac_rfl
    exact add_right_cancel hboth
  · rw [Function.update_of_ne (by omega)]
    exact h.bound j hj

/-- A CPU that is in no call owes nothing. -/
theorem Status.of_idle (h : Status p i u w call t made order given said o) (hidle : t.code = none) :
    made = order ∧ said = given ∧ o = 0 := by
  cases h with
  | idle _ _ h₃ h₄ h₅ => exact ⟨h₃, h₄, h₅⟩
  | opening _ hcode _ _ _ _ _ _ _ _ =>
    rw [hidle] at hcode
    cases hcode
  | inside _ hcode _ _ _ _ _ _ _ _ _ =>
    rw [hidle] at hcode
    cases hcode
  | done _ hcode _ _ _ _ _ =>
    rw [hidle] at hcode
    cases hcode

/-- A CPU starts a call. -/
theorem Serial.start {c : Call} {live : List Block} (h : Serial p w₀ s w m owed)
    (hord : Orderly (pmmLocks p) s.config) (hi : i < p.cpuCount)
    (hidle : (s.config.thread i).code = none) (hc : c.Large) (hpending : c.Pending o)
    (hlive : (s.live : Multiset Block) = live + o) :
    Serial p w₀ (s.start p i c live) w m (Function.update owed i o) := by
  obtain ⟨hmade, hsaid, howed⟩ := (h.status i).of_idle hidle
  have hheld : (s.config.thread i).held = [] := hord.idle i hidle
  have hthread : ∀ j, ((s.start p i c live).config.thread j).held = (s.config.thread j).held := by
    intro j
    by_cases hji : j = i
    · rw [hji, Session.start_self]
    · rw [Session.start_other hji]
  refine h.advance hi (fun j hj => Function.update_of_ne hj _ _)
    (fun j hj => Session.start_other hj) (fun j hj => callsOf_other hj) (fun _ _ => rfl)
    (fun _ _ => rfl) (fun _ _ => rfl) h.run h.computes h.pages
    (fun _ _ {_ _ _ _ _} hstatus => hstatus) ?_ ?_ h.heads fun hfree => ?_
  · refine .opening (Function.update_self _ _ _) (congrArg Thread.code Session.start_self) hc hi
      (Call.leads hc) (by simp) ?_ ?_ hsaid hpending
    · rw [hthread i, hheld]
      exact List.not_mem_nil
    · change callsOf i (s.made ++ [c.cmd i]) = _
      rw [callsOf_self, hmade]
      rfl
  · rw [howed, hlive]
    change _ = (w.live : Multiset Block) + live + o
    rw [add_zero, add_assoc]
  · exact h.same fun j => by
      rw [← hthread j]
      exact hfree j

/-- A call that returns has taken effect. -/
theorem Status.of_ret {a : ℕ} (h : Status p i u w call t made order given said o)
    (hret : t.code = some (.ret a)) : ∃ c, call = some c ∧ i < p.cpuCount ∧ made = order ∧
      said = given ++ [a] ∧ o = c.returned a [] := by
  cases h with
  | idle _ hidle _ _ _ =>
    rw [hret] at hidle
    cases hidle
  | @opening c' q holds hcall hcode _ _ hway _ _ _ _ _ =>
    rw [hret] at hcode
    cases hcode
    obtain ⟨k, hk, -⟩ := c'.exists_section
    rw [hk] at hway
    cases hway
  | inside _ hcode _ _ hcrit _ _ _ _ _ _ =>
    rw [hret] at hcode
    cases hcode
    exact hcrit.elim
  | done hcall hcode hi _ hmade hsaid howed =>
    rw [hret] at hcode
    cases hcode
    exact ⟨_, hcall, hi, hmade, hsaid, howed⟩

/-- Calls take effect in the order in which a CPU makes them. -/
theorem Status.order_grows (h : Status p i u w call t made order given said o) :
    order <+: made := by
  cases h with
  | idle _ _ hmade _ _ => rw [hmade]
  | opening _ _ _ _ _ _ _ hmade _ _ =>
    rw [hmade]
    exact List.prefix_append _ _
  | inside _ _ _ _ _ _ _ _ hmade _ _ => rw [hmade]
  | done _ _ _ _ hmade _ _ => rw [hmade]

/-- A CPU has been answered what its calls return one at a time. -/
theorem Status.given_grows (h : Status p i u w call t made order given said o) :
    given <+: said := by
  cases h with
  | idle _ _ _ hsaid _ => rw [hsaid]
  | opening _ _ _ _ _ _ _ _ hsaid _ => rw [hsaid]
  | inside _ _ _ _ _ _ _ _ _ hsaid _ =>
    rw [hsaid]
    exact List.prefix_append _ _
  | done _ _ _ _ _ hsaid _ =>
    rw [hsaid]
    exact List.prefix_append _ _

/-- A call returns to its caller. -/
theorem Serial.finish {c : Call} {a : ℕ} (h : Serial p w₀ s w m owed) (hcall : s.call i = some c)
    (hret : (s.config.thread i).code = some (.ret a)) :
    Serial p w₀ (s.finish i c a) w m (Function.update owed i 0) := by
  obtain ⟨c', hcall', hi, hmade, hsaid, howed⟩ := (h.status i).of_ret hret
  obtain rfl : c = c' := Option.some.inj (hcall.symm.trans hcall')
  have hthread : ∀ j, ((s.finish i c a).config.thread j).held = (s.config.thread j).held := by
    intro j
    by_cases hji : j = i
    · rw [hji, Session.finish_self]
    · rw [Session.finish_other hji]
  refine h.advance hi (fun j hj => Function.update_of_ne hj _ _)
    (fun j hj => Session.finish_other hj) (fun _ _ => rfl) (fun _ _ => rfl)
    (fun j hj => Function.update_of_ne hj _ _) (fun _ _ => rfl) h.run h.computes h.pages
    (fun _ _ {_ _ _ _ _} hstatus => hstatus) ?_ ?_ h.heads fun hfree => ?_
  · refine .idle (Function.update_self _ _ _) (congrArg Thread.code Session.finish_self) hmade ?_
      rfl
    exact hsaid.trans (Function.update_self (f := s.answers) _ _).symm
  · change _ = (w.live : Multiset Block) + ↑(c.returned a s.live) + 0
    rw [howed, c.returned_coe a s.live, add_zero, add_assoc]
  · exact h.same fun j => by
      rw [← hthread j]
      exact hfree j

/-- A lock that is found taken stays as it is. -/
theorem Serial.spin {l : Lock} (h : Serial p w₀ s w m owed) (hord : Orderly (pmmLocks p) s.config)
    (hw : Waits s.config i l) :
    Serial p w₀ { s with config := ⟨s.config.store.setLock l 1, s.config.thread⟩ } w m owed := by
  obtain ⟨⟨k, hcode⟩, htaken⟩ := hw
  have hone : s.config.store.lock l = 1 := by
    obtain ⟨hzero, -⟩ | ⟨hone, -⟩ := hord.word l (hord.code i _ hcode).1
    · exact absurd hzero htaken
    · exact hone
  have hsame : s.config.store.setLock l 1 = s.config.store := by
    rw [← hone, Store.setLock_self]
  rw [hsame]
  exact h

/-- Every live block occurs once. -/
theorem Serial.nodup (h : Serial p w₀ s w m owed) : w.live.Nodup := by
  have hs := h.computes.inv.sound
  have hless := h.computes.inv.pageless h.pages
  refine hs.apart.imp_of_mem fun {b c} hb _ hd heq => ?_
  have hsize := b.size_pos (hs.huge b hb (hless.huge b hb)).1
  subst heq
  unfold Disj Block.region Region.stop at hd
  simp only at hd
  omega

theorem Serial.mem_live {b : Block} (h : Serial p w₀ s w m owed) (hb : b ∈ s.live) :
    b ∈ w.live := by
  rw [← Multiset.mem_coe, h.blocks]
  exact Multiset.mem_add.mpr (.inl hb)

/-- No CPU owes a block that a caller owns. -/
theorem Serial.not_owed {b : Block} (h : Serial p w₀ s w m owed) (hb : b ∈ s.live) (i : ℕ) :
    b ∉ owed i := by
  intro howed
  have hi : i < p.cpuCount := by
    by_contra hge
    rw [h.bound i (by omega)] at howed
    exact absurd howed (Multiset.notMem_zero b)
  have hnodup : (w.live : Multiset Block).Nodup := Multiset.coe_nodup.mpr h.nodup
  rw [h.blocks] at hnodup
  refine Multiset.disjoint_left.mp (Multiset.disjoint_of_nodup_add hnodup) hb ?_
  exact Multiset.mem_sum.mpr ⟨i, Finset.mem_range.mpr hi, howed⟩

/-- An owner writes a byte of its block. -/
theorem Serial.write {b : Block} {addr : ℕ} {v : UInt8} (h : Serial p w₀ s w m owed)
    (hb : b ∈ s.live) (haddr : b.region.Contains addr) :
    ∃ w', Serial p w₀ { s with
      config := ⟨s.store addr v, s.config.thread⟩
      order := s.order ++ [.write addr v] } w' m owed := by
  have hbw := h.mem_live hb
  obtain ⟨w', hexec, hcomp⟩ := h.computes.step (c := .write addr v)
    ⟨b, h.computes.live ▸ hbw, haddr⟩
  obtain ⟨-, rfl⟩ := exec_write_some hexec
  refine ⟨_, h.run.append (.cons trivial hexec .nil), hcomp, h.pages, fun i => ?_, h.blocks,
    h.bound, h.heads, fun hfree => ?_⟩
  · rw [callsOf_write, answersOf_snoc h.run hexec, World.answer, Option.toList_none,
      List.append_nil]
    refine (h.status i).keep rfl fun F q a hspares hfin => ?_
    obtain ⟨hr, hw⟩ := hspares b hbw (h.not_owed hb i) addr haddr
    exact hfin.setByte hr hw v
  · obtain ⟨hmem, hvar⟩ := h.same hfree
    refine ⟨?_, hvar⟩
    funext x
    simp only [Session.store, Store.setMem_mem, hmem]

/-- One CPU goes on in its call. -/
theorem Serial.continue (h : Serial p w₀ s w m owed) (hi : i < p.cpuCount)
    (hstatus : Status p i u w (s.call i) t (callsOf i s.made) (callsOf i s.order) (s.answers i)
      (answersOf p i w₀ s.order) (owed i))
    (hothers : ∀ j ≠ i, ∀ {call made order given said}, Status p j s.config.store w
      call (s.config.thread j) made order given said (owed j) →
      Status p j u w call (s.config.thread j) made order given said (owed j))
    (hheads : ∀ cpu < p.cpuCount, u.var (.pagehead cpu) = 0)
    (hsame : .heapLock ∉ t.held → (∀ j ≠ i, .heapLock ∉ (s.config.thread j).held) →
      u.mem = w.st.mem ∧ u.var = w.st.var) :
    Serial p w₀ { s with config := s.config.update i u t } w m owed := by
  rw [← Function.update_eq_self i owed]
  refine h.advance hi (fun _ _ => rfl) (fun j hj => Config.update_other hj _ _) (fun _ _ => rfl)
    (fun _ _ => rfl) (fun _ _ => rfl) (fun _ _ => rfl) h.run h.computes h.pages hothers ?_ rfl
    hheads fun hfree => hsame ?_ fun j hj => ?_
  · rwa [Config.update_self]
  · have hself := hfree i
    rwa [Config.update_self] at hself
  · have hother := hfree j
    rwa [Config.update_other hj] at hother

/-- On the way to the heap lock only other locks change. -/
theorem Serial.opening {c : Call} {q : Code ℕ} {holds : Bool} (h : Serial p w₀ s w m owed)
    (hcall : s.call i = some c) (hlarge : c.Large) (hi : i < p.cpuCount)
    (hmade : callsOf i s.made = callsOf i s.order ++ [c.cmd i])
    (hsaid : answersOf p i w₀ s.order = s.answers i) (hpending : c.Pending (owed i))
    (hmem : u.mem = s.config.store.mem) (hvar : u.var = s.config.store.var)
    (hlock : u.lock .heapLock = s.config.store.lock .heapLock) {held : List Lock}
    (hway : Leads (.pagelist i) (emptyLists p) holds false q c.underLock)
    (hheld : holds = true → .pagelist i ∈ held) (hout : .heapLock ∉ held)
    (hbefore : .heapLock ∉ (s.config.thread i).held) :
    Serial p w₀ { s with config := s.config.update i u ⟨some q, held⟩ } w m owed := by
  refine h.continue hi (.opening hcall rfl hlarge hi hway hheld hout hmade hsaid hpending)
    (fun j _ {_ _ _ _ _} hstatus => hstatus.locks hmem hvar hlock) ?_ fun _ hothers => ?_
  · rw [hvar]
    exact h.heads
  · rw [hmem, hvar]
    refine h.same fun j => ?_
    by_cases hji : j = i
    · rw [hji]
      exact hbefore
    · exact hothers j hji

/-- A step on the way to the heap lock. -/
theorem Serial.move_opening {c : Call} {q : Code ℕ} {holds : Bool}
    {c' : Config Struct Global Lock Check ℕ} (h : Serial p w₀ s w m owed)
    (hord : Orderly (pmmLocks p) s.config) (hm : Moves i s.config c')
    (hlock : ∀ k, (s.config.thread i).code ≠ some (.op (.acquire .heapLock) k))
    (hcall : s.call i = some c) (hq : (s.config.thread i).code = some q) (hlarge : c.Large)
    (hi : i < p.cpuCount) (hway : Leads (.pagelist i) (emptyLists p) holds false q c.underLock)
    (hheld : holds = true → .pagelist i ∈ (s.config.thread i).held)
    (hout : .heapLock ∉ (s.config.thread i).held)
    (hmade : callsOf i s.made = callsOf i s.order ++ [c.cmd i])
    (hsaid : answersOf p i w₀ s.order = s.answers i) (hpending : c.Pending (owed i)) :
    Serial p w₀ { s with config := c' } w m owed := by
  cases hway with
  | here =>
    obtain ⟨k, hk, -⟩ := c.exists_section
    exact absurd (hq.trans (congrArg some hk)) (hlock k)
  | acquire hrest =>
    rw [hm.of_acquire hq]
    exact h.opening (u := s.config.store.setLock (.pagelist i) 1) hcall hlarge hi hmade hsaid
      hpending
      rfl rfl (by simp) hrest (fun _ => List.mem_cons_self) (by simpa using hout) hout
  | peek hrest =>
    have hone : s.config.store.lock (.pagelist i) = 1 := (hord.word_of_held (hheld rfl)).1
    rw [hm.of_plain hq trivial (by rw [Op.run, hone])]
    exact h.opening hcall hlarge hi hmade hsaid hpending rfl rfl rfl hrest hheld hout hout
  | put hrest =>
    rw [hm.of_put hq]
    exact h.opening (u := s.config.store.setLock (.pagelist i) 0) hcall hlarge hi hmade hsaid
      hpending
      rfl rfl (by simp) hrest (by simp) (fun hin => hout (List.mem_of_mem_erase hin)) hout
  | get hx hrest =>
    have hvar := emptyLists_eq h.heads hx
    rw [hm.of_plain hq trivial (by rw [Op.run, hvar])]
    exact h.opening hcall hlarge hi hmade hsaid hpending rfl rfl rfl hrest hheld hout hout

/-- A step behind the heap lock. -/
theorem Serial.move_inside {c : Call} {q : Code ℕ} {F : Footprint Struct Global Lock} {a : ℕ}
    {c' : Config Struct Global Lock Check ℕ} (h : Serial p w₀ s w m owed)
    (hord : Orderly (pmmLocks p) s.config) (hm : Moves i s.config c')
    (hcall : s.call i = some c) (hq : (s.config.thread i).code = some q) (hi : i < p.cpuCount)
    (hin : .heapLock ∈ (s.config.thread i).held) (hcrit : Critical .heapLock q)
    (hspares : ∀ b ∈ w.live, b ∉ owed i → Spares F b) (hsets : ∀ x, F.sets x → x = .head)
    (hfin : Finishes (F.only .heapLock) q s.config.store a w.st)
    (hmade : callsOf i s.made = callsOf i s.order)
    (hsaid : answersOf p i w₀ s.order = s.answers i ++ [a]) (howed : owed i = c.returned a []) :
    Serial p w₀ { s with config := c' } w m owed := by
  -- nobody else is behind the heap lock
  have hothers : ∀ {u : PmmState}, ∀ j ≠ i, ∀ {call made order given said},
      Status p j s.config.store w call (s.config.thread j) made order given said (owed j) →
      Status p j u w call (s.config.thread j) made order given said (owed j) := by
    intro u j hj call made order given said hstatus
    exact hstatus.outside fun hjin => hj (hord.holder_unique hjin hin)
  cases q with
  | ret b => exact hcrit.elim
  | fail f => exact hfin.elim
  | op o k =>
    by_cases hplain : o.Plain
    · obtain ⟨ho, v, u, hr, hrest⟩ := hfin.next
      have hframe := framed_run ho hr
      rw [hm.of_plain hq hplain hr]
      refine h.continue hi (.inside hcall rfl hi hin (hcrit.next hplain v) hspares hsets hrest
        hmade hsaid howed) hothers (fun cpu hcpu => ?_) fun hout => absurd hin hout
      have hkept : ¬ F.sets (.pagehead cpu) := fun hset => by cases hsets _ hset
      rw [hframe.var _ hkept]
      exact h.heads cpu hcpu
    · cases o with
      | acquire l => exact hcrit.1.elim
      | put l v =>
        obtain ⟨rfl, rfl, b, hk⟩ := hcrit
        simp only [Finishes, wp, Op.run, hk] at hfin
        obtain ⟨-, rfl, hmem, hvar⟩ := hfin
        rw [hm.of_put hq, hk]
        exact h.continue hi (.done hcall rfl hi (hord.nodup i).not_mem_erase hmade hsaid howed)
          hothers h.heads fun _ _ => ⟨hmem, hvar⟩
      | load t x off n => exact absurd trivial hplain
      | store t x off n v => exact absurd trivial hplain
      | fill t x n => exact absurd trivial hplain
      | get x => exact absurd trivial hplain
      | set x v => exact absurd trivial hplain
      | peek l => exact absurd trivial hplain

theorem Moves.not_idle {c c' : Config Struct Global Lock Check ℕ} (hm : Moves i c c') :
    (c.thread i).code ≠ none := by
  cases hm with
  | acquire hcode _ => simp [hcode]
  | release hcode => simp [hcode]
  | plain hcode _ _ => simp [hcode]
  | fault hcode _ _ => simp [hcode]
  | loop hcode => simp [hcode]
  | finish hcode => simp [hcode]

/-- A CPU that is not at the heap lock, and does not return, makes progress in its call. -/
theorem Serial.move {c : Config Struct Global Lock Check ℕ} (h : Serial p w₀ s w m owed)
    (hord : Orderly (pmmLocks p) s.config) (hm : Moves i s.config c)
    (hlock : ∀ k, (s.config.thread i).code ≠ some (.op (.acquire .heapLock) k))
    (hret : ∀ a, (s.config.thread i).code ≠ some (.ret a)) :
    Serial p w₀ { s with config := c } w m owed := by
  cases h.status i with
  | idle hcall hidle _ _ _ => exact absurd hidle hm.not_idle
  | opening hcall hq hlarge hi hway hheld hout hmade hsaid hpending =>
    exact h.move_opening hord hm hlock hcall hq hlarge hi hway hheld hout hmade hsaid hpending
  | inside hcall hq hi hin hcrit hspares hsets hfin hmade hsaid howed =>
    exact h.move_inside hord hm hcall hq hi hin hcrit hspares hsets hfin hmade hsaid howed
  | done _ hdone _ _ _ _ _ => exact absurd hdone (hret _)

/-- Live blocks at one address are the same. -/
theorem Serial.addr_inj {b c : Block} (h : Serial p w₀ s w m owed) (hb : b ∈ w.live)
    (hc : c ∈ w.live) (haddr : b.addr = c.addr) : b = c := by
  have hs := h.computes.inv.sound
  have hless := h.computes.inv.pageless h.pages
  by_contra hne
  have : Std.Symm fun b c : Block => b.region.Disj c.region := ⟨fun _ _ => Disj.symm⟩
  have hd := hs.apart.forall hb hc hne
  have hsize := b.size_pos (hs.huge b hb (hless.huge b hb)).1
  have hsize' := c.size_pos (hs.huge c hc (hless.huge c hc)).1
  unfold Disj Block.region Region.stop at hd
  simp only at hd
  omega

/-- Large calls make no pages. -/
theorem Model.pages_step {c : Call} (hpages : m.shape.pages = []) (hhuge : ∀ b ∈ m.live, b.Huge)
    (hc : c.Large) : (m.step (c.cmd i)).shape.pages = [] := by
  cases c with
  | alloc n =>
    obtain ⟨hbig, hmax⟩ := hc
    simp only [Call.cmd, Model.step, Shape.alloc, if_neg (not_le.mpr hbig), if_pos hmax,
      Shape.allocHuge]
    cases highest (roundSize n) m.shape.free with
    | none => exact hpages
    | some r => exact hpages
  | free ptr =>
    simp only [Call.cmd, Model.step]
    cases hfind : m.live.find? fun b => decide (b.addr = ptr) with
    | none => exact hpages
    | some b =>
      have hb := hhuge b (List.mem_of_find?_eq_some hfind)
      simp only [Shape.release, if_pos hb]
      exact hpages

/-- A call that takes the heap lock is safe. -/
theorem Serial.safe {c : Call} (h : Serial p w₀ s w m owed) (hi : i < p.cpuCount)
    (hroom : ∀ n, c = .alloc n → HeaderFits w.st n) (hc : c.Large) (hpending : c.Pending o)
    (howed : ∀ b ∈ o, b ∈ w.live) : m.Safe p (c.cmd i) := by
  have hinv := h.computes.inv
  cases hpending with
  | alloc n =>
    refine ⟨hi, fun hn => absurd hc.1 (not_lt.mpr hn), fun hbig hmax => ?_⟩
    exact (headerFits_iff hinv.sound hinv.holds hbig hmax).mp (hroom n rfl)
  | free b =>
    refine ⟨hi, ?_, fun b' _ _ pg hpg => ?_⟩
    · rw [← h.computes.live]
      exact List.find?_isSome.mpr ⟨b, howed b (Multiset.mem_singleton_self b), by simp⟩
    · rw [h.pages] at hpg
      cases hpg

/-- What taking effect does to the live blocks. -/
theorem Serial.settle {c : Call} {a : ℕ} (h : Serial p w₀ s w m owed) (hpending : c.Pending o)
    (howed : ∀ b ∈ o, b ∈ w.live) (hsettles : c.Settles a w.live w'.live) :
    (w'.live : Multiset Block) + o = w.live + ↑(c.returned a []) ∧
      ∀ b ∈ w'.live, b ∉ (c.returned a [] : Multiset Block) → b ∈ w.live ∧ c ≠ .free b.addr := by
  cases hpending with
  | alloc n =>
    have hlive : w'.live = Call.returned a w.live (.alloc n) := hsettles
    rw [hlive]
    refine ⟨by rw [Call.returned_coe, add_zero], fun b hb hnew => ⟨?_, Call.noConfusion⟩⟩
    rw [← Multiset.mem_coe, Call.returned_coe, Multiset.mem_add] at hb
    exact hb.resolve_right hnew
  | free b =>
    obtain ⟨d, hd, haddr, hlive⟩ := hsettles
    have hb := howed b (Multiset.mem_singleton_self b)
    obtain rfl := h.addr_inj hd hb haddr
    rw [hlive]
    constructor
    · rw [← Multiset.coe_erase, Multiset.add_comm, Multiset.singleton_add,
        Multiset.cons_erase (Multiset.mem_coe.mpr hb)]
      exact (add_zero _).symm
    · intro e he _
      refine ⟨List.mem_of_mem_erase he, fun heq => ?_⟩
      obtain rfl := h.addr_inj hd (List.mem_of_mem_erase he) (Call.free.inj heq)
      exact h.nodup.not_mem_erase he

/-- A CPU at the heap lock. -/
theorem Status.of_acquire {c : Call} {k : ℕ → Code ℕ}
    (h : Status p i u w (some c) t made order given said o)
    (hat : t.code = some (.op (.acquire .heapLock) k)) (hout : .heapLock ∉ t.held) :
    i < p.cpuCount ∧ c.Large ∧ c.underLock = .op (.acquire .heapLock) k ∧
      made = order ++ [c.cmd i] ∧ said = given ∧ c.Pending o := by
  cases h with
  | idle hcall _ _ _ _ => cases hcall
  | opening hcall hcode hlarge hi hway _ _ hmade hsaid hpending =>
    cases hcall
    rw [hat] at hcode
    have hat := (Option.some.inj hcode).symm
    refine ⟨hi, hlarge, ?_, hmade, hsaid, hpending⟩
    cases hway with
    | here => exact hat
    | acquire _ => cases hat
    | peek _ => cases hat
    | put _ => cases hat
    | get _ _ => cases hat
  | inside _ _ _ hin _ _ _ _ _ _ _ => exact absurd hin hout
  | done _ hcode _ _ _ _ _ =>
    rw [hat] at hcode
    cases hcode

/-- A CPU takes the heap lock: its call has taken effect. -/
theorem Serial.enter {c : Call} {k : ℕ → Code ℕ} (h : Serial p w₀ s w m owed)
    (hord : Orderly (pmmLocks p) s.config) (hroom : ∀ n, c = .alloc n → HeaderFits s.config.store n)
    (hcall : s.call i = some c)
    (hcode : (s.config.thread i).code = some (.op (.acquire .heapLock) k))
    (hfree : s.config.store.lock .heapLock = 0) :
    ∃ w' o, Serial p w₀ (s.enter i c (k 0)) w' (m.step (c.cmd i)) (Function.update owed i o) := by
  have hnobody : ∀ j, .heapLock ∉ (s.config.thread j).held := by
    obtain ⟨-, hnone⟩ | ⟨hone, -⟩ := hord.word .heapLock trivial
    · exact hnone
    · rw [hfree] at hone
      cases hone
  obtain ⟨hmem, hvar⟩ := h.same hnobody
  have hstatus := h.status i
  rw [hcall] at hstatus
  obtain ⟨hi, hlarge, hk, hmade, hsaid, hpending⟩ := hstatus.of_acquire hcode (hnobody i)
  have howed : ∀ b ∈ owed i, b ∈ w.live := by
    intro b hb
    rw [← Multiset.mem_coe, h.blocks]
    exact Multiset.mem_add.mpr (.inr (Multiset.mem_sum.mpr ⟨i, Finset.mem_range.mpr hi, hb⟩))
  have hsafe := h.safe hi (fun n hn => ?_) hlarge hpending howed
  · obtain ⟨k', hk', hcrit⟩ := c.exists_section
    obtain rfl : k = k' := by
      rw [hk] at hk'
      cases hk'
      rfl
    obtain ⟨F, a, w', hexec, hcomp, hanswer, hsettles, hspares, hsets, hfin⟩ :=
      h.computes.section h.pages hlarge hsafe hk hcrit
    obtain ⟨hblocks, hkept⟩ := h.settle hpending howed hsettles
    refine ⟨w', ↑(c.returned a []), h.advance hi (fun _ _ => rfl)
      (fun j hj => Session.enter_other hj) (fun _ _ => rfl) (fun j hj => callsOf_other hj)
      (fun _ _ => rfl) (fun j hj => ?_) (h.run.append (.cons trivial hexec .nil)) hcomp
      ?_ ?_ ?_ ?_ h.heads fun hfree => ?_⟩
    · change answersOf p j w₀ (s.order ++ [c.cmd i]) = _
      rw [answersOf_snoc h.run hexec, answer_other hj, Option.toList_none, List.append_nil]
    · apply Model.pages_step h.pages _ hlarge
      rw [← h.computes.live]
      exact (h.computes.inv.pageless h.pages).huge
    · intro j hj call made order given said hstatus
      exact hstatus.outside (hnobody j)
    · refine .inside hcall (congrArg Thread.code Session.enter_self) hi ?_ hcrit
        (fun b hb hnew => ?_) hsets (hfin.locks hmem hvar (by simp [Session.enter])) ?_ ?_ rfl
      · rw [Session.enter_self]
        exact List.mem_cons_self
      · exact hspares b (hkept b hb hnew).1 (hkept b hb hnew).2
      · change _ = callsOf i (s.order ++ [c.cmd i])
        rw [callsOf_self]
        exact hmade
      · change answersOf p i w₀ (s.order ++ [c.cmd i]) = _
        rw [answersOf_snoc h.run hexec, answer_self, hanswer, hsaid]
        rfl
    · change _ = (w.live : Multiset Block) + s.live + _
      rw [add_right_comm, hblocks]
      ac_rfl
    · have hself := hfree i
      rw [Session.enter_self] at hself
      exact absurd List.mem_cons_self hself
  · have hfits := hroom n hn
    unfold HeaderFits HighestNode freeNodes at hfits ⊢
    rwa [hmem, hvar] at hfits

/-- A run of the calls one at a time that goes with the session. -/
def Serialized (p : Platform) (s : Session) : Prop :=
  ∃ w₀ w m owed, Booted p w₀ ∧ Serial p w₀ s w m owed

theorem serialized_init (hlen : (headerBytes : ℤ) ≤ p.recorded) (h : (sessions p).init s) :
    Serialized p s := by
  obtain ⟨hboot, hidle, hcall, hlive, hmade, horder, hgiven⟩ := h
  refine ⟨⟨s.config.store, []⟩, ⟨s.config.store, []⟩, Model.boot p, fun _ => 0, hboot, ?_,
    Computes.booted hlen hboot, rfl, fun i => ?_, ?_, fun _ _ => rfl, hboot.fresh.1.pages,
    fun _ => ⟨rfl, rfl⟩⟩
  · rw [horder]
    exact .nil
  · refine .idle (hcall i) (by rw [hidle]) ?_ ?_ rfl
    · rw [hmade, horder]
    · rw [horder, hgiven i, answersOf]
  · rw [hlive]
    simp

/-- Every step of a session goes with a step of the run, or none. -/
theorem Serialized.step {e : SessionEvent} (h : Serialized p s)
    (hord : Orderly (pmmLocks p) s.config) (hC : RoomAtEntry s e) (hstep : SessionStep p s e s') :
    Serialized p s' := by
  obtain ⟨w₀, w, m, owed, hboot, hserial⟩ := h
  cases hstep with
  | alloc hi hidle hbig hmax =>
    exact ⟨w₀, w, m, _, hboot, hserial.start hord hi hidle ⟨hbig, hmax⟩ (.alloc _) (by simp)⟩
  | @free i b hi hidle hb =>
    have hpos := hserial.computes.inv.sound.addr_pos (hserial.mem_live hb)
    refine ⟨w₀, w, m, _, hboot, hserial.start hord hi hidle hpos.ne' (.free b) ?_⟩
    rw [← Multiset.coe_erase, Multiset.add_comm, Multiset.singleton_add,
      Multiset.cons_erase (Multiset.mem_coe.mpr hb)]
  | enter hcall hcode hfree =>
    obtain ⟨w', o, hnext⟩ := hserial.enter hord (fun n hn => hC n (hn ▸ hcall)) hcall hcode hfree
    exact ⟨w₀, w', _, _, hboot, hnext⟩
  | move hm hlock hret => exact ⟨w₀, w, m, owed, hboot, hserial.move hord hm hlock hret⟩
  | finish hcall hret => exact ⟨w₀, w, m, _, hboot, hserial.finish hcall hret⟩
  | spin hw => exact ⟨w₀, w, m, owed, hboot, hserial.spin hord hw⟩
  | write hb haddr =>
    obtain ⟨w', hnext⟩ := hserial.write hb haddr
    exact ⟨w₀, w', m, owed, hboot, hnext⟩

theorem serialized_of_reach (hlen : (headerBytes : ℤ) ≤ p.recorded)
    (h : (sessions p).Reach RoomAtEntry s) : Serialized p s :=
  h.invariant (fun _ hinit => serialized_init hlen hinit) fun _ _ _ hr hs hC hstep =>
    hs.step (orderly_reached (config_reached hr)) hC hstep

end Steps

/-- `w` is where the calls lead from `w₀` when they are made one at a time, in the order in which
they took the heap lock. A CPU has been answered what its calls return there, in its own order;
one in no call has taken part with all of them, and one that is about to return has, with the
answer that it is about to give. The callers own blocks of `w`, and when no CPU is in a call
they own all, and the heap is that of `w`. -/
structure SameEffect (p : Platform) (s : Session) (w₀ w : World) : Prop where
  booted : Booted p w₀
  run : (allocator p).Trace (fun _ _ => True) w₀ s.order w
  calls : ∀ i, callsOf i s.order <+: callsOf i s.made
  answers : ∀ i, s.answers i <+: answersOf p i w₀ s.order
  idle : ∀ i, (s.config.thread i).code = none → callsOf i s.order = callsOf i s.made ∧
    answersOf p i w₀ s.order = s.answers i
  pending : ∀ i a, (s.config.thread i).code = some (.ret a) →
    callsOf i s.order = callsOf i s.made ∧ answersOf p i w₀ s.order = s.answers i ++ [a]
  blocks : ∀ b ∈ s.live, b ∈ w.live
  granted : ∀ i a n, (s.config.thread i).code = some (.ret a) → s.call i = some (.alloc n) →
    a ≠ 0 → ⟨a, n⟩ ∈ w.live
  quiet : (∀ i, (s.config.thread i).code = none) → s.live.Perm w.live ∧
    s.config.store.mem = w.st.mem ∧ s.config.store.var = w.st.var

/-- The operation reads or writes the byte at `x`. -/
def Op.Touches (x : ℕ) : Op Struct Global Lock → Prop
  | .load _ p off n => p + off ≤ x ∧ x < p + off + n
  | .store _ p off n _ => p + off ≤ x ∧ x < p + off + n
  | .fill _ p n => p ≤ x ∧ x < p + n
  | _ => False

/-- The blocks of the callers are apart and in the heap, no CPU fails in a call or is about
to touch such a block, and while CPUs are in calls one of them makes progress. -/
structure Isolated (p : Platform) (s : Session) : Prop where
  apart : s.live.Pairwise fun b c => b.region.Disj c.region
  inside : ∀ b ∈ s.live, p.heapStart ≤ b.addr ∧ b.addr + b.size ≤ p.heapEnd
  running : ∀ i f, (s.config.thread i).code ≠ some (.fail f)
  untouched : ∀ i o k, (s.config.thread i).code = some (.op o k) → ∀ b ∈ s.live, ∀ x,
    b.region.Contains x → ¬ o.Touches x
  progress : ∀ i, (s.config.thread i).code ≠ none → ∃ j c, Moves j s.config c

section Results

variable {p : Platform} {s : Session} {w : World} {m : Model} {owed : ℕ → Multiset Block} {i : ℕ}

/-- In every interleaving of large calls and of writes of owners, the calls have the effect
that they have one at a time, as long as each finds room for its header when it takes the
heap lock. -/
theorem large_calls_linearizable (hlen : (headerBytes : ℤ) ≤ p.recorded)
    (h : (sessions p).Reach RoomAtEntry s) : ∃ w₀ w, SameEffect p s w₀ w := by
  obtain ⟨w₀, w, m, owed, hboot, hserial⟩ := serialized_of_reach hlen h
  refine ⟨w₀, w, hboot, hserial.run, fun i => (hserial.status i).order_grows,
    fun i => (hserial.status i).given_grows, fun i hidle => ?_, fun i a hret => ?_,
    fun b hb => hserial.mem_live hb, fun i a n hret hcall ha => ?_, fun hidle => ?_⟩
  · obtain ⟨hmade, hsaid, -⟩ := (hserial.status i).of_idle hidle
    exact ⟨hmade.symm, hsaid⟩
  · obtain ⟨c, -, -, hmade, hsaid, -⟩ := (hserial.status i).of_ret hret
    exact ⟨hmade.symm, hsaid⟩
  · obtain ⟨c, hcall', hi, -, -, howed⟩ := (hserial.status i).of_ret hret
    obtain rfl : Call.alloc n = c := Option.some.inj (hcall.symm.trans hcall')
    rw [← Multiset.mem_coe, hserial.blocks]
    refine Multiset.mem_add.mpr (.inr (Multiset.mem_sum.mpr ⟨i, Finset.mem_range.mpr hi, ?_⟩))
    rw [howed, Call.returned, if_neg ha]
    exact Multiset.mem_coe.mpr List.mem_cons_self
  · have hnothing : ∑ i ∈ Finset.range p.cpuCount, owed i = 0 :=
      Finset.sum_eq_zero fun i _ => ((hserial.status i).of_idle (hidle i)).2.2
    have hblocks := hserial.blocks
    rw [hnothing, add_zero] at hblocks
    have hord := orderly_reached (config_reached h)
    refine ⟨(Multiset.coe_eq_coe.mp hblocks).symm, hserial.same fun i => ?_⟩
    rw [hord.idle i (hidle i)]
    exact List.not_mem_nil

/-- A CPU goes on in the section that it is in. -/
theorem reach_section {n : ℕ} {q q' : Code ℕ} {u : PmmState} {held held' : List Lock}
    (h : (sessions p).Reach RoomAtEntry s) (hthread : s.config.thread i = ⟨some q, held⟩)
    (hcrit : Critical .heapLock q)
    (hadv : advance n (q, s.config.store, held) = some (q', u, held')) :
    (sessions p).Reach RoomAtEntry { s with config := s.config.update i u ⟨some q', held'⟩ } := by
  induction n generalizing s q held with
  | zero =>
    cases hadv
    rwa [← hthread, Config.update, Function.update_eq_self]
  | succ n ih =>
    cases q with
    | ret a => cases hadv
    | fail f => cases hadv
    | op o k =>
      have hcode : (s.config.thread i).code = some (.op o k) := by rw [hthread]
      have hheld : (s.config.thread i).held = held := by rw [hthread]
      have hret : ∀ a, (s.config.thread i).code ≠ some (.ret a) := by simp [hcode]
      have hroom : RoomAtEntry s (.move i) := trivial
      by_cases hplain : o.Plain
      · obtain ⟨v, t, hr, hrest⟩ := advance_plain hplain hadv
        have hlock : ∀ k', (s.config.thread i).code ≠ some (.op (.acquire .heapLock) k') := by
          intro k' hk'
          rw [hcode] at hk'
          cases hk'
          exact hplain
        have hstep := h.step _ hroom (.move (.plain hcode hplain hr) hlock hret)
        have hnext := ih hstep (Config.update_self _ _ _) (hcrit.next hplain v) (hheld ▸ hrest)
        rwa [Config.update_update] at hnext
      · cases o with
        | acquire l => exact hcrit.1.elim
        | put l v =>
          obtain ⟨rfl, rfl, a, hk⟩ := hcrit
          rw [advance, hk] at hadv
          cases n with
          | succ n => cases hadv
          | zero =>
            cases hadv
            have hstep := h.step _ hroom (.move (.release hcode) (by simp [hcode]) hret)
            rwa [hk, hheld] at hstep
        | load t x off n => exact absurd trivial hplain
        | store t x off n v => exact absurd trivial hplain
        | fill t x n => exact absurd trivial hplain
        | get x => exact absurd trivial hplain
        | set x v => exact absurd trivial hplain
        | peek l => exact absurd trivial hplain

end Results

section Examples

/-- What is left behind the first operation, when that answers 0. -/
def behind : Code ℕ → Code ℕ
  | .op _ k => k 0
  | q => q

/-- The answer of a call that returns. -/
def answerGiven : Code ℕ → Option ℕ
  | .ret a => some a
  | _ => none

theorem answerGiven_some {q : Code ℕ} {a : ℕ} (h : answerGiven q = some a) : q = .ret a := by
  cases q with
  | ret b =>
    cases h
    rfl
  | fail f => cases h
  | op o k => cases h

/-- CPU 0 gets a block while CPU 1 waits for the heap lock; CPU 1 takes it, is about to return,
and returns. -/
theorem exists_two_calls : ∃ s t u : Session, ((sessions halfMega).Reach RoomAtEntry s ∧
      (sessions halfMega).Reach RoomAtEntry t ∧ (sessions halfMega).Reach RoomAtEntry u) ∧
    (s.live = [⟨0x178000, 20000⟩] ∧ .heapLock ∈ (s.config.thread 1).held) ∧
    (t.answers 0 = [0x178000] ∧ t.answers 1 = [] ∧ (t.config.thread 0).code = none ∧
      (t.config.thread 1).code = some (.ret 0x167ff0)) ∧
    u.live = [⟨0x167ff0, 40000⟩, ⟨0x178000, 20000⟩] ∧ ∀ i, (u.config.thread i).code = none := by
  have hrun : ((runFrom halfMega (fun _ _ => True) blank []).bind fun w =>
      (advance 9 (behind (kallocHugeMemory (roundSize 20000)), w.st.setLock .heapLock 1,
        [.heapLock])).bind fun x =>
      (advance 9 (behind (kallocHugeMemory (roundSize 40000)), x.2.1.setLock .heapLock 1,
        [.heapLock])).map fun y =>
      decide ((HeaderFits w.st 20000 ∧ HeaderFits x.2.1 40000 ∧ x.2.1.lock .heapLock = 0) ∧
        (answerGiven x.1 = some 0x178000 ∧ x.2.2 = []) ∧
        answerGiven y.1 = some 0x167ff0 ∧ y.2.2 = [])) = some true := by decide +kernel
  obtain ⟨w, hw, hx⟩ := Option.bind_eq_some_iff.mp hrun
  obtain ⟨⟨q, u, held⟩, hadv, hy⟩ := Option.bind_eq_some_iff.mp hx
  obtain ⟨⟨q', u', held'⟩, hadv', hfacts⟩ := Option.map_eq_some_iff.mp hy
  obtain ⟨⟨hfits, hfits', hfree⟩, ⟨hanswer, hheld⟩, hanswer', hheld'⟩ := of_decide_eq_true hfacts
  obtain rfl : q = .ret 0x178000 := answerGiven_some hanswer
  obtain rfl : held = [] := hheld
  obtain rfl : q' = .ret 0x167ff0 := answerGiven_some hanswer'
  obtain rfl : held' = [] := hheld'
  obtain ⟨w₀, hboot, htrace⟩ := trace_of_runFrom hw
  cases htrace
  have hboot : Booted halfMega ⟨w.st, []⟩ := by
    rw [← hboot.fresh.2]
    exact hboot
  obtain ⟨k, hk, hcrit⟩ := exists_alloc_section (roundSize 20000)
  obtain ⟨k', hk', hcrit'⟩ := exists_alloc_section (roundSize 40000)
  rw [hk] at hadv
  rw [hk'] at hadv'
  have hcall : kalloc halfMega 0 20000 = .op (.acquire .heapLock) k :=
    (kalloc_huge (by decide) (by decide)).trans hk
  have hcall' : kalloc halfMega 1 40000 = .op (.acquire .heapLock) k' :=
    (kalloc_huge (by decide) (by decide)).trans hk'
  -- both call, CPU 0 is first
  let s₀ : Session := ⟨⟨w.st, fun _ => ⟨none, []⟩⟩, fun _ => none, [], [], [], fun _ => []⟩
  let s₁ := s₀.start halfMega 0 (.alloc 20000) []
  let s₂ := s₁.start halfMega 1 (.alloc 40000) []
  let s₃ := s₂.enter 0 (.alloc 20000) (k 0)
  let s₄ : Session := { s₃ with config := s₃.config.update 0 u ⟨some (.ret 0x178000), []⟩ }
  let s₅ := s₄.finish 0 (.alloc 20000) 0x178000
  let s₆ := s₅.enter 1 (.alloc 40000) (k' 0)
  let s₇ : Session := { s₆ with config := s₆.config.update 1 u' ⟨some (.ret 0x167ff0), []⟩ }
  let s₈ := s₇.finish 1 (.alloc 40000) 0x167ff0
  have h₀ : (sessions halfMega).Reach RoomAtEntry s₀ :=
    .init ⟨hboot, fun _ => rfl, fun _ => rfl, rfl, rfl, rfl, fun _ => rfl⟩
  have h₁ : (sessions halfMega).Reach RoomAtEntry s₁ :=
    h₀.step (.call 0 (.alloc 20000)) trivial (.alloc (by decide) rfl (by decide) (by decide))
  have h₂ : (sessions halfMega).Reach RoomAtEntry s₂ :=
    h₁.step (.call 1 (.alloc 40000)) trivial (.alloc (by decide) rfl (by decide) (by decide))
  have h₃ : (sessions halfMega).Reach RoomAtEntry s₃ := by
    refine h₂.step (.enter 0) (fun n hn => ?_)
      (.enter rfl (congrArg some hcall) hboot.fresh.1.unlocked.1)
    cases hn
    exact hfits
  have h₄ : (sessions halfMega).Reach RoomAtEntry s₄ := reach_section h₃ rfl hcrit hadv
  have h₅ : (sessions halfMega).Reach RoomAtEntry s₅ :=
    h₄.step (.finish 0) trivial (.finish rfl rfl)
  have h₆ : (sessions halfMega).Reach RoomAtEntry s₆ := by
    refine h₅.step (.enter 1) (fun n hn => ?_) (.enter rfl (congrArg some hcall') hfree)
    cases hn
    exact hfits'
  have h₇ : (sessions halfMega).Reach RoomAtEntry s₇ := reach_section h₆ rfl hcrit' hadv'
  have h₈ : (sessions halfMega).Reach RoomAtEntry s₈ :=
    h₇.step (.finish 1) trivial (.finish rfl rfl)
  refine ⟨s₆, s₇, s₈, ⟨h₆, h₇, h₈⟩, ⟨rfl, ?_⟩, ⟨rfl, rfl, rfl, rfl⟩, rfl, fun i => ?_⟩
  · exact List.mem_cons_self
  · -- CPU 1 and CPU 0 have returned, the others have made no call
    by_cases h1 : i = 1
    · subst h1
      rfl
    · by_cases h0 : i = 0
      · subst h0
        rfl
      · simp [s₈, s₇, s₆, s₅, s₄, s₃, s₂, s₁, s₀, Session.finish, Session.enter, Session.start,
          Config.update, h0, h1]

/-- One state with an answer that is about to be given, and one with no call under way. -/
theorem large_calls_linearizable_entered : ∃ (t u : Session) (w₀ w w₀' w' : World),
    ((t.config.thread 1).code = some (.ret 0x167ff0) ∧ SameEffect halfMega t w₀ w ∧
      answersOf halfMega 0 w₀ t.order = [0x178000] ∧
      answersOf halfMega 1 w₀ t.order = [0x167ff0]) ∧
    (∀ i, (u.config.thread i).code = none) ∧ SameEffect halfMega u w₀' w' ∧
      w'.live.length = 2 := by
  obtain ⟨s, t, u, ⟨-, ht, hu⟩, -, ⟨hgiven, hnone, hidle, hret⟩, hlive, hquiet⟩ :=
    exists_two_calls
  obtain ⟨w₀, w, hsame⟩ := large_calls_linearizable (by decide) ht
  obtain ⟨w₀', w', hsame'⟩ := large_calls_linearizable (by decide) hu
  refine ⟨t, u, w₀, w, w₀', w', ⟨hret, hsame, ?_, ?_⟩, hquiet, hsame', ?_⟩
  · rw [(hsame.idle 0 hidle).2, hgiven]
  · rw [(hsame.pending 1 _ hret).2, hnone]
    rfl
  · rw [← (hsame'.quiet hquiet).1.length_eq, hlive]
    rfl

end Examples

section Results

variable {p : Platform} {s : Session} {w₀ w : World} {m : Model} {owed : ℕ → Multiset Block} {i : ℕ}

/-- No CPU fails. -/
theorem Serial.running (h : Serial p w₀ s w m owed) (i : ℕ) (f : Fault Check) :
    (s.config.thread i).code ≠ some (.fail f) := by
  intro hfail
  cases h.status i with
  | idle _ hcode _ _ _ => rw [hfail] at hcode; cases hcode
  | @opening c q holds _ hcode _ _ hway _ _ _ _ _ =>
    rw [hfail] at hcode
    cases hcode
    obtain ⟨k, hk, -⟩ := c.exists_section
    rw [hk] at hway
    cases hway
  | inside _ hcode _ _ _ _ _ hfin _ _ _ =>
    rw [hfail] at hcode
    cases hcode
    exact hfin.elim
  | done _ hcode _ _ _ _ _ => rw [hfail] at hcode; cases hcode

/-- What a CPU is about to do touches no block of a caller. -/
theorem Serial.untouched {o : Op Struct Global Lock} {k : ℕ → Code ℕ} {b : Block} {x : ℕ}
    (h : Serial p w₀ s w m owed) (hop : (s.config.thread i).code = some (.op o k)) (hb : b ∈ s.live)
    (hx : b.region.Contains x) : ¬ o.Touches x := by
  cases h.status i with
  | idle _ hcode _ _ _ => rw [hop] at hcode; cases hcode
  | @opening c q holds _ hcode _ _ hway _ _ _ _ _ =>
    -- only locks and variables on the way to the heap lock
    rw [hop] at hcode
    cases hcode
    obtain ⟨k, hk, -⟩ := c.exists_section
    rw [hk] at hway
    cases hway <;> exact id
  | inside _ hcode _ _ _ hspares _ hfin _ _ _ =>
    rw [hop] at hcode
    cases hcode
    obtain ⟨hr, hw⟩ := hspares b (h.mem_live hb) (h.not_owed hb i) x hx
    have ho := hfin.next.1
    cases o with
    | load t q off n => exact fun ht => hr (ho.2 x ht.1 ht.2)
    | store t q off n v => exact fun ht => hw (ho.2 x ht.1 ht.2)
    | fill t q n => exact fun ht => hw (ho.2 x ht.1 ht.2)
    | get y => exact id
    | set y v => exact id
    | acquire l => exact id
    | peek l => exact id
    | put l v => exact id
  | done _ hcode _ _ _ _ _ => rw [hop] at hcode; cases hcode

/-- In every such interleaving the blocks of the callers are apart, the calls leave them
alone, and no CPU fails or stops the others for good. -/
theorem large_blocks_isolated (hlen : (headerBytes : ℤ) ≤ p.recorded)
    (h : (sessions p).Reach RoomAtEntry s) : Isolated p s := by
  obtain ⟨w₀, w, m, owed, -, hserial⟩ := serialized_of_reach hlen h
  have hs := hserial.computes.inv.sound
  have hord := orderly_reached (config_reached h)
  have hless := hserial.computes.inv.pageless hserial.pages
  refine ⟨?_, fun b hb => ?_, hserial.running, fun i o k hop b hb x hx =>
    hserial.untouched hop hb hx, fun i hcode => ?_⟩
  · have hle : (s.live : Multiset Block) ≤ w.live := by
      rw [hserial.blocks]
      exact Multiset.le_add_right _ _
    have hnodup : s.live.Nodup :=
      Multiset.coe_nodup.mp (Multiset.nodup_of_le hle (Multiset.coe_nodup.mpr hserial.nodup))
    have : Std.Symm fun b c : Block => b.region.Disj c.region := ⟨fun _ _ => Disj.symm⟩
    refine hnodup.pairwise_of_forall_ne fun b hb c hc hne => ?_
    exact hs.apart.forall (hserial.mem_live hb) (hserial.mem_live hc) hne
  · have hbw := hserial.mem_live hb
    obtain ⟨-, hlo, hhi⟩ := hs.huge b hbw (hless.huge b hbw)
    have := p.limit_le
    unfold headerBytes at hlo
    omega
  · obtain ⟨q, hq⟩ := Option.ne_none_iff_exists'.mp hcode
    by_cases hwait : ∃ l, Waits s.config i l
    · obtain ⟨l, hw⟩ := hwait
      obtain ⟨j, -, c, hm⟩ := (disciplined_of_orderly hord).progress
        (fun j f hf => absurd hf (hserial.running j f)) i l hw
      exact ⟨j, c, hm⟩
    · obtain ⟨c, hm⟩ := moves_of_running hq
        (fun f hf => absurd (hf ▸ hq) (hserial.running i f)) fun l hw => hwait ⟨l, hw⟩
      exact ⟨i, c, hm⟩

/-- A caller owns a block while the other CPU is behind the heap lock. -/
theorem large_blocks_isolated_entered : ∃ s : Session, s.live = [⟨0x178000, 20000⟩] ∧
    .heapLock ∈ (s.config.thread 1).held ∧ Isolated halfMega s := by
  obtain ⟨s, -, -, ⟨hs, -, -⟩, ⟨hlive, hheld⟩, -⟩ := exists_two_calls
  exact ⟨s, hlive, hheld, large_blocks_isolated (by decide) hs⟩

end Results
end KmallocKfree
