import KmallocKfree.Interplay

/-!
# CPUs that meet

`kfree` takes the lock of its caller's page list, whosever page the block lies on, and it clears
as many bytes as the header of the page says. So a CPU that gives back a block of another CPU
can work on a page at the same time as that CPU; and a header whose size has been doubled makes
`kfree` clear what lies behind the page, which may be a node of the heap. As long as the CPUs
stay apart neither happens.
-/
namespace KmallocKfree

open Prog Region Shape Sharing

namespace Interplay

/-- CPU `i` is in a section on the page at `q`: it has worked on the page under the lock of its
page list. -/
def Inside (s : Interplay) (i q : ℕ) : Prop :=
  .pagelist i ∈ (s.config.thread i).held ∧ s.met i q

/-- No two CPUs are in sections on the same page. -/
def Exclusive (s : Interplay) : Prop := ∀ i j q, s.Inside i q → s.Inside j q → i = j

/-- The nodes of the heap free list; while the heap lock is taken, those that its holder found. -/
def nodes (s : Interplay) : List (ℕ × ℤ) :=
  if s.config.store.lock .heapLock = 0 then freeNodes s.config.store else freeNodes s.entry

/-- The byte at `x` belongs to the node, to its record or to the memory that it stands for. -/
def NodeByte (node : ℕ × ℤ) (x : ℕ) : Prop :=
  node.1 ≤ x ∧ (x < node.1 + headerBytes ∨ (x : ℤ) < node.1 + node.2)

/-- Only the CPU that holds the heap lock touches the nodes of the heap free list. -/
def NodesGuarded (s : Interplay) : Prop :=
  ∀ i o k, (s.config.thread i).code = some (.op o k) → .heapLock ∉ (s.config.thread i).held →
    ∀ node ∈ s.nodes, ∀ x, NodeByte node x → ¬ o.Touches x

section Results

variable {p : Platform} {s : Interplay} {g : Ledger}

theorem Booked.exclusive (hs : s.Booked p g) : s.Exclusive := by
  rintro i j q ⟨hi, hmeti⟩ ⟨hj, hmetj⟩
  obtain ⟨pg, hpg, hbase⟩ := hs.met i q hi hmeti
  obtain ⟨pg', hpg', hbase'⟩ := hs.met j q hj hmetj
  obtain ⟨hmem, rfl⟩ := mem_pagesOf.mp hpg
  obtain ⟨hmem', rfl⟩ := mem_pagesOf.mp hpg'
  by_contra hne
  have hd := hs.kept.sound.pages_disj hmem hmem' (fun heq => hne (by rw [heq]))
  unfold Region.Disj Page.span Region.stop pageBytes at hd
  simp only at hd
  omega

/-- The nodes are those of the ledger. -/
theorem Booked.nodes_eq (hs : s.Booked p g) (hord : Orderly (pmmLocks p) s.config) :
    s.nodes = g.shape.free.map fun r => (r.start, (r.len : ℤ)) := by
  unfold nodes
  split_ifs with hfree
  · exact hs.kept.sound.freeNodes_eq (hs.kept.heap (hs.kept.released hfree))
  · obtain ⟨hzero, -⟩ | ⟨-, i, hi⟩ := hord.word .heapLock trivial
    · exact absurd hzero hfree
    · have hholder : g.holder = some i := (hs.holder i).mpr ((hi i).mpr rfl)
      refine hs.kept.sound.freeNodes_eq (hs.entry ?_)
      rw [hholder]
      exact Option.some_ne_none i

theorem Booked.nodesGuarded (hs : s.Booked p g) (hord : Orderly (pmmLocks p) s.config) :
    s.NodesGuarded := by
  intro i o k hcode hout node hnode x hx
  rw [hs.nodes_eq hord] at hnode
  obtain ⟨r, hr, rfl⟩ := List.mem_map.mp hnode
  obtain ⟨c, -, hb⟩ := hs.busy i _ hcode
  have hadmit : g.Admits i o := (hb.safe _ g hs.kept (Later.refl _ i _ _)).1
  refine hs.kept.node_untouched hadmit (fun hi => hout ((hs.holder i).mp hi)) hr ?_
  obtain ⟨hlow, hhigh⟩ := hx
  unfold Region.Contains Region.node Region.stop headerBytes at *
  simp only at *
  omega

/-- As long as the CPUs stay apart, no two of them are in sections on the same page. -/
theorem pages_exclusive (hlen : (headerBytes : ℤ) ≤ p.recorded)
    (h : (interplay p).Reach (StaysApart p) s) : s.Exclusive := by
  obtain ⟨g, hs⟩ := booked_of_reach hlen h
  exact hs.exclusive

/-- The locks are used in order in every run, and as long as the CPUs stay apart the heap lock
guards the nodes of the heap free list. -/
theorem locks_guard (p : Platform) :
    (∀ c, (pmmMachine p).Reach (fun _ _ => True) c → Disciplined c) ∧
      ((headerBytes : ℤ) ≤ p.recorded → ∀ s, (interplay p).Reach (StaysApart p) s →
        s.NodesGuarded) := by
  refine ⟨fun c hc => lock_discipline hc, fun hlen s hs => ?_⟩
  obtain ⟨g, hbooked⟩ := booked_of_reach hlen hs
  exact hbooked.nodesGuarded (orderly_reached (interplay_config hs))

end Results

end Interplay

/-- The locks of a CPU after the operation. -/
def Op.held (held : List Lock) : Op Struct Global Lock → List Lock
  | .acquire l => l :: held
  | .put l _ => held.erase l
  | _ => held

/-- When the operation takes the heap lock, the store meets `C`. -/
def Op.Meets (C : PmmState → Prop) (s : PmmState) : Op Struct Global Lock → Prop
  | .acquire .heapLock => C s
  | _ => True

instance (C : PmmState → Prop) [DecidablePred C] (s : PmmState) (o : Op Struct Global Lock) :
    Decidable (o.Meets C s) := by
  cases o with
  | acquire l =>
    cases l with
    | heapLock => exact inferInstanceAs (Decidable (C s))
    | pagelist i => exact inferInstanceAs (Decidable True)
  | _ => exact inferInstanceAs (Decidable True)

/-- `s'` is `s` but for CPU `i`, which has led to the store `t` and is at `thread` now. -/
structure Interplay.Leads (i : ℕ) (s s' : Interplay) (t : PmmState)
    (thread : Thread Struct Global Lock Check ℕ) : Prop where
  config : s'.config = s.config.update i t thread
  call : s'.call = s.call
  live : s'.live = s.live
  met : ∀ j, j ≠ i → s'.met j = s.met j

section Runs

variable {p : Platform} {s s' : Interplay} {D : Interplay → SessionEvent → Prop} {i n v a : ℕ}
  {o : Op Struct Global Lock} {k : ℕ → Code ℕ} {t t' : PmmState} {held held' : List Lock}
  {q q' : Code ℕ} {c : Call} {config : Config Struct Global Lock Check ℕ}
  {thread : Thread Struct Global Lock Check ℕ}

theorem Moves.of_run (hcode : (config.thread i).code = some (.op o k))
    (hr : (o.run config.store : Except (Fault Check) (ℕ × PmmState)) = .ok (v, t)) :
    Moves i config (config.update i t ⟨some (k v), o.held (config.thread i).held⟩) := by
  by_cases hplain : o.Plain
  · have hheld : o.held (config.thread i).held = (config.thread i).held := by
      cases o with
      | acquire l => exact hplain.elim
      | put l w => exact hplain.elim
      | _ => rfl
    rw [hheld]
    exact .plain hcode hplain hr
  · cases o with
    | acquire l =>
      simp only [Op.run] at hr
      split_ifs at hr with hfree
      cases hr
      exact .acquire hcode hfree
    | put l w =>
      cases hr
      exact .release hcode
    | load t q off n => exact absurd trivial hplain
    | store t q off n v => exact absurd trivial hplain
    | fill t q n => exact absurd trivial hplain
    | get y => exact absurd trivial hplain
    | set y v => exact absurd trivial hplain
    | peek l => exact absurd trivial hplain

namespace Interplay

theorem Leads.refl (hthread : s.config.thread i = thread) :
    Leads i s s s.config.store thread := by
  refine ⟨?_, rfl, rfl, fun _ _ => rfl⟩
  rw [← hthread, Config.update, Function.update_eq_self]

/-- One operation that does not fail. -/
theorem reach_perform (h : (interplay p).Reach D s)
    (hthread : s.config.thread i = ⟨some (.op o k), held⟩)
    (hr : (o.run s.config.store : Except (Fault Check) (ℕ × PmmState)) = .ok (v, t))
    (hmove : D s (.move i)) (henter : o = .acquire .heapLock → D s (.enter i)) :
    (interplay p).Reach D
      (s.perform p i o (s.config.update i t ⟨some (k v), o.held held⟩)) := by
  have hcode : (s.config.thread i).code = some (.op o k) := by rw [hthread]
  have hm := Moves.of_run hcode hr
  rw [show (s.config.thread i).held = held by rw [hthread]] at hm
  by_cases ho : o = .acquire .heapLock
  · subst ho
    exact h.step (.enter i) (henter rfl) (.enter hcode hm)
  · exact h.step (.move i) hmove (.move hcode ho hm)

theorem leads_perform : Leads i s (s.perform p i o (s.config.update i t thread)) t thread :=
  ⟨rfl, rfl, rfl, fun _ hj => Function.update_of_ne hj _ _⟩

theorem Leads.store (h : Leads i s s' t thread) : s'.config.store = t := by rw [h.config]; rfl

theorem Leads.self (h : Leads i s s' t thread) : s'.config.thread i = thread := by
  rw [h.config, Config.update_self]

theorem Leads.other {j : ℕ} (h : Leads i s s' t thread) (hj : j ≠ i) :
    s'.config.thread j = s.config.thread j := by
  rw [h.config, Config.update_other hj]

theorem Leads.trans {s₁ : Interplay} {t₁ : PmmState}
    {thread₁ : Thread Struct Global Lock Check ℕ} (h : Leads i s s₁ t₁ thread₁)
    (h' : Leads i s₁ s' t thread) : Leads i s s' t thread where
  config := by rw [h'.config, h.config, Config.update_update]
  call := h'.call.trans h.call
  live := h'.live.trans h.live
  met j hj := (h'.met j hj).trans (h.met j hj)

/-- Moves of one CPU until its program passes the test. None when it fails or waits before, or
takes the heap lock in a store that does not meet `C`. -/
def goUntil (C : PmmState → Prop) [DecidablePred C] (stop : Code ℕ → Bool) :
    ℕ → Code ℕ × PmmState × List Lock → Option (Code ℕ × PmmState × List Lock)
  | 0, _ => none
  | n + 1, (q, s, held) =>
      if stop q then some (q, s, held) else
      match q with
      | .op o k =>
          if o.Meets C s then
            match (o.run s : Except (Fault Check) (ℕ × PmmState)) with
            | .ok (v, s') => goUntil C stop n (k v, s', o.held held)
            | .error _ => none
          else none
      | _ => none

theorem goUntil_stop {C : PmmState → Prop} [DecidablePred C] {stop : Code ℕ → Bool}
    (hrun : goUntil C stop n (q, t, held) = some (q', t', held')) : stop q' = true := by
  induction n generalizing q t held with
  | zero => cases hrun
  | succ n ih =>
    unfold goUntil at hrun
    split_ifs at hrun with hstop
    · cases hrun
      exact hstop
    · cases q with
      | ret a => cases hrun
      | fail f => cases hrun
      | op o k =>
        simp only at hrun
        split_ifs at hrun with hmeets
        cases hr : (o.run t : Except (Fault Check) (ℕ × PmmState)) with
        | error f =>
          rw [hr] at hrun
          cases hrun
        | ok r =>
          rw [hr] at hrun
          exact ih hrun

/-- Moves that can be computed are moves of the machine. -/
theorem reach_goUntil {C : PmmState → Prop} [DecidablePred C] {stop : Code ℕ → Bool}
    (hmove : ∀ s, D s (.move i))
    (henter : ∀ s, s.call i = some c → C s.config.store → D s (.enter i))
    (h : (interplay p).Reach D s) (hthread : s.config.thread i = ⟨some q, held⟩)
    (hcall : s.call i = some c)
    (hrun : goUntil C stop n (q, s.config.store, held) = some (q', t, held')) :
    ∃ s', (interplay p).Reach D s' ∧ Leads i s s' t ⟨some q', held'⟩ := by
  induction n generalizing s q held with
  | zero => cases hrun
  | succ n ih =>
    unfold goUntil at hrun
    split_ifs at hrun with hstop
    · cases hrun
      exact ⟨s, h, .refl hthread⟩
    · cases q with
      | ret a => cases hrun
      | fail f => cases hrun
      | op o k =>
        simp only at hrun
        split_ifs at hrun with hmeets
        cases hr : (o.run s.config.store : Except (Fault Check) (ℕ × PmmState)) with
        | error f =>
          rw [hr] at hrun
          cases hrun
        | ok r =>
          rw [hr] at hrun
          have hnext := reach_perform h hthread hr (hmove s) fun ho => by
            subst ho
            exact henter s hcall hmeets
          obtain ⟨s', hs', hleads⟩ := ih hnext (Config.update_self _ _ _) hcall hrun
          exact ⟨s', hs', leads_perform.trans hleads⟩

/-- A program that does not fail when it runs alone. -/
theorem reach_exec (hD : ∀ s e, D s e) (h : (interplay p).Reach D s)
    (hthread : s.config.thread i = ⟨some q, held⟩)
    (hexec : exec q s.config.store = .ok (a, t)) :
    ∃ s' held', (interplay p).Reach D s' ∧ Leads i s s' t ⟨some (.ret a), held'⟩ := by
  induction q generalizing s held with
  | ret b =>
    cases hexec
    exact ⟨s, held, h, .refl hthread⟩
  | fail f => cases hexec
  | op o k ih =>
    simp only [exec] at hexec
    cases hr : (o.run s.config.store : Except (Fault Check) (ℕ × PmmState)) with
    | error f =>
      rw [hr] at hexec
      cases hexec
    | ok r =>
      rw [hr] at hexec
      have hnext := reach_perform h hthread hr (hD _ _) fun _ => hD _ _
      obtain ⟨s', held', hs', hleads⟩ := ih r.1 hnext (Config.update_self _ _ _) hexec
      exact ⟨s', held', hs', leads_perform.trans hleads⟩

/-- The call of a CPU returns, and no CPU is in a call. -/
theorem reach_return (hfinish : ∀ s, D s (.finish i)) {live : List Block}
    (hidle : ∀ j, s.config.thread j = ⟨none, []⟩) (h : (interplay p).Reach D s')
    (hleads : Leads i (s.start p i c live) s' t ⟨some (.ret a), held⟩) :
    ∃ u, (interplay p).Reach D u ∧ u.config = ⟨t, fun _ => ⟨none, []⟩⟩ ∧
      u.live = c.returned a live := by
  have hthread := hleads.self
  have hcode : (s'.config.thread i).code = some (.ret a) := by rw [hthread]
  have hcall : s'.call i = some c := by
    rw [hleads.call]
    exact Function.update_self _ _ _
  obtain rfl : held = [] := by
    have hret := (lock_discipline (interplay_config h)).released i a hcode
    rwa [hthread] at hret
  refine ⟨_, h.step _ (hfinish _) (.finish hcall hcode), ?_, ?_⟩
  · have hconfig : s'.config = s.config.update i t ⟨some (.ret a), []⟩ :=
      hleads.config.trans (Config.update_update _ _ _ _)
    change s'.config.update i s'.config.store ⟨none, (s'.config.thread i).held⟩ = _
    rw [hthread, hconfig, Config.update_update]
    refine congrArg (Config.mk t) (funext fun j => ?_)
    by_cases hj : j = i
    · rw [hj, Function.update_self]
    · rw [Function.update_of_ne hj, hidle]
  · change c.returned a s'.live = c.returned a live
    rw [hleads.live]
    rfl

/-- A call by one CPU while the others are in none. -/
theorem reach_alone (hD : ∀ s e, D s e) (h : (interplay p).Reach D s)
    (hidle : ∀ j, s.config.thread j = ⟨none, []⟩) {live : List Block}
    (hstart : (interplay p).step s (.call i c) (s.start p i c live))
    (hexec : exec (c.run p i) s.config.store = .ok (a, t)) :
    ∃ s', (interplay p).Reach D s' ∧ s'.config = ⟨t, fun _ => ⟨none, []⟩⟩ ∧
      s'.live = c.returned a live := by
  have hstarted := h.step _ (hD _ _) hstart
  obtain ⟨s', held, hs', hleads⟩ := reach_exec hD hstarted (Config.update_self _ _ _) hexec
  exact reach_return (fun _ => hD _ _) hidle hs' hleads

theorem reach_boot {w : World} (h : Booted p w) : ∃ s, (interplay p).Reach D s ∧
    s.config = ⟨w.st, fun _ => ⟨none, []⟩⟩ ∧ s.live = w.live := by
  have hlive := h.fresh.2
  let s : Interplay := ⟨⟨w.st, fun _ => ⟨none, []⟩⟩, fun _ => none, [], w.st, fun _ _ => False⟩
  refine ⟨s, .init ⟨?_, fun _ => rfl, rfl, fun _ _ => id⟩, rfl, hlive.symm⟩
  rwa [← hlive]

/-- Every run of calls one at a time is a run of the machine. -/
theorem reach_of_allocator {C : World → Cmd → Prop} {w : World} (h : (allocator p).Reach C w) :
    ∃ s, (interplay p).Reach (fun _ _ => True) s ∧ s.config = ⟨w.st, fun _ => ⟨none, []⟩⟩ ∧
      s.live = w.live := by
  induction h with
  | init h => exact reach_boot h
  | @step w w' cmd _ _ hstep ih =>
    obtain ⟨s, hs, hconfig, hlive⟩ := ih
    have hidle : ∀ j, s.config.thread j = ⟨none, []⟩ := fun j => by rw [hconfig]
    have hcode : ∀ j, (s.config.thread j).code = none := fun j => by rw [hidle]
    have hstore : s.config.store = w.st := by rw [hconfig]
    cases cmd with
    | alloc cpu n =>
      obtain ⟨hcpu, a, t, hexec, rfl⟩ := exec_alloc_some hstep
      rw [← hstore] at hexec
      obtain ⟨s', hs', hconfig', hlive'⟩ :=
        reach_alone (fun _ _ => trivial) hs hidle (.alloc hcpu (hcode cpu)) hexec
      exact ⟨s', hs', hconfig', by rw [hlive', hlive]; rfl⟩
    | free cpu ptr =>
      obtain ⟨hcpu, b, t, hb, rfl, hexec, rfl⟩ := exec_free_some hstep
      rw [← hstore] at hexec
      have hrun : exec ((Call.free b.addr).run p cpu) s.config.store = .ok (0, t) :=
        (exec_bind _ _).trans (by rw [hexec]; rfl)
      obtain ⟨s', hs', hconfig', hlive'⟩ :=
        reach_alone (fun _ _ => trivial) hs hidle (.free hcpu (hcode cpu) (hlive ▸ hb)) hrun
      exact ⟨s', hs', hconfig', by rw [hlive', hlive]; rfl⟩
    | write addr v =>
      obtain ⟨⟨b, hb, hx⟩, rfl⟩ := exec_write_some hstep
      refine ⟨_, hs.step (.write addr v) trivial (.write (hlive ▸ hb) hx), ?_, hlive⟩
      simp [store, hconfig]

end Interplay
end Runs

section Examples

variable {p : Platform} {s : Interplay} {D : Interplay → SessionEvent → Prop} {i j x : ℕ}
  {held : List Lock} {q : Code ℕ} {c : Call}

/-- Where a program is about to clear memory. -/
def fillsNext : Code ℕ → Option (ℕ × ℕ)
  | .op (.fill _ q n) _ => some (q, n)
  | _ => none

/-- Where a program is about to store. -/
def storesNext : Code ℕ → Option ℕ
  | .op (.store _ (q + 1) off (_ + 1) _) _ => some (q + 1 + off)
  | _ => none

def returns : Code ℕ → Bool
  | .ret _ => true
  | _ => false

theorem fillsNext_some {a n : ℕ} (h : fillsNext q = some (a, n)) :
    ∃ t k, q = .op (.fill t a n) k := by
  cases q with
  | ret b => cases h
  | fail f => cases h
  | op o k =>
    cases o with
    | fill t b m =>
      cases h
      exact ⟨t, k, rfl⟩
    | _ => cases h

theorem storesNext_some {a : ℕ} (h : storesNext q = some a) :
    ∃ t b off n v k, q = .op (.store t (b + 1) off (n + 1) v) k ∧ b + 1 + off = a := by
  cases q with
  | ret b => cases h
  | fail f => cases h
  | op o k =>
    cases o with
    | store t b off n v =>
      cases b with
      | zero => cases h
      | succ b =>
        cases n with
        | zero => cases h
        | succ n => exact ⟨t, b, off, n, v, k, rfl, Option.some.inj h⟩
    | _ => cases h

namespace Interplay

/-- A CPU that stores to a page under the lock of its page list is in a section on it. -/
theorem reach_store {a : ℕ} {q' : Code ℕ} {t : PmmState} {held' : List Lock}
    (h : (interplay p).Reach D s) (hmove : D s (.move i))
    (hthread : s.config.thread i = ⟨some q, held⟩) (hq : storesNext q = some a)
    (hadv : advance 1 (q, s.config.store, held) = some (q', t, held'))
    (hheld : .pagelist i ∈ held) (hheader : IsPageHeader p s.config.store x) (hx : InSpan x a) :
    ∃ s', (interplay p).Reach D s' ∧ s'.Inside i x ∧ Leads i s s' t ⟨some q', held'⟩ := by
  obtain ⟨kind, b, off, n, v, k, rfl, rfl⟩ := storesNext_some hq
  obtain ⟨w, u, hr, hrest⟩ := advance_plain (o := .store kind (b + 1) off (n + 1) v) trivial hadv
  cases hrest
  refine ⟨_, reach_perform h hthread hr hmove (fun heq => nomatch heq), ⟨?_, ?_⟩, leads_perform⟩
  · change _ ∈ ((s.config.update i _ _).thread i).held
    rw [Config.update_self]
    exact hheld
  · change Function.update s.met i _ i x
    rw [Function.update_self]
    refine .inr ⟨hheader, (fun heq => nomatch heq), b + 1 + off, ⟨le_rfl, ?_⟩, hx.1.le, hx.2⟩
    omega

/-- A CPU starts a call and goes on in it. -/
theorem reach_in_call {C : PmmState → Prop} [DecidablePred C] {stop : Code ℕ → Bool} {n : ℕ}
    {q' : Code ℕ} {t : PmmState} {held' : List Lock} {live : List Block}
    (hmove : ∀ s, D s (.move i))
    (henter : ∀ s, s.call i = some c → C s.config.store → D s (.enter i))
    (h : (interplay p).Reach D s) (hcall : D s (.call i c)) (hidle : s.config.thread i = ⟨none, []⟩)
    (hstart : (interplay p).step s (.call i c) (s.start p i c live))
    (hrun : goUntil C stop n (c.run p i, s.config.store, []) = some (q', t, held')) :
    ∃ s', (interplay p).Reach D s' ∧ Leads i (s.start p i c live) s' t ⟨some q', held'⟩ := by
  refine reach_goUntil hmove henter (h.step _ hcall hstart) ?_ (Function.update_self _ _ _) hrun
  rw [start_self, hidle]

/-- A CPU stays in its section while others move, and while they start calls. -/
theorem Inside.leads {s' : Interplay} {t : PmmState} {thread : Thread Struct Global Lock Check ℕ}
    (h : s.Inside j x) (hj : j ≠ i) (hl : Leads i s s' t thread) : s'.Inside j x := by
  obtain ⟨hheld, hmet⟩ := h
  refine ⟨?_, ?_⟩
  · rwa [hl.other hj]
  · rwa [hl.met j hj]

theorem Inside.start {live : List Block} (h : s.Inside j x) : (s.start p i c live).Inside j x := by
  refine ⟨?_, h.2⟩
  by_cases hj : j = i
  · subst hj
    rw [start_self]
    exact h.1
  · rw [start_other hj]
    exact h.1

/-- No request is larger than 16 KiB. -/
def SmallRequests (_ : Interplay) : SessionEvent → Prop
  | .call _ (.alloc n) => n ≤ 16384
  | _ => True

/-- A small request needs room for its page only. -/
theorem apart_enter {n : ℕ} (hn : n ≤ 16384) (hcall : s.call i = some (.alloc n))
    (hfits : RemainderFits s.config.store) : StaysApart p s (.enter i) := by
  intro m hm
  rw [hcall] at hm
  cases hm
  exact ⟨fun hbig => absurd hbig (by omega), fun _ => hfits⟩

/-- The store after `pmm_init`, and after a first request of 100 bytes by CPU 0. -/
def firstBlock : Option (PmmState × PmmState) :=
  (runFrom halfMega (fun _ _ => True) blank []).bind fun w =>
    (goUntil RemainderFits returns 400 ((Call.alloc 100).run halfMega 0, w.st, [])).bind fun x =>
      if answerGiven x.1 = some 0x100080 then some (w.st, x.2.1) else none

/-- CPU 0 gets a block on its first page. -/
theorem reach_firstBlock {t t' : PmmState} (h : firstBlock = some (t, t')) :
    ∃ s, (interplay halfMega).Reach (fun s e => SmallRequests s e ∧ StaysApart halfMega s e) s ∧
      s.config = ⟨t', fun _ => ⟨none, []⟩⟩ ∧ s.live = [⟨0x100080, 100⟩] := by
  obtain ⟨w, hw, h⟩ := Option.bind_eq_some_iff.mp h
  obtain ⟨⟨q, u, held⟩, hrun, h⟩ := Option.bind_eq_some_iff.mp h
  split_ifs at h with hanswer
  cases h
  obtain rfl : q = .ret 0x100080 := answerGiven_some hanswer
  obtain ⟨w₀, hboot, htrace⟩ := trace_of_runFrom hw
  cases htrace
  obtain ⟨s, hs, hconfig, hlive⟩ := reach_boot
    (D := fun s e => SmallRequests s e ∧ StaysApart halfMega s e) hboot
  have hidle : ∀ j, s.config.thread j = ⟨none, []⟩ := fun j => by rw [hconfig]
  rw [hboot.fresh.2] at hlive
  have hstart : (interplay halfMega).step s (.call 0 (.alloc 100))
      (s.start halfMega 0 (.alloc 100) s.live) := .alloc (by decide) (by rw [hidle])
  rw [show w.st = s.config.store by rw [hconfig]] at hrun
  have hsmall : (100 : ℕ) ≤ 16384 := by decide
  have hcall : SmallRequests s (.call 0 (.alloc 100)) ∧
      StaysApart halfMega s (.call 0 (.alloc 100)) := ⟨hsmall, trivial⟩
  obtain ⟨s', hs', hleads⟩ := reach_in_call (fun _ => ⟨trivial, trivial⟩)
    (fun s hcall hfits => ⟨trivial, apart_enter hsmall hcall hfits⟩) hs hcall (hidle 0) hstart hrun
  obtain ⟨u, hu, hconfig', hlive'⟩ := reach_return (fun _ => ⟨trivial, trivial⟩) hidle hs' hleads
  refine ⟨u, hu, hconfig', ?_⟩
  rw [hlive', hlive]
  rfl

/-- CPU 1 frees a block of CPU 0 while CPU 0 allocates from the page that it lies on: both store
to the header. -/
theorem cpus_meet : ¬ ∀ (p : Platform) (s : Interplay), (interplay p).Reach SmallRequests s →
    s.Exclusive := by
  intro hall
  have hrun : (firstBlock.bind fun x =>
      (goUntil (fun _ => False) (fun q => storesNext q = some 0x10000c) 400
        ((Call.alloc 100).run halfMega 0, x.2, [])).bind fun y =>
      (advance 1 y).bind fun y' =>
      (goUntil (fun _ => False) (fun q => storesNext q = some 0x10000c) 400
        ((Call.free 0x100080).run halfMega 1, y'.2.1, [])).bind fun z =>
      (advance 1 z).map fun _ =>
      decide ((.pagelist 0 ∈ y.2.2 ∧ .pagelist 0 ∈ y'.2.2 ∧ IsPageHeader halfMega y.2.1 0x100000) ∧
        .pagelist 1 ∈ z.2.2 ∧ IsPageHeader halfMega z.2.1 0x100000)) = some true := by
    decide +kernel
  obtain ⟨⟨t, u⟩, hfirst, hy⟩ := Option.bind_eq_some_iff.mp hrun
  obtain ⟨⟨q, u₁, held⟩, hgo, hy'⟩ := Option.bind_eq_some_iff.mp hy
  obtain ⟨⟨q', u₂, held'⟩, hadv, hz⟩ := Option.bind_eq_some_iff.mp hy'
  obtain ⟨⟨r, u₃, locks⟩, hgo', hz'⟩ := Option.bind_eq_some_iff.mp hz
  obtain ⟨⟨r', u₄, locks'⟩, hadv', hfacts⟩ := Option.map_eq_some_iff.mp hz'
  obtain ⟨⟨hheld, hheld', hheader⟩, hlocks, hheader'⟩ := of_decide_eq_true hfacts
  have hat : storesNext q = some 0x10000c := of_decide_eq_true (goUntil_stop hgo)
  have hat' : storesNext r = some 0x10000c := of_decide_eq_true (goUntil_stop hgo')
  obtain ⟨s, hs, hconfig, hlive⟩ := reach_firstBlock hfirst
  have hs := hs.mono (D := SmallRequests) fun _ _ h => h.1
  -- CPU 0 is in the section of its second call
  have hstart : (interplay halfMega).step s (.call 0 (.alloc 100))
      (s.start halfMega 0 (.alloc 100) s.live) := .alloc (by decide) (by rw [hconfig])
  have hsmall : SmallRequests s (.call 0 (.alloc 100)) := by
    change 100 ≤ 16384
    decide
  rw [show u = s.config.store by rw [hconfig]] at hgo
  obtain ⟨s₁, hs₁, hl₁⟩ := reach_in_call (fun _ => trivial) (fun _ _ _ => trivial) hs hsmall
    (by rw [hconfig]) hstart hgo
  rw [← hl₁.store] at hadv hheader
  obtain ⟨s₂, hs₂, hinside, hl₂⟩ := reach_store hs₁ trivial hl₁.self hat hadv hheld hheader
    (by decide)
  -- CPU 1 is in the section of its `kfree`
  have hother : s₂.config.thread 1 = ⟨none, []⟩ := by
    rw [hl₂.other (by decide), hl₁.other (by decide), start_other (by decide), hconfig]
  have hlive₂ : (⟨0x100080, 100⟩ : Block) ∈ s₂.live := by
    rw [hl₂.live, hl₁.live, hlive]
    exact List.mem_singleton_self _
  have hstart' : (interplay halfMega).step s₂ (.call 1 (.free 0x100080))
      (s₂.start halfMega 1 (.free 0x100080) (s₂.live.erase ⟨0x100080, 100⟩)) :=
    .free (b := ⟨0x100080, 100⟩) (by decide) (by rw [hother]) hlive₂
  rw [← hl₂.store] at hgo'
  have hany : SmallRequests s₂ (.call 1 (.free 0x100080)) := trivial
  obtain ⟨s₃, hs₃, hl₃⟩ := reach_in_call (fun _ => trivial) (fun _ _ _ => trivial) hs₂ hany
    hother hstart' hgo'
  rw [← hl₃.store] at hadv' hheader'
  obtain ⟨s₄, hs₄, hinside', hl₄⟩ := reach_store hs₃ trivial hl₃.self hat' hadv' hlocks hheader'
    (by decide)
  have hstill : s₄.Inside 0 0x100000 :=
    (hinside.start.leads (by decide) hl₃).leads (by decide) hl₄
  exact absurd (hall halfMega s₄ hs₄ 0 1 0x100000 hstill hinside') (by decide)

/-- CPU 0 frees its block while CPU 1 allocates from its own first page. -/
theorem exists_own_sections : ∃ s : Interplay, (interplay halfMega).Reach (StaysApart halfMega) s ∧
    (s.Inside 0 0x100000 ∧ s.Inside 1 0x110000) ∧ (0x120000, 0x60000) ∈ s.nodes ∧
    ∃ q, (s.config.thread 1).code = some q ∧ storesNext q = some 0x11008c ∧
      .heapLock ∉ (s.config.thread 1).held := by
  have hrun : (firstBlock.bind fun x =>
      (goUntil (fun _ => False) (fun q => storesNext q = some 0x10008c) 400
        ((Call.free 0x100080).run halfMega 0, x.2, [])).bind fun y =>
      (advance 1 y).bind fun y' =>
      (goUntil RemainderFits (fun q => storesNext q = some 0x11000c) 400
        ((Call.alloc 100).run halfMega 1, y'.2.1, [])).bind fun z =>
      (advance 1 z).map fun z' =>
      decide ((((∃ q ∈ pageHeaders x.2 0, InSpan q 0x100080) ∧
          ¬ MergesPageHeader halfMega x.2 0x100080) ∧
        .pagelist 0 ∈ y.2.2 ∧ IsPageHeader halfMega y.2.1 0x100000) ∧
        (.pagelist 1 ∈ z.2.2 ∧ IsPageHeader halfMega z.2.1 0x110000) ∧
        (z'.2.1.lock .heapLock = 0 ∧ (0x120000, 0x60000) ∈ freeNodes z'.2.1) ∧
        storesNext z'.1 = some 0x11008c ∧ .heapLock ∉ z'.2.2)) = some true := by decide +kernel
  obtain ⟨⟨t, u⟩, hfirst, hy⟩ := Option.bind_eq_some_iff.mp hrun
  obtain ⟨⟨q, u₁, held⟩, hgo, hy'⟩ := Option.bind_eq_some_iff.mp hy
  obtain ⟨⟨q', u₂, held'⟩, hadv, hz⟩ := Option.bind_eq_some_iff.mp hy'
  obtain ⟨⟨r, u₃, locks⟩, hgo', hz'⟩ := Option.bind_eq_some_iff.mp hz
  obtain ⟨⟨r', u₄, locks'⟩, hadv', hfacts⟩ := Option.map_eq_some_iff.mp hz'
  obtain ⟨⟨hapart, hheld, hheader⟩, ⟨hlocks, hheader'⟩, ⟨hfree, hnodes⟩, hnext, hout⟩ :=
    of_decide_eq_true hfacts
  have hat : storesNext q = some 0x10008c := of_decide_eq_true (goUntil_stop hgo)
  have hat' : storesNext r = some 0x11000c := of_decide_eq_true (goUntil_stop hgo')
  obtain ⟨s, hs, hconfig, hlive⟩ := reach_firstBlock hfirst
  have hs := hs.mono (D := StaysApart halfMega) fun _ _ h => h.2
  have hstore : u = s.config.store := by rw [hconfig]
  rw [hstore] at hgo hapart
  -- CPU 0 is in the section of its `kfree`
  have hstart : (interplay halfMega).step s (.call 0 (.free 0x100080))
      (s.start halfMega 0 (.free 0x100080) (s.live.erase ⟨0x100080, 100⟩)) :=
    .free (b := ⟨0x100080, 100⟩) (by decide) (by rw [hconfig])
      (by rw [hlive]; exact List.mem_singleton_self _)
  have hspares : StaysApart halfMega s (.call 0 (.free 0x100080)) := fun _ _ _ _ => hapart
  obtain ⟨s₁, hs₁, hl₁⟩ := reach_in_call (fun _ => trivial) (fun _ _ hno => hno.elim) hs hspares
    (by rw [hconfig]) hstart hgo
  rw [← hl₁.store] at hadv hheader
  obtain ⟨s₂, hs₂, hinside, hl₂⟩ := reach_store hs₁ trivial hl₁.self hat hadv hheld hheader
    (by decide)
  -- CPU 1 is in the section of its `kalloc`
  have hother : s₂.config.thread 1 = ⟨none, []⟩ := by
    rw [hl₂.other (by decide), hl₁.other (by decide), start_other (by decide), hconfig]
  have hstart' : (interplay halfMega).step s₂ (.call 1 (.alloc 100))
      (s₂.start halfMega 1 (.alloc 100) s₂.live) := .alloc (by decide) (by rw [hother])
  rw [← hl₂.store] at hgo'
  obtain ⟨s₃, hs₃, hl₃⟩ := reach_in_call (fun _ => trivial)
    (fun _ hcall hfits => apart_enter (by decide) hcall hfits) hs₂ trivial hother hstart' hgo'
  rw [← hl₃.store] at hadv' hheader'
  obtain ⟨s₄, hs₄, hinside', hl₄⟩ := reach_store hs₃ trivial hl₃.self hat' hadv' hlocks hheader'
    (by decide)
  have hstill : s₄.Inside 0 0x100000 :=
    (hinside.start.leads (by decide) hl₃).leads (by decide) hl₄
  refine ⟨s₄, hs₄, ⟨hstill, hinside'⟩, ?_, r', ?_, hnext, ?_⟩
  · rw [← hl₄.store] at hfree hnodes
    unfold nodes
    rwa [if_pos hfree]
  · rw [hl₄.self]
  · rw [hl₄.self]
    exact hout

/-- Each is in the section on its own page. -/
theorem pages_exclusive_run : ∃ s : Interplay,
    s.Inside 0 0x100000 ∧ s.Inside 1 0x110000 ∧ s.Exclusive := by
  obtain ⟨s, hs, ⟨hinside, hinside'⟩, -⟩ := exists_own_sections
  exact ⟨s, hinside, hinside', pages_exclusive (by decide) hs⟩

/-- CPU 1 stores to its page while the heap has a node. -/
theorem locks_guard_run : ∃ s : Interplay, Disciplined s.config ∧ s.NodesGuarded ∧
    (0x120000, 0x60000) ∈ s.nodes ∧ ∃ q, (s.config.thread 1).code = some q ∧
      storesNext q = some 0x11008c ∧ .heapLock ∉ (s.config.thread 1).held := by
  obtain ⟨s, hs, -, hnodes, hnext⟩ := exists_own_sections
  obtain ⟨hlocks, hguard⟩ := locks_guard halfMega
  exact ⟨s, hlocks _ (interplay_config hs), hguard (by decide) s hs, hnodes, hnext⟩

/-- `kfree` of a block on a page whose stated size is twice its class clears a node of the heap,
under the lock of the page list. -/
theorem node_cleared : ¬ ∀ (p : Platform) (s : Interplay),
    (interplay p).Reach (fun _ _ => True) s → s.NodesGuarded := by
  intro hall
  have hrun : ((runFrom halfMega (fun _ _ => True) blank [.alloc 0 8192, .alloc 0 8192,
      .alloc 0 8192, .alloc 0 8192, .alloc 0 8192, .alloc 0 8192, .alloc 0 8192,
      .free 0 0x102000]).bind fun w =>
      (goUntil (fun _ => False) (fun q => fillsNext q = some (0x10e000, 16384)) 400
        ((Call.free 0x10e000).run halfMega 0, w.st, [])).map fun x =>
      decide ((⟨0x10e000, 8192⟩ ∈ w.live ∧ x.2.1.lock .heapLock = 0) ∧ .heapLock ∉ x.2.2 ∧
        ∃ node ∈ freeNodes x.2.1, node.1 = 0x110000)) = some true := by decide +kernel
  obtain ⟨w, hw, hx⟩ := Option.bind_eq_some_iff.mp hrun
  obtain ⟨⟨q, t, held⟩, hgo, hfacts⟩ := Option.map_eq_some_iff.mp hx
  obtain ⟨⟨hlive, hfree⟩, hout, node, hnode, haddr⟩ := of_decide_eq_true hfacts
  obtain ⟨kind, k, rfl⟩ := fillsNext_some (of_decide_eq_true (goUntil_stop hgo))
  obtain ⟨s, hs, hconfig, hlive'⟩ := reach_of_allocator (reach_of_runFrom hw)
  have hstart : (interplay halfMega).step s (.call 0 (.free 0x10e000))
      (s.start halfMega 0 (.free 0x10e000) (s.live.erase ⟨0x10e000, 8192⟩)) :=
    .free (b := ⟨0x10e000, 8192⟩) (by decide) (by rw [hconfig]) (by rwa [hlive'])
  rw [show w.st = s.config.store by rw [hconfig]] at hgo
  obtain ⟨s', hs', hl⟩ := reach_in_call (fun _ => trivial) (fun _ _ hno => hno.elim) hs trivial
    (by rw [hconfig]) hstart hgo
  have hcode : (s'.config.thread 0).code = some (.op (.fill kind 0x10e000 16384) k) := by
    rw [hl.self]
  have hnodes : node ∈ s'.nodes := by
    rw [← hl.store] at hfree hnode
    unfold nodes
    rwa [if_pos hfree]
  refine hall halfMega s' hs' 0 _ k hcode ?_ node hnodes 0x110000 ?_ ?_
  · rw [hl.self]
    exact hout
  · refine ⟨haddr.le, .inl ?_⟩
    rw [haddr]
    decide
  · constructor <;> decide

end Interplay
end Examples
end KmallocKfree
