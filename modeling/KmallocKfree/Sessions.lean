import KmallocKfree.HeapSections

/-!
# CPUs in large calls

The machine of the locks, with what the callers see: the call that each CPU is in, the
blocks that they own, and their writes. Any CPU may call at any time, and between any two
memory operations of one CPU the others may do theirs. The calls are kept in the order in
which they were made and in the order in which they took the heap lock, with what each CPU
has been answered.
-/
namespace KmallocKfree

open Prog Region Shape

structure Session where
  config : Config Struct Global Lock Check ℕ
  /-- The call that each CPU is in. -/
  call : ℕ → Option Call
  /-- The blocks that the callers own. -/
  live : List Block
  /-- The calls as they were made. -/
  made : List Cmd
  /-- The calls as they took the heap lock, with the writes in between. -/
  order : List Cmd
  /-- What the calls of each CPU have returned to it. -/
  answers : ℕ → List ℕ

inductive SessionEvent where
  | call (i : ℕ) (c : Call)
  /-- A CPU takes the heap lock. -/
  | enter (i : ℕ)
  | move (i : ℕ)
  /-- A call returns to its caller. -/
  | finish (i : ℕ)
  | spin (i : ℕ)
  | write (addr : ℕ) (v : UInt8)

/-- The blocks of the callers once the call has returned `a`. -/
def Call.returned (a : ℕ) (live : List Block) : Call → List Block
  | .alloc n => if a = 0 then live else ⟨a, n⟩ :: live
  | .free _ => live

namespace Session

/-- An owner stores a byte. -/
def store (s : Session) (addr : ℕ) (v : UInt8) : PmmState :=
  s.config.store.setMem fun x => if x = addr then v else s.config.store.mem x

/-- CPU `i` starts a call, which leaves the callers the blocks `live`. -/
def start (p : Platform) (s : Session) (i : ℕ) (c : Call) (live : List Block) : Session where
  config := s.config.update i s.config.store ⟨some (c.run p i), (s.config.thread i).held⟩
  call := Function.update s.call i (some c)
  live := live
  made := s.made ++ [c.cmd i]
  order := s.order
  answers := s.answers

/-- CPU `i` takes the heap lock and goes on with `code`. -/
def enter (s : Session) (i : ℕ) (c : Call) (code : Code ℕ) : Session where
  config := s.config.update i (s.config.store.setLock .heapLock 1)
    ⟨some code, .heapLock :: (s.config.thread i).held⟩
  call := s.call
  live := s.live
  made := s.made
  order := s.order ++ [c.cmd i]
  answers := s.answers

/-- The call of CPU `i` returns `a`. -/
def finish (s : Session) (i : ℕ) (c : Call) (a : ℕ) : Session where
  config := s.config.update i s.config.store ⟨none, (s.config.thread i).held⟩
  call := Function.update s.call i none
  live := c.returned a s.live
  made := s.made
  order := s.order
  answers := Function.update s.answers i (s.answers i ++ [a])

section Threads

variable {p : Platform} {s : Session} {i j a : ℕ} {c : Call} {live : List Block} {code : Code ℕ}

theorem start_self : (s.start p i c live).config.thread i =
    ⟨some (c.run p i), (s.config.thread i).held⟩ := Config.update_self _ _ _

theorem start_other (h : j ≠ i) :
    (s.start p i c live).config.thread j = s.config.thread j := Config.update_other h _ _

theorem enter_self : (s.enter i c code).config.thread i =
    ⟨some code, .heapLock :: (s.config.thread i).held⟩ := Config.update_self _ _ _

theorem enter_other (h : j ≠ i) :
    (s.enter i c code).config.thread j = s.config.thread j := Config.update_other h _ _

theorem finish_self : (s.finish i c a).config.thread i =
    ⟨none, (s.config.thread i).held⟩ := Config.update_self _ _ _

theorem finish_other (h : j ≠ i) :
    (s.finish i c a).config.thread j = s.config.thread j := Config.update_other h _ _

end Threads

end Session

/-- Requests above 16 KiB, of at most 16 MiB, and calls of `kfree` for blocks of theirs. -/
inductive SessionStep (p : Platform) : Session → SessionEvent → Session → Prop
  | alloc {s : Session} {i n : ℕ} : i < p.cpuCount → (s.config.thread i).code = none →
      16384 < n → n ≤ 16777216 →
      SessionStep p s (.call i (.alloc n)) (s.start p i (.alloc n) s.live)
  /-- The caller gives the block away with the call. -/
  | free {s : Session} {i : ℕ} {b : Block} : i < p.cpuCount → (s.config.thread i).code = none →
      b ∈ s.live →
      SessionStep p s (.call i (.free b.addr)) (s.start p i (.free b.addr) (s.live.erase b))
  | enter {s : Session} {i : ℕ} {c : Call} {k : ℕ → Code ℕ} : s.call i = some c →
      (s.config.thread i).code = some (.op (.acquire .heapLock) k) →
      s.config.store.lock .heapLock = 0 → SessionStep p s (.enter i) (s.enter i c (k 0))
  | move {s : Session} {i : ℕ} {c : Config Struct Global Lock Check ℕ} : Moves i s.config c →
      (∀ k, (s.config.thread i).code ≠ some (.op (.acquire .heapLock) k)) →
      (∀ a, (s.config.thread i).code ≠ some (.ret a)) →
      SessionStep p s (.move i) { s with config := c }
  | finish {s : Session} {i a : ℕ} {c : Call} : s.call i = some c →
      (s.config.thread i).code = some (.ret a) → SessionStep p s (.finish i) (s.finish i c a)
  | spin {s : Session} {i : ℕ} {l : Lock} : Waits s.config i l →
      SessionStep p s (.spin i)
        { s with config := ⟨s.config.store.setLock l 1, s.config.thread⟩ }
  /-- An owner writes a byte of its block. -/
  | write {s : Session} {b : Block} {addr : ℕ} {v : UInt8} : b ∈ s.live →
      b.region.Contains addr →
      SessionStep p s (.write addr v) { s with
        config := ⟨s.store addr v, s.config.thread⟩
        order := s.order ++ [.write addr v] }

/-- The machine starts after `pmm_init`. -/
def sessions (p : Platform) : Machine Session SessionEvent where
  init s := Booted p ⟨s.config.store, []⟩ ∧ (∀ i, s.config.thread i = ⟨none, []⟩) ∧
    (∀ i, s.call i = none) ∧ s.live = [] ∧ s.made = [] ∧ s.order = [] ∧ ∀ i, s.answers i = []
  step := SessionStep p

/-- The call that a CPU starts with the heap lock finds room for its header. -/
def RoomAtEntry (s : Session) : SessionEvent → Prop
  | .enter i => ∀ n, s.call i = some (.alloc n) → HeaderFits s.config.store n
  | _ => True

/-- The machine of the locks makes the same steps. -/
theorem SessionStep.concurrent {p : Platform} {s s' : Session} {e : SessionEvent}
    (h : SessionStep p s e s') : ∃ e', (pmmMachine p).step s.config e' s'.config := by
  cases h with
  | alloc hi hidle _ _ => exact ⟨_, .call ⟨hi, _, rfl⟩ hidle⟩
  | free hi hidle _ => exact ⟨_, .call ⟨hi, _, rfl⟩ hidle⟩
  | enter _ hcode hfree => exact ⟨_, .move (.acquire hcode hfree)⟩
  | move hm _ _ => exact ⟨_, .move hm⟩
  | finish _ hcode => exact ⟨_, .move (.finish hcode)⟩
  | spin hw => exact ⟨_, .spin hw⟩
  | write _ _ => exact ⟨_, .write _⟩

theorem config_reached {p : Platform} {C : Session → SessionEvent → Prop} {s : Session}
    (h : (sessions p).Reach C s) : (pmmMachine p).Reach (fun _ _ => True) s.config := by
  induction h with
  | init h =>
    obtain ⟨hboot, hidle, -⟩ := h
    exact .init ⟨hboot.fresh.1.unlocked, hidle⟩
  | step e _ _ hstep ih =>
    obtain ⟨e', hstep⟩ := hstep.concurrent
    exact ih.step e' trivial hstep

end KmallocKfree
