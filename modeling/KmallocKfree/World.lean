import KmallocKfree.Rounding
import KmallocKfree.Regions
import KmallocKfree.Runs

/-!
# Runs of the allocator

Calls are executed one at a time, by any CPU. A world is the state of the machine
and the live blocks; between calls owners write into their own blocks. A call that
does not return has no next world.
-/
namespace KmallocKfree

open Prog

/-- A live block and the request that made it. -/
structure Block where
  addr : ℕ
  req : ℕ
  deriving DecidableEq

namespace Block

def size (b : Block) : ℕ := roundSize b.req

def region (b : Block) : Region := ⟨b.addr, b.size⟩

/-- Requests above 16 KiB are served from the heap free list, behind a header. -/
def Huge (b : Block) : Prop := 16 * 1024 < b.req

instance (b : Block) : Decidable b.Huge := inferInstanceAs (Decidable (_ < _))

/-- A large block with its header. -/
def span (b : Block) : Region := ⟨b.addr - headerBytes, b.size + headerBytes⟩

end Block

structure World where
  st : PmmState
  live : List Block

/-- `alloc cpu n` and `free cpu a` are calls of `kalloc(n)` and `kfree(a)` on `cpu`;
`write a v` is an owner storing a byte. -/
inductive Cmd where
  | alloc (cpu size : ℕ)
  | free (cpu addr : ℕ)
  | write (addr : ℕ) (v : UInt8)
  deriving DecidableEq

/-- One command; none when it is not allowed, or when the call does not return. -/
def World.exec (p : Platform) (w : World) : Cmd → Option World
  | .alloc cpu n =>
      if cpu < p.cpuCount then
        match Prog.exec (kalloc p cpu n) w.st with
        | .ok (r, s) => some ⟨s, if r = 0 then w.live else ⟨r, n⟩ :: w.live⟩
        | .error _ => none
      else none
  | .free cpu a =>
      if cpu < p.cpuCount then
        match w.live.find? fun b => decide (b.addr = a) with
        | some b =>
            match Prog.exec (kfree p cpu a) w.st with
            | .ok (_, s) => some ⟨s, w.live.erase b⟩
            | .error _ => none
        | none => none
      else none
  | .write a v =>
      if ∃ b ∈ w.live, b.region.Contains a then
        some ⟨w.st.setMem fun x => if x = a then v else w.st.mem x, w.live⟩
      else none

section Inversion

variable {p : Platform} {w w' : World} {cpu a n : ℕ} {v : UInt8}

theorem exec_alloc_some (h : w.exec p (.alloc cpu n) = some w') : cpu < p.cpuCount ∧
    ∃ r s, Prog.exec (kalloc p cpu n) w.st = .ok (r, s) ∧
      w' = ⟨s, if r = 0 then w.live else ⟨r, n⟩ :: w.live⟩ := by
  simp only [World.exec] at h
  split_ifs at h with hcpu
  cases hk : Prog.exec (kalloc p cpu n) w.st with
  | error e => rw [hk] at h; cases h
  | ok x =>
    rw [hk] at h
    exact ⟨hcpu, x.1, x.2, rfl, (Option.some.inj h).symm⟩

theorem exec_free_some (h : w.exec p (.free cpu a) = some w') : cpu < p.cpuCount ∧
    ∃ b s, b ∈ w.live ∧ b.addr = a ∧ Prog.exec (kfree p cpu a) w.st = .ok ((), s) ∧
      w' = ⟨s, w.live.erase b⟩ := by
  simp only [World.exec] at h
  split_ifs at h with hcpu
  cases hf : w.live.find? fun b => decide (b.addr = a) with
  | none => rw [hf] at h; cases h
  | some b =>
    rw [hf] at h
    cases hk : Prog.exec (kfree p cpu a) w.st with
    | error e => simp only [hk] at h; cases h
    | ok x =>
      simp only [hk] at h
      exact ⟨hcpu, b, x.2, List.mem_of_find?_eq_some hf, by simpa using List.find?_some hf, rfl,
        (Option.some.inj h).symm⟩

theorem exec_write_some (h : w.exec p (.write a v) = some w') :
    (∃ b ∈ w.live, b.region.Contains a) ∧
      w' = ⟨w.st.setMem fun x => if x = a then v else w.st.mem x, w.live⟩ := by
  simp only [World.exec] at h
  split_ifs at h with hlive
  exact ⟨hlive, (Option.some.inj h).symm⟩

end Inversion

/-- After `pmm_init`, from any content of memory, variables and lock words. -/
def Booted (p : Platform) (w : World) : Prop :=
  ∃ s s', Prog.exec (pmmInit p) s = .ok ((), s') ∧ w = ⟨s', []⟩

/-- The allocator as a machine that executes commands. -/
def allocator (p : Platform) : Machine World Cmd where
  init := Booted p
  step w c w' := w.exec p c = some w'

/-- A whole run from `pmm_init`, whose commands must meet `C`; none when one does not,
is not allowed, or does not return. -/
def runFrom (p : Platform) (C : World → Cmd → Prop) [∀ w c, Decidable (C w c)] (s : PmmState)
    (cmds : List Cmd) : Option World :=
  match Prog.exec (pmmInit p) s with
  | .ok (_, s') => cmds.foldlM (fun w c => if C w c then w.exec p c else none) ⟨s', []⟩
  | .error _ => none

/-- A run that can be computed reaches its last world. -/
theorem reach_of_runFrom {p : Platform} {C : World → Cmd → Prop} [∀ w c, Decidable (C w c)]
    {s : PmmState} {cmds : List Cmd} {w : World} (h : runFrom p C s cmds = some w) :
    (allocator p).Reach C w := by
  have hfold : ∀ (cmds : List Cmd) (t : World), (allocator p).Reach C t →
      cmds.foldlM (fun w c => if C w c then w.exec p c else none) t = some w →
      (allocator p).Reach C w := by
    intro cmds
    induction cmds with
    | nil =>
      intro t ht h
      cases h
      exact ht
    | cons c cmds ih =>
      intro t ht h
      rw [List.foldlM_cons] at h
      obtain ⟨u, hu, h⟩ := Option.bind_eq_some_iff.mp h
      split_ifs at hu with hC
      exact ih u (.step c ht hC hu) h
  unfold runFrom at h
  cases hi : Prog.exec (pmmInit p) s with
  | error e => rw [hi] at h; cases h
  | ok r =>
    rw [hi] at h
    exact hfold cmds _ (.init ⟨s, r.2, hi, rfl⟩) h

/-- A heap of 512 KiB from 1 MiB on, and two processors. -/
def halfMega : Platform where
  heapStart := 0x100000
  heapEnd := 0x180000
  cpuCount := 2
  heapStart_pos := by decide
  heapStart_le := by decide
  heapEnd_lt := by decide
  cpuCount_pos := by decide
  cpuCount_le := by decide

/-- All bytes, variables and lock words are 0. -/
def blank : PmmState := ⟨fun _ => 0, fun _ => 0, fun _ => 0⟩

end KmallocKfree
