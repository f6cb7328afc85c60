import KmallocKfree.KernelTables
import KmallocKfree.SpaceRuns

/-!
# From the start of the machine

What `vme_init` finds or makes is a kernel as the address spaces need one, on both
architectures. In every space and after any calls the kernel's areas are mapped to themselves.
-/
namespace KmallocKfree.Vme

variable {α : Type} {P : Pager α} {live : α → Set ℕ} {used cells : Set ℕ} {good : α → Words → Prop}

/-- The kernel's areas are mapped to themselves in every space, for the kernel only. -/
def Kernel.Identity (K : Kernel α) (σ : Spaces) (s : Vm α) : Prop :=
  ∀ as ∈ roots σ, ∀ va, K.arch.InKernel va →
    translate K.arch s.mem (s.mem as) va = some ⟨va, true, false⟩

/-- Spaces take the kernel's addresses from the kernel's tables, after any calls. -/
theorem Kernel.identity_runs (K : Kernel α)
    (h : ∀ va, K.arch.InKernel va →
      translate K.arch K.start.mem K.start.kpt va = some ⟨va, true, false⟩)
    {l : List Call} (hl : StepsMeet (Call.means K.arch) (Call.Proper K) l noSpaces) :
    Refines (StopsAt (Call.exec K.arch K.pager) K.OutOfPages l K.start) K.Identity
      (runSteps (Call.exec K.arch K.pager) l K.start)
      (runSteps (Call.means K.arch) l noSpaces) := by
  refine (inv_runSteps K hl).mono fun σ s _ hinv as has va hva => ?_
  rw [hinv.translate_kernel has (K.wf.kernel va hva)]
  exact h va hva

/-- `vme_init` of i386 maps the kernel's areas to themselves, with pages of the allocator, and
gives what the address spaces need; or `pgalloc` returns 0 to it. -/
theorem i386_kernel_mapped (laws : Laws i386 P live used good) (s : Vm α)
    (hgood : good s.pages s.mem) {as : ℕ} (has : as ∈ used) (hcells : cells ⊆ used) :
    (vmeInit i386 P 0 as s = .error .cannotAllocate ∧
        RunsOut i386 P live used 1025 s.pages s.mem) ∨
      ∃ K : Kernel α, K.arch = i386 ∧ K.pager = P ∧ K.cells = cells ∧
        vmeInit i386 P 0 as s = .ok K.start ∧ K.live K.start.pages = live s.pages ∧
        (∀ x ∈ used, x ≠ as → K.start.mem x = s.mem x) ∧
        (∀ va, i386.InKernel va →
          translate i386 K.start.mem K.start.kpt va = some ⟨va, true, false⟩) ∧
        ∀ l, StepsMeet (Call.means K.arch) (Call.Proper K) l noSpaces →
          Refines (StopsAt (Call.exec K.arch K.pager) K.OutOfPages l K.start) K.Identity
            (runSteps (Call.exec K.arch K.pager) l K.start)
            (runSteps (Call.means K.arch) l noSpaces) := by
  rcases vmeInit_spec laws has hgood with hfail | ⟨ts, pd, D, s', hinit, hD, hbuilt⟩
  · exact .inl hfail
  · have hmapped : ∀ va, i386.InKernel va →
        translate i386 s'.mem pd va = some ⟨va, true, false⟩ := by
      intro va hva
      have hbase : baseof i386 pd = pd := (kernel32 laws hbuilt hcells).kpt_base
      rw [translate, hbase]
      exact hbuilt.identity laws hD hva
    refine .inr ⟨kernel32 laws hbuilt hcells, rfl, rfl, rfl, hinit, ?_, ?_, hmapped,
      fun l hl => Kernel.identity_runs _ hmapped hl⟩
    · change live s'.pages \ Tables ts pd = live s.pages
      ext u
      rw [Set.mem_sdiff, hbuilt.pages u]
      constructor
      · rintro ⟨hu | hu | hu, hnot⟩
        · exact hu
        · exact absurd (.inl hu) hnot
        · exact absurd (.inr hu) hnot
      · refine fun hu => ⟨.inl hu, ?_⟩
        rintro (rfl | ⟨i, hi⟩)
        · exact hbuilt.fresh.1 hu
        · exact (hbuilt.fresh.2 i u hi).1 hu
    · intro x hx hne
      exact (hbuilt.frame x hx hne).trans (if_neg hne)

/-- With a pool of 8 MiB there are pages enough. -/
theorem i386_kernel_mapped_pool :
    ∃ K : Kernel (List ℕ), K.arch = i386 ∧ K.pager = pool 0x100000 2048 ∧ K.cells = {0x8000} ∧
      vmeInit i386 (pool 0x100000 2048) 0 0x7000 ⟨fun _ => 0, [], 0⟩ = .ok K.start ∧
      K.live K.start.pages = {q | q ∈ []} ∧
      (∀ x ∈ {x | x < 0x100000}, x ≠ 0x7000 → K.start.mem x = 0) ∧
      (∀ va, i386.InKernel va →
        translate i386 K.start.mem K.start.kpt va = some ⟨va, true, false⟩) ∧
      ∀ l, StepsMeet (Call.means K.arch) (Call.Proper K) l noSpaces →
        Refines (StopsAt (Call.exec K.arch K.pager) K.OutOfPages l K.start) K.Identity
          (runSteps (Call.exec K.arch K.pager) l K.start)
          (runSteps (Call.means K.arch) l noSpaces) := by
  have hlaws := @pool_laws i386 0x100000 2048 rfl (by decide) (by decide)
  have hcells : {0x8000} ⊆ {x | x < 0x100000} :=
    Set.singleton_subset_iff.mpr (by decide : 0x8000 < 0x100000)
  rcases i386_kernel_mapped hlaws ⟨fun _ => 0, [], 0⟩ (by simp) (by decide : 0x7000 < 0x100000)
    hcells with ⟨-, hout⟩ | hok
  · have hle : 2048 ≤ ([] : List ℕ).length + 1025 := pool_runsOut (by decide) hout
    exact absurd hle (by decide)
  · exact hok

/-- With the tables of the startup code, `vme_init` of x86-64 gives what the address spaces
need. -/
theorem x8664_kernel_mapped (laws : Laws x8664 P live used good) (m : Words)
    (hm : m pml4Addr = 0) (pages : α) (hgood : good pages (startTables m)) (hcells : cells ⊆ used)
    (hused : ∀ x, pml4Addr ≤ x → x < pdptAddr + 4096 → x ∈ used ∧ x ∉ cells) :
    ∃ K : Kernel α, K.arch = x8664 ∧ K.pager = P ∧ K.cells = cells ∧ K.live = live ∧
      (∀ as kpt, vmeInit x8664 P 0 as ⟨startTables m, pages, kpt⟩ = .ok K.start) ∧
      ∀ l, StepsMeet (Call.means K.arch) (Call.Proper K) l noSpaces →
        Refines (StopsAt (Call.exec K.arch K.pager) K.OutOfPages l K.start) K.Identity
          (runSteps (Call.exec K.arch K.pager) l K.start)
          (runSteps (Call.means K.arch) l noSpaces) := by
  refine ⟨kernel64 P live used cells good laws hcells hused m hm pages hgood, rfl, rfl, rfl, rfl,
    fun _ _ => rfl, fun l hl => Kernel.identity_runs _ (fun va hva => ?_) hl⟩
  obtain ⟨hpml4, hpdpt⟩ := startTables_entries hm
  have hlt : va < 2 ^ 39 := by
    obtain ⟨vma, hvma, hk, -, -, hstop⟩ := hva
    have hstops : ∀ vma ∈ x8664.vmAreas, vma.kernel = true → vma.stop = 2 ^ 39 := by decide
    have hvma' := hstops vma hvma hk
    omega
  have hbase : baseof x8664 pml4Addr = pml4Addr := by decide
  have hwalk := HasStartTables.translate ⟨hpml4, hpdpt⟩ (x8664_wf.kernel va hva)
  rw [Nat.mod_eq_of_lt hlt] at hwalk
  change translateFrom x8664 (startTables m) va x8664.pgtables.tail (baseof x8664 pml4Addr) = _
  rw [hbase]
  exact hwalk

theorem x8664_kernel_mapped_pool :
    ∃ K : Kernel (List ℕ), K.arch = x8664 ∧ K.pager = pool 0x100000 256 ∧ K.cells = {0x8000} ∧
      K.live = (fun a => {q | q ∈ a}) ∧
      (∀ as kpt, vmeInit x8664 (pool 0x100000 256) 0 as ⟨startTables fun _ => 0, [], kpt⟩ =
        .ok K.start) ∧
      ∀ l, StepsMeet (Call.means K.arch) (Call.Proper K) l noSpaces →
        Refines (StopsAt (Call.exec K.arch K.pager) K.OutOfPages l K.start) K.Identity
          (runSteps (Call.exec K.arch K.pager) l K.start)
          (runSteps (Call.means K.arch) l noSpaces) := by
  refine x8664_kernel_mapped (pool_laws rfl (by decide) (by decide)) (fun _ => 0) rfl [] (by simp)
    (Set.singleton_subset_iff.mpr (by decide : 0x8000 < 0x100000)) fun x hle hlt => ?_
  unfold pml4Addr at hle
  unfold pdptAddr at hlt
  refine ⟨show x < 0x100000 by omega, ?_⟩
  rintro rfl
  omega

end KmallocKfree.Vme
