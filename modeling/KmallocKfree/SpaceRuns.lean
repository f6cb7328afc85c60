import KmallocKfree.FallibleRuns
import KmallocKfree.Mappings
import KmallocKfree.Startup
import KmallocKfree.Teardown
import KmallocKfree.Translation

/-!
# Runs of the address spaces

Any sequence of calls, for any number of address spaces at a time. What the processor makes
of the tables is what the calls mean for the spaces; the pages of the allocator are accounted
for by the tables of the spaces that are protected.
-/
namespace KmallocKfree.Vme

inductive Call where
  | protect (as : ℕ)
  | unprotect (as : ℕ)
  | map (as va pa prot : ℕ)
  deriving DecidableEq

section Calls

variable {α : Type} (c : Arch) (P : Pager α)

def Call.exec : Call → Vm α → Except Panic (Vm α)
  | .protect as, s => Vme.protect c P as s
  | .unprotect as, s => .ok (Vme.unprotect c P as s)
  | .map as va pa prot, s => Vme.map c P as va pa prot s

/-- What a call means for the spaces. -/
def Call.means : Call → Spaces → Except Panic Spaces
  | .protect as, σ => .ok (addSpace σ as)
  | .unprotect as, σ => .ok (removeSpace σ as)
  | .map as va pa prot, σ => (σ as).elim (.ok σ) fun μ => mapSpace c σ as μ va pa prot

/-- What is asked of the caller: a space is protected before it is used, and not twice. -/
def Call.Proper (K : Kernel α) (σ : Spaces) : Call → Prop
  | .protect as => as ∈ K.cells ∧ as ∉ roots σ
  | .unprotect as => as ∈ roots σ
  | .map as va pa _ => as ∈ roots σ ∧ va < 2 ^ K.arch.wordBits ∧ pa < 2 ^ K.arch.wordBits

/-- No space is protected. -/
def noSpaces : Spaces := fun _ => none

end Calls

section Runs

variable {α : Type} {K : Kernel α} {σ σ' : Spaces} {s : Vm α} {as va : ℕ} {μ : Space} {a : Call}

@[simp] theorem roots_noSpaces : roots noSpaces = ∅ := by
  rw [Set.eq_empty_iff_forall_notMem]
  rintro as ⟨μ, hμ⟩
  cases hμ

/-- After `vme_init` there are no spaces. -/
theorem Inv.start (K : Kernel α) : Inv K noSpaces K.start where
  cells := by simp
  forest := ⟨by simp⟩
  pages := by simp
  fresh := by simp
  entries := by simp
  top := by simp
  kernel := by simp
  leaf := fun _ _ hμ => by cases hμ
  frames := fun _ _ hμ => by cases hμ
  kpt := rfl
  memory := fun _ _ _ => rfl
  good := K.start_good

/-- Memory runs out: `pgalloc` returns 0 to a call, which panics. A walk has asked it for at most
one page for each level before. -/
def Kernel.OutOfPages (K : Kernel α) (s : Vm α) (e : Panic) : Prop :=
  e = .cannotAllocate ∧
    RunsOut K.arch K.pager K.live K.used K.arch.pgtables.length s.pages s.mem

/-- Each call does what it means, unless memory runs out. -/
theorem Inv.call (h : Inv K σ s) (ha : a.Proper K σ) :
    Refines (K.OutOfPages s) (Inv K) (a.exec K.arch K.pager s) (a.means K.arch σ) := by
  cases a with
  | protect as =>
    rcases protect_spec h ha.1 ha.2 with ⟨hfail, hzero⟩ | hok
    · exact .inr ⟨_, hfail, rfl, .now hzero⟩
    · exact .inl hok
  | unprotect as => exact .inl ⟨_, rfl, unprotect_spec h ha⟩
  | map as va pa prot =>
    obtain ⟨⟨μ, hμ⟩, hva, hpa⟩ := ha
    have hspec := map_spec prot h hμ hva hpa
    rw [Call.exec, Call.means, hμ, Option.elim_some]
    rcases hspec with ⟨hfail, hout⟩ | hspec
    · rw [hfail]
      exact Refines.stopped ⟨rfl, hout⟩
    · cases hmap : mapSpace K.arch σ as μ va pa prot with
      | error e =>
        rw [hmap] at hspec
        exact .inl hspec
      | ok σ' =>
        rw [hmap] at hspec
        exact .inl hspec

theorem inv_runSteps (K : Kernel α) {l : List Call}
    (hl : StepsMeet (Call.means K.arch) (Call.Proper K) l noSpaces) :
    Refines (StopsAt (Call.exec K.arch K.pager) K.OutOfPages l K.start) (Inv K)
      (runSteps (Call.exec K.arch K.pager) l K.start) (runSteps (Call.means K.arch) l noSpaces) :=
  refines_runSteps (fun _ _ _ hinv ha => hinv.call ha) l noSpaces K.start (.start K) hl

/-- What a run of calls leaves mapped is in the user's area, page by page. -/
def Spaces.InArea (c : Arch) (σ : Spaces) : Prop :=
  ∀ as μ va x, σ as = some μ → μ va = some x →
    (c.uvmArea.start ≤ va ∧ va < c.uvmArea.stop) ∧ c.pgsize ∣ va

theorem inArea_update {c : Arch} (h : σ.InArea c) {x : Option Space}
    (hx : ∀ μ va y, x = some μ → μ va = some y →
      (c.uvmArea.start ≤ va ∧ va < c.uvmArea.stop) ∧ c.pgsize ∣ va) :
    Spaces.InArea c (Function.update σ as x) := by
  intro r μ va y hμ hy
  by_cases hr : r = as
  · subst hr
    rw [Function.update_self] at hμ
    exact hx μ va y hμ hy
  · rw [Function.update_of_ne hr] at hμ
    exact h r μ va y hμ hy

theorem inArea_means {c : Arch} (h : σ.InArea c) (ha : a.means c σ = .ok σ') : σ'.InArea c := by
  cases a with
  | protect as =>
    cases ha
    refine inArea_update h fun μ va y hμ hy => ?_
    cases hμ
    cases hy
  | unprotect as =>
    cases ha
    refine inArea_update h fun μ va y hμ _ => ?_
    cases hμ
  | map as va pa prot =>
    rw [Call.means] at ha
    cases hμ : σ as with
    | none =>
      rw [hμ] at ha
      cases ha
      exact h
    | some μ =>
      rw [hμ, Option.elim_some, mapSpace] at ha
      have hremap : ∀ x, (c.uvmArea.start ≤ va ∧ va < c.uvmArea.stop) → c.pgsize ∣ va →
          Spaces.InArea c (remap σ as μ va x) := by
        intro x harea hdvd
        refine inArea_update h fun μ' va' y hμ' hy => ?_
        cases hμ'
        by_cases hva : va' = va
        · subst hva
          exact ⟨harea, hdvd⟩
        · rw [Function.update_of_ne hva] at hy
          exact h as μ va' y hμ hy
      split_ifs at ha with h₁ h₂ h₃ h₄ h₅ <;> cases ha
      · exact hremap none h₁ h₂.1
      · exact hremap _ h₁ h₂.1

/-- The processor sees the spaces. -/
structure Kernel.Shows (K : Kernel α) (σ : Spaces) (s : Vm α) : Prop where
  user : ∀ as μ, σ as = some μ → ∀ va, K.Private va →
    translate K.arch s.mem (s.mem as) va =
      (μ (va / 4096 * 4096)).map fun x => ⟨x.1 + va % 4096, x.2, true⟩
  area : σ.InArea K.arch
  kernel : ∀ as ∈ roots σ, ∀ va, indexof va K.arch.first ∈ kernelIndexes K.arch →
    translate K.arch s.mem (s.mem as) va = translate K.arch K.start.mem K.start.kpt va
  denied : ∀ as ∈ roots σ, ∀ va, indexof va K.arch.first ∈ kernelIndexes K.arch →
    ∀ x, translate K.arch s.mem (s.mem as) va = some x → x.user = false

theorem Inv.shows (h : Inv K σ s) (hσ : σ.InArea K.arch) : K.Shows σ s where
  user := fun _ _ hμ _ hva => h.translate_user hμ hva
  area := hσ
  kernel := fun _ has _ hva => h.translate_kernel has hva
  denied := fun _ has _ hva _ hx => by
    rw [h.translate_kernel has hva] at hx
    exact K.translate_not_user hva hx

end Runs

section Pool

/-- The lowest free page of `n` pages from `first` on. -/
def nextPage (first n : ℕ) (a : List ℕ) : Option ℕ :=
  ((List.range n).map (first + 4096 * ·)).find? (· ∉ a)

/-- A simple allocator; its state are the pages that it has handed out. -/
def pool (first n : ℕ) : Pager (List ℕ) where
  pgalloc _ a m :=
    match nextPage first n a with
    | some q => (q, q :: a, m)
    | none => (0, a, m)
  pgfree q a m := (a.filter (· ≠ q), m)

theorem nextPage_some {first n q : ℕ} {a : List ℕ} (h : nextPage first n a = some q) :
    q ∉ a ∧ ∃ i < n, q = first + 4096 * i := by
  unfold nextPage at h
  have hfree := List.find?_some h
  obtain ⟨i, hi, hq⟩ := List.mem_map.mp (List.mem_of_find?_eq_some h)
  exact ⟨of_decide_eq_true hfree, i, List.mem_range.mp hi, hq.symm⟩

/-- A pool above the memory that is in use keeps the laws. -/
theorem pool_laws {c : Arch} {first n : ℕ} (hsize : c.pgsize = 4096) (hdvd : 4096 ∣ first)
    (hend : first + 4096 * n ≤ 2 ^ c.wordBits) :
    Laws c (pool first n) (fun a => {q | q ∈ a}) {x | x < first}
      (fun a _ => ∀ q ∈ a, ∃ i < n, q = first + 4096 * i) := by
  refine ⟨?_, ?_, ?_, ?_, ?_, ?_⟩
  · intro a m hgood q hq
    obtain ⟨i, hi, rfl⟩ := hgood q hq
    rw [hsize]
    refine ⟨by omega, by omega, ?_⟩
    intro x hx hin
    have hx' : x < first := hx
    exact absurd hin.1 (by omega)
  · intro a m hgood hne
    cases h : nextPage first n a with
    | none =>
      simp only [pool, h] at hne
      exact absurd rfl hne
    | some q =>
      obtain ⟨hnot, hplace⟩ := nextPage_some h
      simp only [pool, h]
      refine ⟨hnot, Set.ext fun u => List.mem_cons, ?_⟩
      intro u hu
      rcases List.mem_cons.mp hu with rfl | hu
      · exact hplace
      · exact hgood u hu
  · intro a m _ x _
    cases h : nextPage first n a with
    | none => simp only [pool, h]
    | some q => simp only [pool, h]
  · intro a m hgood q _
    refine ⟨Set.ext fun u => ?_, fun u hu => hgood u (List.mem_filter.mp hu).1⟩
    simp [pool, List.mem_filter]
  · exact fun _ _ _ _ _ _ _ => rfl
  · exact fun _ _ _ hgood _ => hgood

/-- A pool is exhausted when all of its pages are handed out. -/
theorem pool_runsOut {c : Arch} {used : Set ℕ} {first n k : ℕ} {a : List ℕ} {m : Words}
    (hpos : 0 < first) (h : RunsOut c (pool first n) (fun a => {q | q ∈ a}) used k a m) :
    n ≤ a.length + k := by
  induction h with
  | @now k a m hzero =>
    have hall : ∀ q ∈ (List.range n).map (first + 4096 * ·), q ∈ a := by
      cases hnext : nextPage first n a with
      | none =>
        intro q hq
        have hin := List.find?_eq_none.mp hnext q hq
        simpa using hin
      | some q =>
        obtain ⟨-, i, -, hq⟩ := nextPage_some hnext
        simp only [pool, hnext] at hzero
        omega
    have hnodup : ((List.range n).map (first + 4096 * ·)).Nodup :=
      List.Nodup.map (fun i j hij => by simpa using hij) List.nodup_range
    have hlen := (hnodup.subperm hall).length_le
    rw [List.length_map, List.length_range] at hlen
    omega
  | @given k a m hne _ ih =>
    cases hnext : nextPage first n a with
    | none =>
      simp only [pool, hnext] at hne
      exact absurd rfl hne
    | some q =>
      simp only [pool, hnext, List.length_cons] at ih
      omega
  | write _ _ ih => exact ih

/-- A machine with 256 pages above the first MiB, and two places for address spaces. -/
def poolKernel : Kernel (List ℕ) :=
  kernel64 (pool 0x100000 256) (fun a => {q | q ∈ a}) {x | x < 0x100000} {0x8000, 0x8100}
    (fun a _ => ∀ q ∈ a, ∃ i < 256, q = 0x100000 + 4096 * i)
    (pool_laws rfl (by decide) (by decide))
    (by
      rintro x (rfl | rfl)
      · exact (by decide : 0x8000 < 0x100000)
      · exact (by decide : 0x8100 < 0x100000))
    (by
      intro x hle hlt
      unfold pml4Addr at hle
      unfold pdptAddr at hlt
      refine ⟨show x < 0x100000 by omega, ?_⟩
      rintro (rfl | rfl)
      · omega
      · omega)
    (fun _ => 0) rfl [] (by simp)

/-- Two spaces with a page at the same address; the first one is given up. -/
def twoSpaces : List Call :=
  [.protect 0x8000, .protect 0x8100, .map 0x8000 0x100000000000 0x300000 mmapWrite,
    .map 0x8100 0x100000000000 0x301000 1, .unprotect 0x8000]

theorem twoSpaces_proper : StepsMeet (Call.means poolKernel.arch) (Call.Proper poolKernel)
    twoSpaces noSpaces := by
  refine ⟨⟨.inl rfl, by simp⟩, ?_⟩
  rintro _ ⟨⟩
  refine ⟨⟨.inr rfl, ?_⟩, ?_⟩
  · simp [mem_roots_addSpace]
  rintro _ ⟨⟩
  refine ⟨⟨by simp [mem_roots_addSpace], by decide, by decide⟩, ?_⟩
  rintro _ ⟨⟩
  refine ⟨⟨⟨_, rfl⟩, by decide, by decide⟩, ?_⟩
  rintro _ ⟨⟩
  exact ⟨⟨_, rfl⟩, fun _ _ => trivial⟩

end Pool

section Theorems

variable {α : Type}

/-- The page tables of all spaces are, after any calls, what the calls mean: the walk of the
processor agrees with the map, and panics are those of the maps. Otherwise `pgalloc` has returned
0 to a call. -/
theorem spaces_translated (K : Kernel α) (l : List Call)
    (hl : StepsMeet (Call.means K.arch) (Call.Proper K) l noSpaces) :
    Refines (StopsAt (Call.exec K.arch K.pager) K.OutOfPages l K.start) K.Shows
      (runSteps (Call.exec K.arch K.pager) l K.start)
      (runSteps (Call.means K.arch) l noSpaces) := by
  refine (inv_runSteps K hl).mono fun σ s hσ hinv => hinv.shows ?_
  refine runSteps_invariant (fun _ _ _ h ha => inArea_means h ha) l noSpaces σ ?_ hσ
  rintro as μ va x hμ -
  cases hμ

/-- No page is missing in the run, and one space is left. -/
theorem twoSpaces_ok :
    (runSteps (Call.exec poolKernel.arch poolKernel.pager) twoSpaces poolKernel.start).isOk = true ∧
      (runSteps (Call.means poolKernel.arch) twoSpaces noSpaces).isOk = true ∧
      ∀ σ, runSteps (Call.means poolKernel.arch) twoSpaces noSpaces = .ok σ →
        (∀ as ∈ roots σ, as = 0x8100) ∧
          ∃ μ, σ 0x8100 = some μ ∧ μ 0x100000000000 = some (0x301000, false) := by
  refine ⟨by decide +kernel, by decide +kernel, ?_⟩
  rintro σ ⟨⟩
  refine ⟨fun as has => ?_, _, rfl, rfl⟩
  rw [mem_roots_removeSpace, roots_remap rfl, roots_remap rfl, mem_roots_addSpace,
    mem_roots_addSpace, roots_noSpaces] at has
  obtain ⟨hne, hlast | hfirst | hnone⟩ := has
  · exact hlast
  · exact absurd hfirst hne
  · cases hnone

theorem spaces_translated_twoSpaces : ∃ σ s,
    runSteps (Call.means poolKernel.arch) twoSpaces noSpaces = .ok σ ∧
      runSteps (Call.exec poolKernel.arch poolKernel.pager) twoSpaces poolKernel.start = .ok s ∧
      poolKernel.Shows σ s ∧
      translate x8664 s.mem (s.mem 0x8100) 0x100000000123 = some ⟨0x301123, false, true⟩ := by
  obtain ⟨hexec, hmeans, hleft⟩ := twoSpaces_ok
  obtain ⟨σ, s, hσ, hs, hshows⟩ :=
    (spaces_translated poolKernel twoSpaces twoSpaces_proper).ok hexec hmeans
  obtain ⟨-, μ, hμ, hpage⟩ := hleft σ hσ
  have hprivate : poolKernel.Private 0x100000000123 := by
    unfold Kernel.Private
    decide +kernel
  have huser := hshows.user 0x8100 μ hμ 0x100000000123 hprivate
  rw [hpage] at huser
  exact ⟨σ, s, hσ, hs, hshows, huser⟩

/-- The pages with tables of a space. -/
def Kernel.tables (K : Kernel α) (m : Words) (as : ℕ) : Set ℕ :=
  {u | ∃ p, p ≠ [] ∧ PathIn (inner K.arch) p ∧ K.table m as p = some u}

/-- The words of an `AddrSpace`: `pgsize` and `area` are before `ptr`. `protect` writes these too,
and nothing here reads them. -/
def Kernel.InRecord (K : Kernel α) (x : ℕ) : Prop :=
  ∃ as ∈ K.cells, x ≤ as ∧ as ≤ x + 3 * K.arch.wordSize

/-- The pages that are handed out are those from before and the tables of the spaces, each of
one space; memory in use outside the records of the spaces is what it was. -/
structure Kernel.Accounts (K : Kernel α) (σ : Spaces) (s : Vm α) : Prop where
  pages : K.live s.pages = K.live K.start.pages ∪ ⋃ as ∈ roots σ, K.tables s.mem as
  fresh : ∀ as ∈ roots σ, ∀ u ∈ K.tables s.mem as, u ∉ K.live K.start.pages
  apart : ∀ as ∈ roots σ, ∀ as' ∈ roots σ, as ≠ as' →
    ∀ u ∈ K.tables s.mem as, u ∉ K.tables s.mem as'
  memory : ∀ x ∈ K.used, ¬K.InRecord x → s.mem x = K.start.mem x
  good : K.good s.pages s.mem

theorem Inv.accounts (h : Inv K σ s) : K.Accounts σ s where
  pages := by
    ext u
    rw [h.pages u]
    simp [Kernel.tables]
  fresh := by
    rintro as has u ⟨p, hp, hpi, hu⟩
    exact h.fresh as has p u hp hpi hu
  apart := by
    rintro as has as' has' hne u ⟨p, -, hp, hu⟩ ⟨p', -, hp', hu'⟩
    exact hne (h.forest.unique as has as' has' p p' u hp hp' hu hu').1
  memory := fun x hx hrecord =>
    h.memory x hx fun hcell => hrecord ⟨x, hcell, le_rfl, Nat.le_add_right ..⟩
  good := h.good

/-- No page of a table is lost, freed twice or used twice: after any calls all of them are
accounted for, and when no space is left they are all given back; or `pgalloc` has returned 0. -/
theorem pages_accounted (K : Kernel α) (l : List Call)
    (hl : StepsMeet (Call.means K.arch) (Call.Proper K) l noSpaces) :
    Refines (StopsAt (Call.exec K.arch K.pager) K.OutOfPages l K.start)
      (fun σ s => K.Accounts σ s ∧ (roots σ = ∅ → K.live s.pages = K.live K.start.pages))
      (runSteps (Call.exec K.arch K.pager) l K.start)
      (runSteps (Call.means K.arch) l noSpaces) := by
  refine (inv_runSteps K hl).mono fun σ s _ hinv => ⟨hinv.accounts, fun hnone => ?_⟩
  rw [hinv.accounts.pages, hnone]
  simp

/-- Both spaces are given up in the end, and with them the pages of their tables. -/
theorem pages_accounted_twoSpaces : ∃ σ s,
    runSteps (Call.means poolKernel.arch) (twoSpaces ++ [.unprotect 0x8100]) noSpaces = .ok σ ∧
      runSteps (Call.exec poolKernel.arch poolKernel.pager) (twoSpaces ++ [.unprotect 0x8100])
        poolKernel.start = .ok s ∧
      poolKernel.Accounts σ s ∧ roots σ = ∅ ∧
      poolKernel.live s.pages = poolKernel.live poolKernel.start.pages := by
  have hproper : StepsMeet (Call.means poolKernel.arch) (Call.Proper poolKernel)
      (twoSpaces ++ [.unprotect 0x8100]) noSpaces :=
    stepsMeet_snoc twoSpaces_proper fun σ hσ => by
      obtain ⟨-, μ, hμ, -⟩ := twoSpaces_ok.2.2 σ hσ
      exact ⟨μ, hμ⟩
  obtain ⟨σ, s, hσ, hs, haccounts, hback⟩ :=
    (pages_accounted poolKernel (twoSpaces ++ [.unprotect 0x8100]) hproper).ok
      (by decide +kernel) (by decide +kernel)
  have hnone : roots σ = ∅ := by
    obtain ⟨σ', hσ', hlast⟩ := runSteps_snoc hσ
    cases hlast
    rw [Set.eq_empty_iff_forall_notMem]
    intro as has
    rw [mem_roots_removeSpace] at has
    exact has.1 (twoSpaces_ok.2.2 σ' hσ' |>.1 as has.2)
  exact ⟨σ, s, hσ, hs, haccounts, hnone, hback hnone⟩

end Theorems
end KmallocKfree.Vme
