import KmallocKfree.PageTables

/-!
# The invariant of the address spaces

An address space is meant to be a partial map from pages to frames with a right to write.
`Inv` says how the tables in memory hold such maps: the tables of all spaces are a forest
of pages that the allocator counts as handed out, entries that lead on let the user write,
the kernel's entries are the same everywhere, and the entries of the last level are the
map. One allocation, one link and one store keep it.
-/
namespace KmallocKfree.Vme

/-- A user's memory: the frame of a page, and whether it may be written. -/
abbrev Space := ℕ → Option (ℕ × Bool)

/-- The protected address spaces, each under the address of its `ptr`. -/
abbrev Spaces := ℕ → Option Space

def roots (σ : Spaces) : Set ℕ := {as | ∃ μ, σ as = some μ}

/-- The entry for a frame. -/
def pteOf (x : ℕ × Bool) : ℕ := x.1 ||| pteP ||| pteU ||| if x.2 then pteW else 0

section Memory

variable {α : Type} (c : Arch) (P : Pager α) (live : α → Set ℕ) (used : Set ℕ)
  (good : α → Words → Prop)

def InPage (q x : ℕ) : Prop := q ≤ x ∧ x < q + c.pgsize

/-- Memory that is no business of the allocator's: what is used for other things, and the pages
that it has handed out. -/
def Kept (a : α) (x : ℕ) : Prop := x ∈ used ∨ ∃ q ∈ live a, InPage c q x

/-- What is asked of `pgalloc` and `pgfree`: whole pages, none twice, and no writes to memory in
use. They may keep what they need in their state and in the rest of memory (`good` is their
invariant), as long as nobody else writes there and only pages handed out are freed. -/
structure Laws : Prop where
  page : ∀ a m, good a m → ∀ q ∈ live a, c.pgsize ∣ q ∧ q + c.pgsize ≤ 2 ^ c.wordBits ∧
    ∀ x ∈ used, ¬InPage c q x
  alloc : ∀ a m, good a m → (P.pgalloc c.pgsize a m).1 ≠ 0 →
    (P.pgalloc c.pgsize a m).1 ∉ live a ∧
    live (P.pgalloc c.pgsize a m).2.1 = insert (P.pgalloc c.pgsize a m).1 (live a) ∧
    good (P.pgalloc c.pgsize a m).2.1 (P.pgalloc c.pgsize a m).2.2
  alloc_mem : ∀ a m, good a m → ∀ x, Kept c live used a x → (P.pgalloc c.pgsize a m).2.2 x = m x
  free : ∀ a m, good a m → ∀ q ∈ live a, live (P.pgfree q a m).1 = live a \ {q} ∧
    good (P.pgfree q a m).1 (P.pgfree q a m).2
  free_mem : ∀ a m, good a m → ∀ q ∈ live a, ∀ x, Kept c live used (P.pgfree q a m).1 x →
    (P.pgfree q a m).2 x = m x
  stable : ∀ a m m', good a m → (∀ x, ¬Kept c live used a x → m' x = m x) → good a m'

/-- `pgalloc` returns 0, after it has given at most `n` pages; in between its caller writes to
memory in use only. -/
inductive RunsOut : ℕ → α → Words → Prop
  | now {n : ℕ} {a : α} {m : Words} : (P.pgalloc c.pgsize a m).1 = 0 → RunsOut n a m
  | given {n : ℕ} {a : α} {m : Words} : (P.pgalloc c.pgsize a m).1 ≠ 0 →
      RunsOut n (P.pgalloc c.pgsize a m).2.1 (P.pgalloc c.pgsize a m).2.2 → RunsOut (n + 1) a m
  | write {n : ℕ} {a : α} {m m' : Words} : (∀ x, ¬Kept c live used a x → m' x = m x) →
      RunsOut n a m' → RunsOut n a m

variable {c P live used good}

theorem RunsOut.mono {n k : ℕ} {a : α} {m : Words} (h : RunsOut c P live used n a m)
    (hle : n ≤ k) : RunsOut c P live used k a m := by
  induction h generalizing k with
  | now hzero => exact .now hzero
  | given hne _ ih =>
    obtain ⟨k, rfl⟩ := Nat.exists_eq_succ_of_ne_zero (by omega : k ≠ 0)
    exact .given hne (ih (by omega))
  | write hsame _ ih => exact .write hsame (ih hle)

/-- Only the size of pages matters. -/
theorem RunsOut.congr {c' : Arch} {n : ℕ} {a : α} {m : Words} (hsize : c'.pgsize = c.pgsize)
    (h : RunsOut c P live used n a m) : RunsOut c' P live used n a m := by
  have hkept : ∀ a x, Kept c' live used a x ↔ Kept c live used a x := by
    intro a x
    simp only [Kept, InPage, hsize]
  induction h with
  | now hzero => exact .now (hsize ▸ hzero)
  | given hne _ ih =>
    rw [← hsize] at hne ih
    exact .given hne ih
  | write hsame _ ih => exact .write (fun x hx => hsame x (mt (hkept _ x).mpr hx)) ih

/-- One write to memory in use. -/
theorem RunsOut.of_write {n x v : ℕ} {a : α} {m : Words} (hx : Kept c live used a x)
    (h : RunsOut c P live used n a (Vme.write m x v)) : RunsOut c P live used n a m := by
  refine .write (fun y hy => if_neg ?_) h
  rintro rfl
  exact hy hx

/-- An address determines its page. -/
theorem InPage.base {q x : ℕ} (h : InPage c q x) (hdvd : c.pgsize ∣ q) :
    x / c.pgsize * c.pgsize = q := by
  obtain ⟨y, rfl⟩ := hdvd
  obtain ⟨hle, hlt⟩ := h
  have hdiv : x / c.pgsize = y := by
    refine Nat.div_eq_of_lt_le ?_ ?_
    · rw [Nat.mul_comm]
      exact hle
    · rw [Nat.succ_mul, Nat.mul_comm y]
      exact hlt
  rw [hdiv, Nat.mul_comm]

theorem Laws.page_apart (laws : Laws c P live used good) {a : α} {m : Words} {q q' x : ℕ}
    (hgood : good a m) (hq : q ∈ live a) (hq' : q' ∈ live a) (hx : InPage c q x)
    (hx' : InPage c q' x) : q = q' := by
  rw [← hx.base (laws.page a m hgood q hq).1, hx'.base (laws.page a m hgood q' hq').1]

/-- Pages that are never freed may count as memory in use: the others keep the laws. -/
theorem Laws.keep (laws : Laws c P live used good) (T : Set ℕ) :
    Laws c P (fun a => live a \ T) (used ∪ {x | ∃ q ∈ T, InPage c q x})
      (fun a m => good a m ∧ T ⊆ live a) := by
  have hkept : ∀ a x, T ⊆ live a →
      Kept c (fun a => live a \ T) (used ∪ {x | ∃ q ∈ T, InPage c q x}) a x →
        Kept c live used a x := by
    rintro a x hT ((hx | ⟨q, hq, hx⟩) | ⟨q, ⟨hq, -⟩, hx⟩)
    · exact .inl hx
    · exact .inr ⟨q, hT hq, hx⟩
    · exact .inr ⟨q, hq, hx⟩
  have hfree : ∀ a m, good a m → T ⊆ live a → ∀ q ∈ live a \ T,
      T ⊆ live (P.pgfree q a m).1 := by
    intro a m hgood hT q hq u hu
    rw [(laws.free a m hgood q hq.1).1]
    refine ⟨hT hu, ?_⟩
    rintro rfl
    exact hq.2 hu
  refine ⟨?_, ?_, ?_, ?_, ?_, ?_⟩
  · rintro a m ⟨hgood, hT⟩ q ⟨hq, hqT⟩
    obtain ⟨hdvd, hle, hused⟩ := laws.page a m hgood q hq
    refine ⟨hdvd, hle, ?_⟩
    rintro x (hx | ⟨q', hq', hx⟩) hin
    · exact hused x hx hin
    · exact hqT (laws.page_apart hgood hq (hT hq') hin hx ▸ hq')
  · rintro a m ⟨hgood, hT⟩ hne
    obtain ⟨hnot, hlive, hgood'⟩ := laws.alloc a m hgood hne
    refine ⟨fun hq => hnot hq.1, ?_, hgood', ?_⟩
    · simp only [hlive]
      exact Set.insert_sdiff_of_notMem _ fun hq => hnot (hT hq)
    · rw [hlive]
      exact hT.trans (Set.subset_insert _ _)
  · rintro a m ⟨hgood, hT⟩ x hx
    exact laws.alloc_mem a m hgood x (hkept a x hT hx)
  · rintro a m ⟨hgood, hT⟩ q hq
    obtain ⟨hlive, hgood'⟩ := laws.free a m hgood q hq.1
    refine ⟨?_, hgood', hfree a m hgood hT q hq⟩
    simp only [hlive]
    exact Set.sdiff_sdiff_comm
  · rintro a m ⟨hgood, hT⟩ q hq x hx
    exact laws.free_mem a m hgood q hq.1 x (hkept _ x (hfree a m hgood hT q hq) hx)
  · rintro a m m' ⟨hgood, hT⟩ hsame
    exact ⟨laws.stable a m m' hgood fun x hx => hsame x fun hx' => hx (hkept a x hT hx'), hT⟩

end Memory

/-- A machine after `vme_init`: the allocator, the memory used for other things (the fields
`ptr` of address spaces among it, at `cells`), and the tables of the kernel. -/
structure Kernel (α : Type) where
  arch : Arch
  pager : Pager α
  live : α → Set ℕ
  used : Set ℕ
  cells : Set ℕ
  good : α → Words → Prop
  start : Vm α
  wf : arch.Wf
  laws : Laws arch pager live used good
  start_good : good start.pages start.mem
  cells_used : cells ⊆ used
  kpt_base : baseof arch start.kpt = start.kpt
  kpt_used : ∀ k ∈ kernelIndexes arch,
    entry arch start.kpt k ∈ used ∧ entry arch start.kpt k ∉ cells
  kpt_kernel : ∀ k ∈ kernelIndexes arch, start.mem (entry arch start.kpt k) &&& pteU = 0
  kpt_closed : ∀ m : Words, (∀ x ∈ used, x ∉ cells → m x = start.mem x) →
    ∀ va, indexof va arch.first ∈ kernelIndexes arch →
      translateFrom arch m va arch.pgtables.tail start.kpt =
        translateFrom arch start.mem va arch.pgtables.tail start.kpt

section Invariant

variable {α : Type} (K : Kernel α)

/-- The table at a path of an address space. -/
def Kernel.table (m : Words) (as : ℕ) (p : List ℕ) : Option ℕ :=
  descend (child K.arch) (entry K.arch) m as p

/-- The entry of an address, if it is present. -/
def Kernel.mapped (m : Words) (as va : ℕ) : Option ℕ :=
  (K.table m as (path K.arch va)).bind fun t =>
    let e := m (entry K.arch t (leafIndex K.arch va))
    if e &&& pteP = 0 then none else some e

/-- An address behind an entry of the first level that is not the kernel's. -/
def Kernel.Private (va : ℕ) : Prop :=
  va < 2 ^ (K.arch.first.shift + K.arch.first.bits) ∧
    indexof va K.arch.first ∉ kernelIndexes K.arch

/-- An entry that leads on to a table of the address space. -/
def Leads (p : List ℕ) (e : ℕ) : Prop :=
  e &&& pteU ≠ 0 ∧ e &&& ptePS = 0 ∧ (p ≠ [] → e &&& pteW ≠ 0)

structure Inv (σ : Spaces) (s : Vm α) : Prop where
  cells : ∀ as ∈ roots σ, as ∈ K.cells
  forest : Forest (child K.arch) (entry K.arch) s.mem (inner K.arch) (roots σ)
  pages : ∀ u, u ∈ K.live s.pages ↔ u ∈ K.live K.start.pages ∨
    ∃ as ∈ roots σ, ∃ p, p ≠ [] ∧ PathIn (inner K.arch) p ∧ K.table s.mem as p = some u
  fresh : ∀ as ∈ roots σ, ∀ p u, p ≠ [] → PathIn (inner K.arch) p →
    K.table s.mem as p = some u → u ∉ K.live K.start.pages
  entries : ∀ as ∈ roots σ, ∀ p t k, PathIn (inner K.arch) (p ++ [k]) →
    K.table s.mem as p = some t → s.mem (entry K.arch t k) &&& pteP ≠ 0 →
      Leads p (s.mem (entry K.arch t k)) ∨ p.length = 1 ∧ k ∈ kernelIndexes K.arch
  top : ∀ as ∈ roots σ, ∃ t, K.table s.mem as [0] = some t
  kernel : ∀ as ∈ roots σ, ∀ t, K.table s.mem as [0] = some t → ∀ k ∈ kernelIndexes K.arch,
    s.mem (entry K.arch t k) = K.start.mem (entry K.arch K.start.kpt k)
  leaf : ∀ as μ, σ as = some μ → ∀ va, K.Private va → 4096 ∣ va →
    K.mapped s.mem as va = (μ va).map pteOf
  frames : ∀ as μ, σ as = some μ → ∀ va x, μ va = some x →
    4096 ∣ x.1 ∧ x.1 < 2 ^ K.arch.wordBits
  kpt : s.kpt = K.start.kpt
  memory : ∀ x ∈ K.used, x ∉ K.cells → s.mem x = K.start.mem x
  good : K.good s.pages s.mem

end Invariant

section Allocation

variable {α : Type} {c : Arch}

/-- Writes to memory in use do not disturb the allocator. -/
theorem good_write {K : Kernel α} {a : α} {m : Words} {x : ℕ} (v : ℕ) (h : K.good a m)
    (hx : Kept K.arch K.live K.used a x) : K.good a (write m x v) := by
  refine K.laws.stable a m _ h fun y hy => ?_
  rw [write, if_neg]
  rintro rfl
  exact hy hx

theorem clearWords_eq (base n : ℕ) (m : Words) (x : ℕ) : clearWords c base n m x =
    if ∃ i < n, x = entry c base i then 0 else m x := by
  induction n with
  | zero => simp [clearWords]
  | succ n ih =>
    rw [clearWords, write, ih]
    by_cases hx : x = entry c base n
    · rw [if_pos hx, if_pos ⟨n, by omega, hx⟩]
    · rw [if_neg hx]
      refine if_congr ⟨?_, ?_⟩ rfl rfl
      · rintro ⟨i, hi, h⟩
        exact ⟨i, by omega, h⟩
      · rintro ⟨i, hi, h⟩
        exact ⟨i, by have : i ≠ n := fun he => hx (he ▸ h); omega, h⟩

/-- A new page is blank, and nothing in use is changed. -/
structure NewPage (K : Kernel α) (s s' : Vm α) (q : ℕ) : Prop where
  fresh : q ∉ K.live s.pages
  live : K.live s'.pages = insert q (K.live s.pages)
  kpt : s'.kpt = s.kpt
  mem : ∀ x, Kept K.arch K.live K.used s.pages x → s'.mem x = s.mem x
  good : K.good s'.pages s'.mem
  blank : ∀ k, k * K.arch.wordSize + K.arch.wordSize ≤ 4096 →
    s'.mem (entry K.arch q k) = 0
  runsOut : ∀ n, RunsOut K.arch K.pager K.live K.used n s'.pages s'.mem →
    RunsOut K.arch K.pager K.live K.used (n + 1) s.pages s.mem

theorem pgallocz_spec (K : Kernel α) {s : Vm α} (hgood : K.good s.pages s.mem) :
    (pgallocz K.arch K.pager s = .error .cannotAllocate ∧
        (K.pager.pgalloc K.arch.pgsize s.pages s.mem).1 = 0) ∨
      ∃ q s', pgallocz K.arch K.pager s = .ok (q, s') ∧ NewPage K s s' q := by
  have hpg := K.wf.pgsize
  have hpos := wordSize_pos K.wf
  have halloc := K.laws.alloc s.pages s.mem hgood
  have hmem := K.laws.alloc_mem s.pages s.mem hgood
  unfold pgallocz
  obtain ⟨r, hr⟩ : ∃ r, K.pager.pgalloc K.arch.pgsize s.pages s.mem = r := ⟨_, rfl⟩
  rw [hr] at halloc hmem ⊢
  by_cases hq : r.1 = 0
  · refine .inl ⟨?_, hq⟩
    simp only [hq, if_true]
    rfl
  · right
    obtain ⟨hnot, hlive, hgood'⟩ := halloc hq
    have hpage := K.laws.page r.2.1 r.2.2 hgood'
    simp only [hq, if_false]
    rw [hlive] at hpage
    obtain ⟨hdvd, hle, hused⟩ := hpage r.1 (Set.mem_insert ..)
    have hin : ∀ i < K.arch.pgsize / K.arch.wordSize,
        InPage K.arch r.1 (entry K.arch r.1 i) := by
      intro i hi
      have := Nat.mul_le_of_le_div _ _ _ (Nat.succ_le_of_lt hi)
      rw [Nat.succ_mul] at this
      exact ⟨Nat.le_add_right _ _, by unfold entry; omega⟩
    have hclear : ∀ x, ¬Kept K.arch K.live K.used r.2.1 x →
        clearWords K.arch r.1 (K.arch.pgsize / K.arch.wordSize) r.2.2 x = r.2.2 x := by
      intro x hx
      rw [clearWords_eq, if_neg]
      rintro ⟨i, hi, rfl⟩
      exact hx (.inr ⟨r.1, hlive ▸ Set.mem_insert .., hin i hi⟩)
    refine ⟨r.1, { s with
      pages := r.2.1
      mem := clearWords K.arch r.1 (K.arch.pgsize / K.arch.wordSize) r.2.2 },
      rfl, hnot, hlive, rfl, ?_, K.laws.stable _ _ _ hgood' hclear, ?_, fun n hn => ?_⟩
    · intro x hx
      change clearWords _ _ _ _ _ = _
      rw [clearWords_eq, if_neg]
      · exact hmem x hx
      · rintro ⟨i, hi, rfl⟩
        rcases hx with hx | ⟨q', hq', hx⟩
        · exact hused _ hx (hin i hi)
        · obtain ⟨hdvd', -, -⟩ := hpage q' (Set.mem_insert_of_mem _ hq')
          have hne : q' ≠ r.1 := fun h => hnot (h ▸ hq')
          have := hin i hi
          unfold InPage at this hx
          rw [hpg] at hdvd hdvd' this hx
          omega
    · intro k hk
      change clearWords _ _ _ _ _ = _
      rw [clearWords_eq, if_pos]
      refine ⟨k, ?_, rfl⟩
      rw [hpg]
      exact (Nat.le_div_iff_mul_le hpos).mpr (by rw [Nat.succ_mul]; exact hk)
    · have hnone : (K.pager.pgalloc K.arch.pgsize s.pages s.mem).1 ≠ 0 := by
        rw [hr]
        exact hq
      refine .given hnone ?_
      rw [hr]
      exact .write hclear hn

end Allocation

section Places

variable {α : Type} {K : Kernel α} {σ : Spaces} {s : Vm α} {as as' u v k j : ℕ} {p p' : List ℕ}

/-- A new page holds nothing that was in use. -/
theorem NewPage.apart {s' : Vm α} {q x : ℕ} (hn : NewPage K s s' q)
    (hx : Kept K.arch K.live K.used s.pages x) : ¬InPage K.arch q x := by
  have hq : q ∈ K.live s'.pages := hn.live ▸ Set.mem_insert ..
  intro hin
  rcases hx with hused | ⟨u, hu, hin'⟩
  · exact (K.laws.page _ _ hn.good q hq).2.2 _ hused hin
  · have hu' : u ∈ K.live s'.pages := hn.live ▸ Set.mem_insert_of_mem _ hu
    exact hn.fresh (K.laws.page_apart hn.good hq hu' hin hin' ▸ hu)

theorem NewPage.kept {s' : Vm α} {q x : ℕ} (hn : NewPage K s s' q)
    (hx : Kept K.arch K.live K.used s.pages x) : Kept K.arch K.live K.used s'.pages x := by
  rcases hx with hused | ⟨u, hu, hin⟩
  · exact .inl hused
  · exact .inr ⟨u, hn.live ▸ Set.mem_insert_of_mem _ hu, hin⟩

theorem inPage_entry (hk : k * K.arch.wordSize + K.arch.wordSize ≤ 4096) :
    InPage K.arch u (entry K.arch u k) := by
  have hpos := wordSize_pos K.wf
  refine ⟨Nat.le_add_right _ _, ?_⟩
  unfold entry
  rw [K.wf.pgsize]
  omega

/-- Where an entry of an address space is: in the field `ptr`, or in a page of the allocator. -/
theorem Inv.place (h : Inv K σ s) (has : as ∈ roots σ) (hp : PathIn (widths K.arch) (p ++ [k]))
    (hp' : PathIn (inner K.arch) p) (hu : K.table s.mem as p = some u) :
    p = [] ∧ k = 0 ∧ u = as ∧ entry K.arch u k = as ∨
      p ≠ [] ∧ u ∈ K.live s.pages ∧ k * K.arch.wordSize + K.arch.wordSize ≤ 4096 ∧
        InPage K.arch u (entry K.arch u k) := by
  by_cases hnil : p = []
  · subst hnil
    obtain rfl : as = u := by simpa [Kernel.table, descend] using hu
    obtain ⟨rfl, hentry⟩ := entry_root K.wf hp as
    exact .inl ⟨rfl, rfl, rfl, hentry⟩
  · have hlive := (h.pages u).mpr (.inr ⟨as, has, p, hnil, hp', hu⟩)
    have hk := entry_page K.wf hp hnil
    exact .inr ⟨hnil, hlive, hk, inPage_entry hk⟩

theorem Inv.kept (h : Inv K σ s) (has : as ∈ roots σ) (hp : PathIn (widths K.arch) (p ++ [k]))
    (hp' : PathIn (inner K.arch) p) (hu : K.table s.mem as p = some u) :
    Kept K.arch K.live K.used s.pages (entry K.arch u k) := by
  rcases h.place has hp hp' hu with ⟨-, -, -, hentry⟩ | ⟨-, hlive, -, hin⟩
  · rw [hentry]
    exact .inl (K.cells_used (h.cells as has))
  · exact .inr ⟨u, hlive, hin⟩

/-- Entries of address spaces at different places are apart. -/
theorem Inv.apart (h : Inv K σ s) (has : as ∈ roots σ) (hp : PathIn (widths K.arch) (p ++ [k]))
    (hpi : PathIn (inner K.arch) p) (hu : K.table s.mem as p = some u)
    (has' : as' ∈ roots σ) (hp' : PathIn (widths K.arch) (p' ++ [j]))
    (hpi' : PathIn (inner K.arch) p') (hv : K.table s.mem as' p' = some v)
    (heq : entry K.arch u k = entry K.arch v j) : as = as' ∧ p = p' ∧ u = v ∧ k = j := by
  suffices huv : u = v ∧ k = j by
    obtain ⟨rfl, rfl⟩ := huv
    obtain ⟨hr, hpp⟩ := h.forest.unique as has as' has' p p' u hpi hpi' hu hv
    exact ⟨hr, hpp, rfl, rfl⟩
  rcases h.place has hp hpi hu with ⟨-, rfl, rfl, hentry⟩ | ⟨-, hlive, hk, hin⟩
  · rcases h.place has' hp' hpi' hv with ⟨-, rfl, rfl, hentry'⟩ | ⟨-, hlive', hj, hin'⟩
    · rw [hentry, hentry'] at heq
      exact ⟨heq, rfl⟩
    · rw [← heq, hentry] at hin'
      exact absurd hin' ((K.laws.page _ _ h.good v hlive').2.2 _ (K.cells_used (h.cells _ has)))
  · rcases h.place has' hp' hpi' hv with ⟨-, rfl, rfl, hentry'⟩ | ⟨-, hlive', hj, hin'⟩
    · rw [heq, hentry'] at hin
      exact absurd hin ((K.laws.page _ _ h.good u hlive).2.2 _ (K.cells_used (h.cells _ has')))
    · have hdvd := (K.laws.page _ _ h.good u hlive).1
      have hdvd' := (K.laws.page _ _ h.good v hlive').1
      rw [K.wf.pgsize] at hdvd hdvd'
      exact entry_inj K.wf hdvd hdvd' hk hj heq

end Places
end KmallocKfree.Vme
