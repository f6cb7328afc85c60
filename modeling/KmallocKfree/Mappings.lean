import KmallocKfree.PageWalk

/-!
# Mapping and protecting

`map` changes the map of its address space at one page, or panics as the map says; `protect`
makes a space with an empty map, whose first table has the kernel's entries.
-/
namespace KmallocKfree.Vme

section Map

variable {α : Type} {K : Kernel α} {σ : Spaces} {s : Vm α} {as va pa prot : ℕ} {μ : Space}

/-- What `map` means for the spaces. -/
def mapSpace (c : Arch) (σ : Spaces) (as : ℕ) (μ : Space) (va pa prot : ℕ) :
    Except Panic Spaces :=
  if ¬(c.uvmArea.start ≤ va ∧ va < c.uvmArea.stop) then .error .invalidAddress
  else if ¬(c.pgsize ∣ va ∧ c.pgsize ∣ pa) then .error .nonPageBoundary
  else if prot = mmapNone then
    if μ va = none then .error .unmapping else .ok (remap σ as μ va none)
  else if μ va ≠ none then .error .remapping
  else .ok (remap σ as μ va (some (pa, prot &&& mmapWrite ≠ 0)))

theorem ok_bind {ε β γ : Type} (x : β) (f : β → Except ε γ) : (Except.ok x >>= f) = f x := rfl

theorem throw_bind {ε β γ : Type} (e : ε) (f : β → Except ε γ) :
    ((throw e : Except ε β) >>= f) = .error e := rfl

theorem eq_baseof_iff {c : Arch} (hc : c.Wf) {x : ℕ} (hlt : x < 2 ^ c.wordBits) :
    x = baseof c x ↔ c.pgsize ∣ x := by
  rw [hc.pgsize]
  constructor
  · intro h
    rw [h]
    exact baseof_dvd hc x
  · exact fun h => (baseof_of_dvd hc h hlt).symm

theorem pteOf_present {x : ℕ × Bool} : pteOf x &&& pteP ≠ 0 := by
  intro h
  rw [and_pteP, pteOf, Nat.testBit_or, Nat.testBit_or, Nat.testBit_or] at h
  have hp : pteP.testBit 0 = true := by decide
  simp [hp] at h

/-- The entry of an address tells whether it is mapped. -/
theorem Inv.entry_absent_iff (h : Inv K σ s) (hμ : σ as = some μ) (hprivate : K.Private va)
    (hva : 4096 ∣ va) {t : ℕ} (ht : K.table s.mem as (path K.arch va) = some t) :
    s.mem (entry K.arch t (leafIndex K.arch va)) &&& pteP = 0 ↔ μ va = none := by
  have hleaf := h.leaf as μ hμ va hprivate hva
  rw [Kernel.mapped, ht, Option.bind_some] at hleaf
  simp only at hleaf
  split_ifs at hleaf with hpres
  · simp only [hpres, true_iff]
    simpa [eq_comm] using hleaf
  · simp only [hpres, false_iff]
    intro hnone
    rw [hnone] at hleaf
    cases hleaf

/-- The second walk of `map` finds the tables of the first one. -/
theorem rewalk (h : Inv K σ s) (has : as ∈ roots σ) (hprivate : K.Private va)
    (ht : K.table s.mem as (path K.arch va) = some t) :
    ∃ s', (do
      let (_, s) ← ptwalk K.arch K.pager as va (pteW ||| pteU) s
      pure s) = Except.ok s' ∧ Inv K σ s' := by
  rcases ptwalk_spec h has hprivate with ⟨-, hnone, -⟩ | ⟨s₁, t, hwalk, hinv, -⟩
  · rw [ht] at hnone
    cases hnone
  · rw [hwalk]
    exact ⟨s₁, rfl, hinv⟩

/-- `map` does what it means, unless memory runs out. -/
theorem map_spec (prot : ℕ) (h : Inv K σ s) (hμ : σ as = some μ) (hva : va < 2 ^ K.arch.wordBits)
    (hpa : pa < 2 ^ K.arch.wordBits) :
    (map K.arch K.pager as va pa prot s = .error .cannotAllocate ∧
        RunsOut K.arch K.pager K.live K.used K.arch.pgtables.length s.pages s.mem) ∨
      match mapSpace K.arch σ as μ va pa prot with
      | .error e => map K.arch K.pager as va pa prot s = .error e
      | .ok σ' => ∃ s', map K.arch K.pager as va pa prot s = .ok s' ∧ Inv K σ' s' := by
  unfold map mapSpace
  by_cases huser : K.arch.uvmArea.start ≤ va ∧ va < K.arch.uvmArea.stop
  swap
  · rw [if_pos huser, if_pos huser]
    exact .inr rfl
  rw [if_neg (not_not.mpr huser), if_neg (not_not.mpr huser)]
  by_cases hdvd : K.arch.pgsize ∣ va ∧ K.arch.pgsize ∣ pa
  swap
  · have hne : va ≠ baseof K.arch va ∨ pa ≠ baseof K.arch pa := by
      rw [ne_eq, ne_eq, eq_baseof_iff K.wf hva, eq_baseof_iff K.wf hpa]
      tauto
    rw [if_pos hdvd, if_pos hne]
    exact .inr rfl
  have heq : ¬(va ≠ baseof K.arch va ∨ pa ≠ baseof K.arch pa) := by
    rw [ne_eq, ne_eq, eq_baseof_iff K.wf hva, eq_baseof_iff K.wf hpa]
    tauto
  rw [if_neg (not_not.mpr hdvd), if_neg heq]
  rw [K.wf.pgsize] at hdvd
  have has : as ∈ roots σ := ⟨μ, hμ⟩
  have hprivate : K.Private va := K.wf.user va huser.1 huser.2
  rcases ptwalk_spec h has hprivate with ⟨hfail, -, hout⟩ | ⟨s₁, t, hwalk, hinv, ht⟩
  · rw [hfail]
    exact .inl ⟨rfl, hout⟩
  have habsent := hinv.entry_absent_iff hμ hprivate hdvd.1 ht
  rw [hwalk]
  rw [ok_bind]
  have hroots : ∀ x, as ∈ roots (remap σ as μ va x) := fun x => by
    rw [roots_remap hμ]
    exact has
  have htab : ∀ e, K.table (stored K s₁ t va e).mem as (path K.arch va) = some t := fun e =>
    (hinv.stored_table hμ ht as has _ (pathIn_path K.wf va)).trans ht
  by_cases hprot : prot = mmapNone
  · simp only [hprot, if_true]
    by_cases hnone : μ va = none
    · rw [if_pos hnone, if_pos (habsent.mpr hnone), throw_bind]
      exact .inr rfl
    · have hstore := hinv.store (e := 0) (x := none) hμ ht hprivate hdvd.1
        (fun y hy => by cases hy) rfl
      rw [if_neg hnone, if_neg (mt habsent.mp hnone), pure_bind]
      exact .inr (rewalk hstore (hroots none) hprivate (htab 0))
  · simp only [hprot, if_false]
    by_cases hnone : μ va = none
    · have hstore := hinv.store (e := pteOf (pa, prot &&& mmapWrite ≠ 0))
        (x := some (pa, prot &&& mmapWrite ≠ 0)) hμ ht hprivate hdvd.1
        (fun y hy => by cases hy; exact ⟨hdvd.2, hpa⟩) (if_neg pteOf_present)
      rw [if_neg (not_not.mpr hnone), if_neg (not_not.mpr (habsent.mpr hnone)), pure_bind]
      have hstored := rewalk hstore (hroots _) hprivate (htab _)
      simp only [pteOf, decide_eq_true_eq] at hstored
      exact .inr hstored
    · rw [if_pos hnone, if_pos (mt habsent.mp hnone), throw_bind]
      exact .inr rfl

end Map

section CopyKernel

variable {c : Arch} {upt kpt : ℕ} {l : List ℕ} {m : Words}

theorem copyKernel_of_ne {x : ℕ} (h : ∀ k ∈ l, x ≠ entry c upt k) :
    copyKernel c upt kpt l m x = m x := by
  induction l generalizing m with
  | nil => rfl
  | cons i l ih =>
    rw [copyKernel, ih fun k hk => h k (List.mem_cons_of_mem _ hk), write,
      if_neg (h i (List.mem_cons_self ..))]

theorem copyKernel_entry (hpos : 0 < c.wordSize)
    (hsep : ∀ k ∈ l, ∀ j ∈ l, entry c kpt k ≠ entry c upt j) :
    ∀ k ∈ l, copyKernel c upt kpt l m (entry c upt k) = m (entry c kpt k) := by
  induction l generalizing m with
  | nil => intro k hk; cases hk
  | cons i l ih =>
    intro k hk
    rw [copyKernel]
    by_cases hkl : k ∈ l
    · rw [ih (fun k hk j hj =>
        hsep k (List.mem_cons_of_mem _ hk) j (List.mem_cons_of_mem _ hj)) k hkl, write,
        if_neg (hsep k hk i (List.mem_cons_self ..))]
    · obtain rfl := (List.mem_cons.mp hk).resolve_right hkl
      rw [copyKernel_of_ne, write, if_pos rfl]
      intro j hj heq
      unfold entry at heq
      obtain rfl : k = j := Nat.eq_of_mul_eq_mul_right hpos (by omega)
      exact hkl hj

end CopyKernel

section Protect

variable {α : Type} {K : Kernel α} {σ : Spaces} {s s₁ : Vm α} {as q : ℕ}

/-- The copy of the kernel's entries stays in the page. -/
theorem good_copyKernel {a : α} {m : Words} {upt kpt : ℕ} {l : List ℕ} (hgood : K.good a m)
    (hupt : upt ∈ K.live a)
    (hl : ∀ k ∈ l, k * K.arch.wordSize + K.arch.wordSize ≤ 4096) :
    K.good a (copyKernel K.arch upt kpt l m) := by
  refine K.laws.stable a m _ hgood fun x hx => copyKernel_of_ne fun k hk heq => hx ?_
  exact .inr ⟨upt, hupt, heq ▸ inPage_entry (hl k hk)⟩

/-- A new space maps nothing. -/
def addSpace (σ : Spaces) (as : ℕ) : Spaces := Function.update σ as (some fun _ => none)

/-- The machine after `protect`. -/
def withSpace (K : Kernel α) (s₁ : Vm α) (as q : ℕ) : Vm α :=
  { s₁ with
    mem := write (copyKernel K.arch q s₁.kpt (kernelIndexes K.arch) s₁.mem) as
      (q ||| pteP ||| pteU) }

theorem mem_roots_addSpace {r : ℕ} : r ∈ roots (addSpace σ as) ↔ r = as ∨ r ∈ roots σ := by
  by_cases h : r = as
  · subst h
    simp [roots, addSpace]
  · simp [roots, addSpace, h]

theorem child_top {c : Arch} (hc : c.Wf) (hq : 4096 ∣ q) (hlt : q < 2 ^ c.wordBits) :
    child c (q ||| pteP ||| pteU) = some q := by
  have hor : q ||| pteP ||| pteU = q ||| 5 := Nat.lor_assoc q 1 4
  have hp : (q ||| 5).testBit 0 = true := testBit_entry hq (by decide)
  have hu : (q ||| 5).testBit 2 = true := testBit_entry hq (by decide)
  rw [child, hor, if_pos, baseof_or hc hq hlt (by decide)]
  refine ⟨fun h => ?_, fun h => ?_⟩
  · rw [and_pteP, hp] at h
    cases h
  · rw [and_pteU, hu] at h
    cases h

theorem leads_top (hq : 4096 ∣ q) : Leads [] (q ||| pteP ||| pteU) := by
  have hor : q ||| pteP ||| pteU = q ||| 5 := Nat.lor_assoc q 1 4
  have hu : (q ||| 5).testBit 2 = true := testBit_entry hq (by decide)
  have hs : (q ||| 5).testBit 7 = false := testBit_entry hq (by decide)
  rw [Leads, hor]
  refine ⟨fun h => ?_, and_ptePS.mpr hs, fun h => absurd rfl h⟩
  rw [and_pteU, hu] at h
  cases h

variable (h : Inv K σ s) (hcell : as ∈ K.cells) (has : as ∉ roots σ) (hn : NewPage K s s₁ q)

include hn

theorem NewPage.base : 4096 ∣ q ∧ q < 2 ^ K.arch.wordBits ∧ ∀ x ∈ K.used, ¬InPage K.arch q x := by
  obtain ⟨hdvd, hle, hused⟩ := K.laws.page _ _ hn.good q (hn.live ▸ Set.mem_insert ..)
  rw [K.wf.pgsize] at hdvd hle
  exact ⟨hdvd, by omega, hused⟩

theorem withSpace_mem {x : ℕ} (hx : Kept K.arch K.live K.used s.pages x) (hne : x ≠ as) :
    (withSpace K s₁ as q).mem x = s.mem x := by
  change write _ _ _ _ = _
  rw [write, if_neg hne, copyKernel_of_ne, hn.mem x hx]
  intro k hk heq
  have hpage := entry_page K.wf (pathIn_kernel K.wf hk) (by simp)
  exact hn.apart hx (heq ▸ inPage_entry hpage)

include h

include hcell

theorem Inv.withSpace_entry {k : ℕ} (hk : k * K.arch.wordSize + K.arch.wordSize ≤ 4096) :
    (withSpace K s₁ as q).mem (entry K.arch q k) = if k ∈ kernelIndexes K.arch then
      K.start.mem (entry K.arch K.start.kpt k) else 0 := by
  have hpos := wordSize_pos K.wf
  have hne : entry K.arch q k ≠ as := fun heq =>
    hn.base.2.2 as (K.cells_used hcell) (heq ▸ inPage_entry hk)
  have hkpt : s₁.kpt = K.start.kpt := hn.kpt.trans h.kpt
  have hsep : ∀ i ∈ kernelIndexes K.arch, ∀ j ∈ kernelIndexes K.arch,
      entry K.arch K.start.kpt i ≠ entry K.arch q j := by
    intro i hi j hj heq
    have hpage := entry_page K.wf (pathIn_kernel K.wf hj) (by simp)
    exact hn.base.2.2 _ (K.kpt_used i hi).1 (heq ▸ inPage_entry hpage)
  change write _ _ _ _ = _
  rw [write, if_neg hne, hkpt]
  split_ifs with hmem
  · obtain ⟨hused, hcell'⟩ := K.kpt_used k hmem
    rw [copyKernel_entry hpos hsep k hmem, hn.mem _ (.inl hused), h.memory _ hused hcell']
  · rw [copyKernel_of_ne, hn.blank k hk]
    intro j hj heq
    unfold entry at heq
    obtain rfl : k = j := Nat.eq_of_mul_eq_mul_right hpos (by omega)
    exact hmem hj

/-- A new space has one table. -/
theorem Inv.withSpace_new (p : List ℕ) (hp : PathIn (inner K.arch) p) (u : ℕ) :
    K.table (withSpace K s₁ as q).mem as p = some u ↔ p = [] ∧ u = as ∨ p = [0] ∧ u = q := by
  have hroot : (withSpace K s₁ as q).mem as = q ||| pteP ||| pteU := if_pos rfl
  have htop : K.table (withSpace K s₁ as q).mem as [0] = some q := by
    have hentry : entry K.arch as 0 = as := by simp [entry]
    simp only [Kernel.table, descend, hentry, hroot,
      child_top K.wf hn.base.1 hn.base.2.1, Option.bind_some]
  cases p with
  | nil => simp [Kernel.table, descend, eq_comm]
  | cons j p =>
    obtain rfl : j = 0 := (entry_root K.wf (pathIn_widths K.wf (p := [j])
      (PathIn.of_append (p := [j]) (q := p) hp)) as).1
    cases p with
    | nil => rw [htop]; simp [eq_comm]
    | cons k p =>
      have hk : PathIn (inner K.arch) ([0] ++ [k]) := PathIn.of_append (q := p) hp
      have hpage := entry_page K.wf (pathIn_widths K.wf hk) (by simp)
      have hnone : K.table (withSpace K s₁ as q).mem as ([0] ++ [k]) = none := by
        rw [Kernel.table, descend_snoc_of htop, h.withSpace_entry hcell hn hpage]
        split_ifs with hker
        · rw [child, if_neg]
          exact fun hu => hu.2 (K.kpt_kernel k hker)
        · exact child_zero _
      have hsplit : 0 :: k :: p = ([0] ++ [k]) ++ p := rfl
      rw [hsplit, Kernel.table, descend_append]
      rw [Kernel.table] at hnone
      rw [hnone]
      simp

/-- A table of the new space is at one place. -/
theorem Inv.withSpace_path {u : ℕ} {p p' : List ℕ} (hp : PathIn (inner K.arch) p)
    (hp' : PathIn (inner K.arch) p') (hu : K.table (withSpace K s₁ as q).mem as p = some u)
    (hu' : K.table (withSpace K s₁ as q).mem as p' = some u) : p = p' := by
  have hnew := h.withSpace_new hcell hn
  have hne : as ≠ q := fun heq =>
    hn.base.2.2 as (K.cells_used hcell) ⟨heq.ge, by rw [K.wf.pgsize]; omega⟩
  rcases (hnew p hp u).mp hu with ⟨hpath, heq⟩ | ⟨hpath, heq⟩
  · rcases (hnew p' hp' u).mp hu' with ⟨hpath', -⟩ | ⟨-, heq'⟩
    · exact hpath.trans hpath'.symm
    · exact absurd (heq.symm.trans heq') hne
  · rcases (hnew p' hp' u).mp hu' with ⟨-, heq'⟩ | ⟨hpath', -⟩
    · exact absurd (heq'.symm.trans heq) hne
    · exact hpath.trans hpath'.symm

/-- Nothing is mapped in the new space. -/
theorem Inv.withSpace_unmapped (va : ℕ) : K.mapped (withSpace K s₁ as q).mem as va = none := by
  have hnone : K.table (withSpace K s₁ as q).mem as (path K.arch va) = none := by
    cases hu : K.table (withSpace K s₁ as q).mem as (path K.arch va) with
    | none => rfl
    | some u =>
      have hlen := two_le_length_path K.wf va
      rcases (h.withSpace_new hcell hn _ (pathIn_path K.wf va) u).mp hu with
        ⟨hpath, -⟩ | ⟨hpath, -⟩
      · simp [hpath] at hlen
      · simp [hpath] at hlen
  rw [Kernel.mapped, hnone]
  rfl

include has

/-- The entries of the other spaces are what they were. -/
theorem Inv.withSpace_slot {as' u k : ℕ} {p : List ℕ} (has' : as' ∈ roots σ)
    (hp : PathIn (widths K.arch) (p ++ [k])) (hpi : PathIn (inner K.arch) p)
    (hu : K.table s.mem as' p = some u) :
    (withSpace K s₁ as q).mem (entry K.arch u k) = s.mem (entry K.arch u k) := by
  refine withSpace_mem hn (h.kept has' hp hpi hu) fun heq => ?_
  rcases h.place has' hp hpi hu with ⟨-, -, rfl, hentry⟩ | ⟨-, hlive, -, hin⟩
  · exact has (hentry.symm.trans heq ▸ has')
  · exact (K.laws.page _ _ h.good u hlive).2.2 as (K.cells_used hcell) (heq ▸ hin)

theorem Inv.withSpace_old (as' : ℕ) (has' : as' ∈ roots σ) (p : List ℕ)
    (hp : PathIn (inner K.arch) p) :
    K.table (withSpace K s₁ as q).mem as' p = K.table s.mem as' p :=
  descend_congr (fun _ _ _ hp hu => by
    rw [h.withSpace_slot hcell has hn has' (pathIn_widths K.wf hp) hp.of_append hu]) p hp

theorem Inv.withSpace_mapped (as' : ℕ) (has' : as' ∈ roots σ) (va : ℕ) :
    K.mapped (withSpace K s₁ as q).mem as' va = K.mapped s.mem as' va := by
  have hpath := pathIn_path K.wf va
  unfold Kernel.mapped
  rw [h.withSpace_old hcell has hn as' has' _ hpath]
  cases hu : K.table s.mem as' (path K.arch va) with
  | none => rfl
  | some u =>
    rw [Option.bind_some, Option.bind_some,
      h.withSpace_slot hcell has hn has' (pathIn_leaf K.wf va) hpath hu]

/-- No table of the other spaces is the new one. -/
theorem Inv.withSpace_apart {as' u : ℕ} {p : List ℕ} (has' : as' ∈ roots σ)
    (hp : PathIn (inner K.arch) p) (hu : K.table s.mem as' p = some u) : u ≠ as ∧ u ≠ q := by
  obtain ⟨hdvd, hlt, hused⟩ := hn.base
  have hin : InPage K.arch q q := ⟨le_rfl, by rw [K.wf.pgsize]; omega⟩
  by_cases hnil : p = []
  · subst hnil
    obtain rfl : as' = u := by simpa [Kernel.table, descend] using hu
    refine ⟨fun heq => has (heq ▸ has'), ?_⟩
    rintro rfl
    exact hused _ (K.cells_used (h.cells _ has')) hin
  · have hlive := (h.pages u).mpr (.inr ⟨as', has', p, hnil, hp, hu⟩)
    refine ⟨?_, fun heq => hn.fresh (heq ▸ hlive)⟩
    rintro rfl
    exact (K.laws.page _ _ h.good u hlive).2.2 u (K.cells_used hcell)
      ⟨le_rfl, by rw [K.wf.pgsize]; omega⟩

/-- A table of the new space is a table of no other one. -/
theorem Inv.withSpace_only {as' u : ℕ} {p p' : List ℕ} (has' : as' ∈ roots σ)
    (hp : PathIn (inner K.arch) p) (hp' : PathIn (inner K.arch) p')
    (hu : K.table (withSpace K s₁ as q).mem as p = some u) :
    K.table (withSpace K s₁ as q).mem as' p' ≠ some u := by
  intro hu'
  rw [h.withSpace_old hcell has hn as' has' p' hp'] at hu'
  obtain ⟨h₁, h₂⟩ := h.withSpace_apart hcell has hn has' hp' hu'
  rcases (h.withSpace_new hcell hn p hp u).mp hu with ⟨-, heq⟩ | ⟨-, heq⟩
  · exact h₁ heq
  · exact h₂ heq

theorem Inv.withSpace_forest : Forest (child K.arch) (entry K.arch) (withSpace K s₁ as q).mem
    (inner K.arch) (roots (addSpace σ as)) := by
  refine ⟨fun r hr r' hr' p p' u hp hp' hu hu' => ?_⟩
  rcases mem_roots_addSpace.mp hr with rfl | hr₁
  · rcases mem_roots_addSpace.mp hr' with rfl | hr₁'
    · exact ⟨rfl, h.withSpace_path hcell hn hp hp' hu hu'⟩
    · exact absurd hu' (h.withSpace_only hcell has hn hr₁' hp hp' hu)
  · rcases mem_roots_addSpace.mp hr' with rfl | hr₁'
    · exact absurd hu (h.withSpace_only hcell has hn hr₁ hp' hp hu')
    · have hold := h.withSpace_old hcell has hn
      change K.table _ r p = _ at hu
      change K.table _ r' p' = _ at hu'
      rw [hold r hr₁ p hp] at hu
      rw [hold r' hr₁' p' hp'] at hu'
      exact h.forest.unique r hr₁ r' hr₁' p p' u hp hp' hu hu'

/-- A new space keeps the invariant. -/
theorem Inv.addSpace : Inv K (addSpace σ as) (withSpace K s₁ as q) := by
  have hnew := h.withSpace_new hcell hn
  have hold := h.withSpace_old hcell has hn
  have htop := (hnew [0] (pathIn_top K.wf) q).mpr (.inr ⟨rfl, rfl⟩)
  constructor
  case forest => exact h.withSpace_forest hcell has hn
  case kpt => exact hn.kpt.trans h.kpt
  case cells =>
    intro r hr
    rcases mem_roots_addSpace.mp hr with rfl | hr
    · exact hcell
    · exact h.cells r hr
  case pages =>
    intro u
    change u ∈ K.live s₁.pages ↔ _
    rw [hn.live, Set.mem_insert_iff, h.pages u]
    constructor
    · rintro (rfl | hu | ⟨r, hr, p, hp, hpi, hu⟩)
      · exact .inr ⟨as, mem_roots_addSpace.mpr (.inl rfl), [0], by simp, pathIn_top K.wf, htop⟩
      · exact .inl hu
      · exact .inr ⟨r, mem_roots_addSpace.mpr (.inr hr), p, hp, hpi,
          (hold r hr p hpi).trans hu⟩
    · rintro (hu | ⟨r, hr, p, hp, hpi, hu⟩)
      · exact .inr (.inl hu)
      · rcases mem_roots_addSpace.mp hr with rfl | hr
        · rcases (hnew p hpi u).mp hu with ⟨hnil, -⟩ | ⟨-, rfl⟩
          · exact absurd hnil hp
          · exact .inl rfl
        · exact .inr (.inr ⟨r, hr, p, hp, hpi, (hold r hr p hpi).symm.trans hu⟩)
  case fresh =>
    intro r hr p u hp hpi hu hstart
    rcases mem_roots_addSpace.mp hr with rfl | hr
    · rcases (hnew p hpi u).mp hu with ⟨hnil, -⟩ | ⟨-, rfl⟩
      · exact hp hnil
      · exact hn.fresh ((h.pages u).mpr (.inl hstart))
    · rw [hold r hr p hpi] at hu
      exact h.fresh r hr p u hp hpi hu hstart
  case entries =>
    intro r hr p t k hp ht hpres
    rcases mem_roots_addSpace.mp hr with rfl | hr
    · rcases (hnew p hp.of_append t).mp ht with ⟨rfl, rfl⟩ | ⟨rfl, rfl⟩
      · have hentry := (entry_root K.wf (pathIn_widths K.wf hp) t).2
        have hval : (withSpace K s₁ t q).mem t = q ||| pteP ||| pteU := if_pos rfl
        rw [hentry, hval]
        exact .inl (leads_top hn.base.1)
      · have hpage := entry_page K.wf (pathIn_widths K.wf hp) (by simp)
        rw [h.withSpace_entry hcell hn hpage] at hpres
        split_ifs at hpres with hker
        · exact .inr ⟨rfl, hker⟩
        · exact absurd (Nat.zero_and _) hpres
    · rw [hold r hr p hp.of_append] at ht
      rw [h.withSpace_slot hcell has hn hr (pathIn_widths K.wf hp) hp.of_append ht] at hpres ⊢
      exact h.entries r hr p t k hp ht hpres
  case top =>
    intro r hr
    rcases mem_roots_addSpace.mp hr with rfl | hr
    · exact ⟨q, htop⟩
    · obtain ⟨t, ht⟩ := h.top r hr
      exact ⟨t, (hold r hr [0] (pathIn_top K.wf)).trans ht⟩
  case kernel =>
    intro r hr t ht k hk
    rcases mem_roots_addSpace.mp hr with rfl | hr
    · rcases (hnew [0] (pathIn_top K.wf) t).mp ht with ⟨hnil, -⟩ | ⟨-, rfl⟩
      · cases hnil
      · have hpage := entry_page K.wf (pathIn_kernel K.wf hk) (by simp)
        rw [h.withSpace_entry hcell hn hpage, if_pos hk]
    · rw [hold r hr [0] (pathIn_top K.wf)] at ht
      rw [h.withSpace_slot hcell has hn hr (pathIn_kernel K.wf hk) (pathIn_top K.wf) ht]
      exact h.kernel r hr t ht k hk
  case leaf =>
    intro r μ hμ va hprivate hva
    by_cases hr : r = as
    · subst hr
      obtain rfl : (fun _ => none) = μ := by simpa [Vme.addSpace] using hμ
      exact h.withSpace_unmapped hcell hn va
    · have hμ' : σ r = some μ := by simpa [Vme.addSpace, hr] using hμ
      rw [h.withSpace_mapped hcell has hn r ⟨μ, hμ'⟩]
      exact h.leaf r μ hμ' va hprivate hva
  case frames =>
    intro r μ hμ va x hx
    by_cases hr : r = as
    · subst hr
      obtain rfl : (fun _ => none) = μ := by simpa [Vme.addSpace] using hμ
      cases hx
    · exact h.frames r μ (by simpa [Vme.addSpace, hr] using hμ) va x hx
  case memory =>
    intro x hx hx'
    rw [withSpace_mem hn (.inl hx) (fun heq => hx' (heq ▸ hcell))]
    exact h.memory x hx hx'
  case good =>
    refine good_write _ (good_copyKernel hn.good (hn.live ▸ Set.mem_insert ..) ?_)
      (.inl (K.cells_used hcell))
    exact fun k hk => entry_page K.wf (pathIn_kernel K.wf hk) (by simp)

end Protect

/-- `protect` adds a space, unless memory runs out. -/
theorem protect_spec {α : Type} {K : Kernel α} {σ : Spaces} {s : Vm α} {as : ℕ}
    (h : Inv K σ s) (hcell : as ∈ K.cells) (has : as ∉ roots σ) :
    (protect K.arch K.pager as s = .error .cannotAllocate ∧
        (K.pager.pgalloc K.arch.pgsize s.pages s.mem).1 = 0) ∨
      ∃ s', protect K.arch K.pager as s = .ok s' ∧ Inv K (addSpace σ as) s' := by
  unfold protect
  rcases pgallocz_spec K h.good with ⟨hfail, hzero⟩ | ⟨q, s₁, hq, hn⟩
  · rw [hfail]
    exact .inl ⟨rfl, hzero⟩
  · rw [hq]
    exact .inr ⟨withSpace K s₁ as q, rfl, h.addSpace hcell has hn⟩

end KmallocKfree.Vme
