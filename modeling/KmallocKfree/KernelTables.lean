import KmallocKfree.AddressSpaces

/-!
# The first tables of i386

`vme_init` maps each page of the kernel's areas to itself, in tables of two levels that the
allocator gives. From then on these tables are memory that is in use.
-/
namespace KmallocKfree.Vme

section Loop

variable {c : Arch} {step : ℕ}

/-- The loop over an area takes its steps from the start to the end, which may be that of the
memory. -/
theorem curs_eq (hstep : 0 < step) : ∀ (m n start : ℕ), m ≤ n →
    start + m * step ≤ 2 ^ c.wordBits → 0 < start ∨ start + m * step < 2 ^ c.wordBits →
    curs c step n (start % 2 ^ c.wordBits) ((start + m * step) % 2 ^ c.wordBits) =
      (List.range m).map fun k => start + k * step := by
  intro m
  induction m with
  | zero =>
    intro n start _ _ _
    cases n <;> simp [curs]
  | succ m ih =>
    intro n start hmn hle hstop
    obtain ⟨n, rfl⟩ := Nat.exists_eq_succ_of_ne_zero (by omega : n ≠ 0)
    have hmul : (m + 1) * step = step + m * step := by
      rw [Nat.succ_mul, Nat.add_comm]
    have hlt : start < 2 ^ c.wordBits := by omega
    have hne : start ≠ (start + (m + 1) * step) % 2 ^ c.wordBits := by
      intro heq
      rcases Nat.lt_or_ge (start + (m + 1) * step) (2 ^ c.wordBits) with h | h
      · rw [Nat.mod_eq_of_lt h] at heq
        omega
      · have hfull : start + (m + 1) * step = 2 ^ c.wordBits := by omega
        rw [hfull, Nat.mod_self] at heq
        omega
    have hrest := ih n (start + step) (by omega) (by omega) (by omega)
    have hend : start + (m + 1) * step = start + step + m * step := by omega
    rw [Nat.mod_eq_of_lt hlt, curs, if_neg hne, hend, hrest, List.range_succ_eq_map, List.map_cons,
      List.map_map]
    simp only [Nat.zero_mul, Nat.add_zero, List.cons.injEq, true_and]
    refine List.map_congr_left fun k _ => ?_
    simp only [Function.comp_apply, Nat.succ_mul]
    omega

/-- The pages of the kernel's areas. -/
theorem mem_kernelCurs {cur : ℕ} :
    cur ∈ kernelCurs i386 4096 ↔ 4096 ∣ cur ∧ i386.InKernel cur := by
  have hbits : 2 ^ i386.wordBits = 4294967296 := rfl
  have hlow := curs_eq (c := i386) (by decide : 0 < 4096) 0x40000 4294967296 0 (by decide)
    (by decide) (.inr (by decide))
  have hhigh := curs_eq (c := i386) (by decide : 0 < 4096) 0x3000 4294967296 0xfd000000 (by decide)
    (by decide) (.inl (by decide))
  norm_num [hbits] at hlow hhigh
  have hareas : i386.vmAreas.filter (·.kernel) =
      [⟨0x00000000, 0x40000000, true⟩, ⟨0xfd000000, 0x00000000, true⟩] := by decide
  rw [kernelCurs, hareas, hbits]
  simp only [List.flatMap_cons, List.flatMap_nil, List.append_nil]
  rw [hlow, hhigh, List.mem_append, List.mem_map, List.mem_map]
  simp only [List.mem_range]
  constructor
  · rintro (⟨k, hk, rfl⟩ | ⟨k, hk, rfl⟩)
    · refine ⟨by omega, ⟨_, _, true⟩, List.mem_cons_of_mem _ (List.mem_cons_self ..), rfl, ?_⟩
      change 0 ≤ _ ∧ _ < 4294967296 ∧ (_ < 0x40000000 ∨ _)
      omega
    · refine ⟨by omega, ⟨_, _, true⟩,
        List.mem_cons_of_mem _ (List.mem_cons_of_mem _ (List.mem_cons_self ..)), rfl, ?_⟩
      change 0xfd000000 ≤ _ ∧ _ < 4294967296 ∧ (_ ∨ 0 = 0)
      omega
  · rintro ⟨hdvd, vma, hmem, hk, hstart, hlt, hstop⟩
    have hlt' : cur < 4294967296 := hlt
    simp only [i386, List.mem_cons, List.not_mem_nil, or_false] at hmem
    rcases hmem with rfl | rfl | rfl
    · cases hk
    · refine .inl ⟨cur / 4096, ?_, ?_⟩
      · simp at hstop
        omega
      · omega
    · refine .inr ⟨(cur - 0xfd000000) / 4096, ?_, ?_⟩
      · simp at hstart
        omega
      · simp at hstart
        omega

end Loop

section Build

variable {α : Type} {P : Pager α} {live : α → Set ℕ} {used : Set ℕ} {good : α → Words → Prop}

/-- The machine while `vme_init` is at work: no entry is the kernel's yet. -/
def bare (laws : Laws i386 P live used good) {as : ℕ} (has : as ∈ used) (s : Vm α)
    (hgood : good s.pages s.mem) : Kernel α where
  arch := { i386 with vmAreas := [] }
  pager := P
  live := live
  used := used
  cells := {as}
  good := good
  start := { s with kpt := 0 }
  wf :=
    { pgsize := i386_wf.pgsize
      bits := i386_wf.bits
      tables := i386_wf.tables
      deep := i386_wf.deep
      masks := i386_wf.masks
      size := i386_wf.size
      chained := i386_wf.chained
      user := fun va _ h => absurd h (Nat.not_lt_zero va)
      kernel := fun _ ⟨_, hmem, _⟩ => absurd hmem List.not_mem_nil
      indexes := fun _ h => absurd h List.not_mem_nil }
  laws := ⟨laws.page, laws.alloc, laws.alloc_mem, laws.free, laws.free_mem, laws.stable⟩
  start_good := hgood
  cells_used := Set.singleton_subset_iff.mpr has
  kpt_base := by
    change baseof i386 0 = 0
    decide
  kpt_used := fun _ h => absurd h List.not_mem_nil
  kpt_kernel := fun _ h => absurd h List.not_mem_nil
  kpt_closed := fun _ _ _ h => absurd h List.not_mem_nil

/-- An entry of the kernel's tables. -/
def kernelEntry (x : ℕ) : ℕ := x ||| pteP ||| pteW

/-- The page that an entry of a table is for. -/
def pageAt (i j : ℕ) : ℕ := (i * 1024 + j) * 4096

/-- The tables that `vme_init` has made so far: the directory `pd`, and for some of its entries
a table, in which the pages of `D` are mapped to themselves. -/
structure Built (live : α → Set ℕ) (used : Set ℕ) (good : α → Words → Prop) (s₀ : Vm α) (as : ℕ)
    (ts : ℕ → Option ℕ) (pd : ℕ) (D : List ℕ) (s : Vm α) : Prop where
  root : s.mem as = kernelEntry pd
  pages : ∀ u, u ∈ live s.pages ↔ u ∈ live s₀.pages ∨ u = pd ∨ ∃ i, ts i = some u
  fresh : pd ∉ live s₀.pages ∧ ∀ i t, ts i = some t → t ∉ live s₀.pages ∧ t ≠ pd
  inj : ∀ i i' t, ts i = some t → ts i' = some t → i = i'
  dir : ∀ i < 1024, s.mem (entry i386 pd i) = (ts i).elim 0 kernelEntry
  tab : ∀ i t, ts i = some t → ∀ j < 1024,
    s.mem (entry i386 t j) = if pageAt i j ∈ D then kernelEntry (pageAt i j) else 0
  covered : ∀ i j, j < 1024 → pageAt i j ∈ D → ts i ≠ none
  frame : ∀ x ∈ used, x ≠ as → s.mem x = s₀.mem x
  good : good s.pages s.mem

/-- How many tables are still to be made, at most. -/
def missing (ts : ℕ → Option ℕ) : ℕ := ((Finset.range 1024).filter fun i => ts i = none).card

theorem missing_none : missing (fun _ => none) = 1024 := by
  simp [missing]

/-- A new table is one less that is missing. -/
theorem missing_update {ts : ℕ → Option ℕ} {i q : ℕ} (hi : i < 1024) (hnone : ts i = none) :
    missing (Function.update ts i (some q)) + 1 = missing ts := by
  have hmem : i ∈ (Finset.range 1024).filter fun i => ts i = none := by
    simp [hi, hnone]
  have herase : (Finset.range 1024).filter (fun j => Function.update ts i (some q) j = none) =
      ((Finset.range 1024).filter fun i => ts i = none).erase i := by
    ext j
    by_cases hj : j = i
    · simp [hj]
    · simp [hj]
  rw [missing, herase]
  exact Finset.card_erase_add_one hmem

variable (laws : Laws i386 P live used good) {s₀ s s₁ : Vm α} {as pd q i j t : ℕ}
  {ts : ℕ → Option ℕ} {D : List ℕ} (has : as ∈ used)

theorem entry_lt (hj : j < 1024) : j * i386.wordSize + i386.wordSize ≤ 4096 := by
  change j * 4 + 4 ≤ 4096
  omega

theorem indexof_dir (hi : i < 1024) (hj : j < 1024) :
    indexof (pageAt i j) ⟨0xffc00000, 22, 10⟩ = i := by
  have hfield : indexof (pageAt i j) ⟨0xffc00000, 22, 10⟩ = pageAt i j / 2 ^ 22 % 2 ^ 10 :=
    indexof_eq (by decide) _
  unfold pageAt at hfield ⊢
  omega

theorem indexof_tab (hj : j < 1024) : indexof (pageAt i j) ⟨0x003ff000, 12, 10⟩ = j := by
  have hfield : indexof (pageAt i j) ⟨0x003ff000, 12, 10⟩ = pageAt i j / 2 ^ 12 % 2 ^ 10 :=
    indexof_eq (by decide) _
  unfold pageAt at hfield ⊢
  omega

/-- `ptwalk`, with its step from `as.ptr` written out. -/
theorem ptwalk_eq (as addr flags : ℕ) (s : Vm α) : ptwalk i386 P as addr flags s =
    if s.mem as &&& pteP = 0 then do
      let (q, s) ← pgallocz i386 P s
      ptwalkFrom i386 P addr flags i386.pgtables.tail q
        { s with mem := write s.mem as (q ||| pteP ||| flags) }
    else ptwalkFrom i386 P addr flags i386.pgtables.tail (baseof i386 (s.mem as)) s := by
  have hslot : entry i386 as (indexof addr ⟨0, 0, 0⟩) = as := by
    simp [entry, indexof]
  have htables : i386.pgtables =
      [⟨0, 0, 0⟩, ⟨0xffc00000, 22, 10⟩, ⟨0x003ff000, 12, 10⟩] := rfl
  rw [ptwalk, htables, ptwalkFrom, hslot]
  · rfl
  · exact List.cons_ne_nil _ _

/-- Only the sizes of pages and words matter to an allocation. -/
theorem pgallocz_congr {c c' : Arch} (hpage : c.pgsize = c'.pgsize)
    (hbits : c.wordBits = c'.wordBits) : pgallocz c P s = pgallocz c' P s := by
  have hclear : ∀ base n m, clearWords c base n m = clearWords c' base n m := by
    intro base n m
    induction n with
    | zero => rfl
    | succ n ih =>
      rw [clearWords, clearWords, ih, entry, entry, Arch.wordSize, Arch.wordSize, hbits]
  unfold pgallocz
  simp only [hpage, hclear, Arch.wordSize, hbits]

theorem entry_inPage (hj : j < 1024) : InPage i386 t (entry i386 t j) := by
  have hsize : i386.wordSize = 4 := rfl
  have hpage : i386.pgsize = 4096 := rfl
  unfold InPage entry
  rw [hsize, hpage]
  omega

theorem entry_kept {a : α} {u : ℕ} (hu : u ∈ live a) (hj : j < 1024) :
    Kept i386 live used a (entry i386 u j) := .inr ⟨u, hu, entry_inPage hj⟩

include laws

theorem entry_apart {a : α} {m : Words} {u v : ℕ} (hgood : good a m) (hu : u ∈ live a)
    (hv : v ∈ live a) (hi : i < 1024) (hj : j < 1024) (h : entry i386 u i = entry i386 v j) :
    u = v ∧ i = j := by
  have hdvd := (laws.page a m hgood u hu).1
  have hdvd' := (laws.page a m hgood v hv).1
  exact entry_inj i386_wf hdvd hdvd' (entry_lt hi) (entry_lt hj) h

theorem entry_unused {a : α} {m : Words} {u : ℕ} (hgood : good a m) (hu : u ∈ live a)
    (hj : j < 1024) : entry i386 u j ∉ used := fun hused =>
  (laws.page a m hgood u hu).2.2 _ hused (entry_inPage hj)

omit laws in
theorem kernelEntry_bits (hdvd : 4096 ∣ q) : kernelEntry q &&& pteP ≠ 0 ∧
    kernelEntry q &&& pteW ≠ 0 ∧ kernelEntry q &&& pteU = 0 ∧ kernelEntry q &&& ptePS = 0 := by
  have hor : kernelEntry q = q ||| 3 := Nat.lor_assoc q 1 2
  have hbit : ∀ j < 12, (q ||| 3).testBit j = (3).testBit j := fun j hj => testBit_entry hdvd hj
  rw [hor, ne_eq, ne_eq, and_pteP, and_pteW, and_pteU, and_ptePS, hbit 0 (by decide),
    hbit 1 (by decide), hbit 2 (by decide), hbit 7 (by decide)]
  decide

omit laws in
theorem baseof_kernelEntry (hdvd : 4096 ∣ q) (hlt : q < 2 ^ 32) :
    baseof i386 (kernelEntry q) = q := by
  have hor : kernelEntry q = q ||| 3 := Nat.lor_assoc q 1 2
  rw [hor]
  exact baseof_or i386_wf hdvd hlt (by decide)

theorem kernelEntry_facts {a : α} {m : Words} (hgood : good a m) (hq : q ∈ live a) :
    kernelEntry q &&& pteP ≠ 0 ∧ baseof i386 (kernelEntry q) = q := by
  obtain ⟨hdvd, hle, -⟩ := laws.page a m hgood q hq
  have hlt : q < 2 ^ 32 := lt_of_lt_of_le (Nat.lt_add_of_pos_right (by decide)) hle
  exact ⟨(kernelEntry_bits hdvd).1, baseof_kernelEntry hdvd hlt⟩

theorem bare_spec (hgood : good s.pages s.mem) :
    (pgallocz i386 P s = .error .cannotAllocate ∧
        (P.pgalloc i386.pgsize s.pages s.mem).1 = 0) ∨
      ∃ q s₁, pgallocz i386 P s = .ok (q, s₁) ∧ NewPage (bare laws has s hgood) s s₁ q := by
  have hsame : pgallocz (bare laws has s hgood).arch (bare laws has s hgood).pager s =
      pgallocz i386 P s := pgallocz_congr rfl rfl
  have halloc := pgallocz_spec (bare laws has s hgood) hgood
  rwa [hsame] at halloc

/-- What runs out after a page was given runs out before. -/
theorem bare_runsOut {n : ℕ} {hgood : good s.pages s.mem}
    (hn : NewPage (bare laws has s hgood) s s₁ q)
    (h : RunsOut i386 P live used n s₁.pages s₁.mem) :
    RunsOut i386 P live used (n + 1) s.pages s.mem := by
  have hbare : RunsOut { i386 with vmAreas := [] } P live used n s₁.pages s₁.mem :=
    RunsOut.congr (c := i386) rfl h
  have hout : RunsOut { i386 with vmAreas := [] } P live used (n + 1) s.pages s.mem :=
    hn.runsOut n hbare
  exact RunsOut.congr (c := { i386 with vmAreas := [] }) rfl hout

/-- The directory, when `as.ptr` is still null. -/
theorem Built.blank (hn : NewPage (bare laws has s hgood) s s₁ q) :
    Built live used good s as (fun _ => none) q []
      { s₁ with mem := write s₁.mem as (kernelEntry q) } := by
  have hlive : live s₁.pages = insert q (live s.pages) := hn.live
  have hq : q ∈ live s₁.pages := hlive ▸ Set.mem_insert ..
  refine ⟨if_pos rfl, ?_, ⟨hn.fresh, ?_⟩, ?_, ?_, ?_, ?_, ?_, ?_⟩
  · intro u
    change u ∈ live s₁.pages ↔ _
    rw [hlive, Set.mem_insert_iff]
    simp [or_comm]
  · intro i t ht
    cases ht
  · intro i i' t ht
    cases ht
  · intro i hi
    have hne : entry i386 q i ≠ as := fun heq =>
      entry_unused laws hn.good hq hi (heq ▸ has)
    change write _ _ _ _ = _
    rw [write, if_neg hne]
    exact hn.blank i (entry_lt hi)
  · intro i t ht
    cases ht
  · intro i j _ hmem
    cases hmem
  · intro x hx hne
    change write _ _ _ _ = _
    rw [write, if_neg hne]
    exact hn.mem x (.inl hx)
  · exact good_write (K := bare laws has s hgood) _ hn.good (.inl has)

variable (h : Built live used good s₀ as ts pd D s)

include h

omit laws in
theorem Built.dir_live : pd ∈ live s.pages := (h.pages pd).mpr (.inr (.inl rfl))

omit laws in
theorem Built.tab_live (ht : ts i = some t) : t ∈ live s.pages :=
  (h.pages t).mpr (.inr (.inr ⟨i, ht⟩))

include has

/-- A new table, linked where the directory has none. -/
theorem Built.link (hi : i < 1024) (hnone : ts i = none)
    (hn : NewPage (bare laws has s h.good) s s₁ q) :
    Built live used good s₀ as (Function.update ts i (some q)) pd D
      { s₁ with mem := write s₁.mem (entry i386 pd i) (kernelEntry q) } := by
  have hlive : live s₁.pages = insert q (live s.pages) := hn.live
  have hq : q ∈ live s₁.pages := hlive ▸ Set.mem_insert ..
  have hold : ∀ u ∈ live s.pages, u ∈ live s₁.pages := fun u hu =>
    hlive ▸ Set.mem_insert_of_mem _ hu
  have hgood : good s₁.pages s₁.mem := hn.good
  have hpd := h.dir_live
  have hqpd : q ≠ pd := fun heq => hn.fresh (heq ▸ hpd)
  -- what was there before is not in the new page
  have hmem : ∀ x, Kept i386 live used s.pages x → x ≠ entry i386 pd i →
      write s₁.mem (entry i386 pd i) (kernelEntry q) x = s.mem x := by
    intro x hx hne
    rw [write, if_neg hne]
    exact hn.mem x hx
  have hcases : ∀ i' t, Function.update ts i (some q) i' = some t ↔
      i' = i ∧ t = q ∨ i' ≠ i ∧ ts i' = some t := by
    intro i' t
    by_cases heq : i' = i
    · subst heq
      simp [eq_comm]
    · simp [heq]
  refine ⟨?_, ?_, ⟨h.fresh.1, ?_⟩, ?_, ?_, ?_, ?_, ?_, ?_⟩
  · have hne : as ≠ entry i386 pd i := fun heq =>
      entry_unused laws h.good hpd hi (heq ▸ has)
    exact (hmem as (.inl has) hne).trans h.root
  · intro u
    change u ∈ live s₁.pages ↔ _
    rw [hlive, Set.mem_insert_iff, h.pages u]
    constructor
    · rintro (rfl | hu | hu | ⟨i', hu⟩)
      · exact .inr (.inr ⟨i, Function.update_self ..⟩)
      · exact .inl hu
      · exact .inr (.inl hu)
      · refine .inr (.inr ⟨i', (hcases i' u).mpr (.inr ⟨?_, hu⟩)⟩)
        rintro rfl
        rw [hnone] at hu
        cases hu
    · rintro (hu | hu | ⟨i', hu⟩)
      · exact .inr (.inl hu)
      · exact .inr (.inr (.inl hu))
      · rcases (hcases i' u).mp hu with ⟨-, rfl⟩ | ⟨-, hu⟩
        · exact .inl rfl
        · exact .inr (.inr (.inr ⟨i', hu⟩))
  · intro i' t ht
    rcases (hcases i' t).mp ht with ⟨-, rfl⟩ | ⟨-, ht⟩
    · exact ⟨fun hu => hn.fresh ((h.pages t).mpr (.inl hu)), hqpd⟩
    · exact h.fresh.2 i' t ht
  · intro i₁ i₂ t h₁ h₂
    rcases (hcases i₁ t).mp h₁ with ⟨rfl, rfl⟩ | ⟨-, ht₁⟩
    · rcases (hcases i₂ t).mp h₂ with ⟨rfl, -⟩ | ⟨-, ht₂⟩
      · rfl
      · exact absurd (h.tab_live ht₂) hn.fresh
    · rcases (hcases i₂ t).mp h₂ with ⟨-, rfl⟩ | ⟨-, ht₂⟩
      · exact absurd (h.tab_live ht₁) hn.fresh
      · exact h.inj i₁ i₂ t ht₁ ht₂
  · intro i' hi'
    by_cases heq : i' = i
    · subst heq
      rw [Function.update_self]
      exact if_pos rfl
    · rw [Function.update_of_ne heq, ← h.dir i' hi']
      refine hmem _ (entry_kept hpd hi') fun hsame => heq ?_
      exact (entry_apart laws h.good hpd hpd hi' hi hsame).2
  · intro i' t ht j hj
    rcases (hcases i' t).mp ht with ⟨rfl, rfl⟩ | ⟨-, ht⟩
    · have hne : entry i386 t j ≠ entry i386 pd i' := fun hsame =>
        hqpd (entry_apart laws hgood hq (hold pd hpd) hj hi hsame).1
      rw [if_neg fun hD => h.covered i' j hj hD hnone]
      change write _ _ _ _ = _
      rw [write, if_neg hne]
      exact hn.blank j (entry_lt hj)
    · rw [← h.tab i' t ht j hj]
      refine hmem _ (entry_kept (h.tab_live ht) hj) fun hsame => ?_
      exact (h.fresh.2 i' t ht).2 (entry_apart laws h.good (h.tab_live ht) hpd hj hi hsame).1
  · intro i' j hj hD hnone'
    by_cases heq : i' = i
    · subst heq
      rw [Function.update_self] at hnone'
      cases hnone'
    · rw [Function.update_of_ne heq] at hnone'
      exact h.covered i' j hj hD hnone'
  · intro x hx hne
    rw [← h.frame x hx hne]
    exact hmem x (.inl hx) fun hsame => entry_unused laws h.good hpd hi (hsame ▸ hx)
  · exact good_write (K := bare laws has s h.good) _ hn.good (entry_kept (hold pd hpd) hi)

/-- A page, mapped to itself in its table. -/
theorem Built.store (hi : i < 1024) (hj : j < 1024) (ht : ts i = some t) :
    Built live used good s₀ as ts pd (pageAt i j :: D)
      { s with mem := write s.mem (entry i386 t j) (kernelEntry (pageAt i j)) } := by
  have hlive := h.tab_live ht
  have hmem : ∀ x, x ≠ entry i386 t j →
      write s.mem (entry i386 t j) (kernelEntry (pageAt i j)) x = s.mem x := fun x hne =>
    if_neg hne
  have hunused : ∀ x ∈ used, x ≠ entry i386 t j := by
    rintro x hx rfl
    exact entry_unused laws h.good hlive hj hx
  refine ⟨?_, h.pages, h.fresh, h.inj, ?_, ?_, ?_, ?_, ?_⟩
  · exact (hmem as (hunused as has)).trans h.root
  · intro i' hi'
    rw [← h.dir i' hi']
    refine hmem _ fun hsame => (h.fresh.2 i t ht).2 ?_
    exact (entry_apart laws h.good h.dir_live hlive hi' hj hsame).1.symm
  · intro i' t' ht' j' hj'
    by_cases hsame : entry i386 t' j' = entry i386 t j
    · obtain ⟨rfl, rfl⟩ := entry_apart laws h.good (h.tab_live ht') hlive hj' hj hsame
      obtain rfl := h.inj i' i t' ht' ht
      rw [if_pos (List.mem_cons_self ..)]
      exact if_pos rfl
    · have hne : pageAt i' j' ≠ pageAt i j := by
        intro hpage
        unfold pageAt at hpage
        obtain rfl : i' = i := by omega
        obtain rfl : j' = j := by omega
        rw [ht] at ht'
        cases ht'
        exact hsame rfl
      have hD : pageAt i' j' ∈ pageAt i j :: D ↔ pageAt i' j' ∈ D := by
        simp [hne]
      rw [if_congr hD rfl rfl, ← h.tab i' t' ht' j' hj']
      exact hmem _ hsame
  · intro i' j' hj' hD
    rcases List.mem_cons.mp hD with hpage | hD
    · have hii : i' = i := by
        unfold pageAt at hpage
        omega
      rw [hii, ht]
      exact Option.some_ne_none t
    · exact h.covered i' j' hj' hD
  · exact fun x hx hne => (hmem x (hunused x hx)).trans (h.frame x hx hne)
  · exact good_write (K := bare laws has s h.good) _ h.good (entry_kept hlive hj)

/-- `ptwalk`, from the directory on. -/
theorem Built.walk (hi : i < 1024) (hj : j < 1024) :
    (ptwalkFrom i386 P (pageAt i j) pteW i386.pgtables.tail pd s = .error .cannotAllocate ∧
        RunsOut i386 P live used (missing ts) s.pages s.mem) ∨
      ∃ ts' t s', ptwalkFrom i386 P (pageAt i j) pteW i386.pgtables.tail pd s =
        .ok (entry i386 t j, s') ∧ Built live used good s₀ as ts' pd D s' ∧ ts' i = some t ∧
          (RunsOut i386 P live used (missing ts') s'.pages s'.mem →
            RunsOut i386 P live used (missing ts) s.pages s.mem) := by
  have hfirst := indexof_dir hi hj
  have hsecond := indexof_tab hj (i := i)
  have htail : i386.pgtables.tail = [⟨0xffc00000, 22, 10⟩, ⟨0x003ff000, 12, 10⟩] := rfl
  have hdir := h.dir i hi
  rw [htail]
  simp only [ptwalkFrom, hfirst, hsecond]
  cases ht : ts i with
  | none =>
    rw [ht] at hdir
    have habsent : s.mem (entry i386 pd i) &&& pteP = 0 := by
      rw [hdir]
      exact Nat.zero_and _
    rw [if_pos habsent]
    rcases bare_spec laws has h.good with ⟨hfail, hzero⟩ | ⟨q, s₁, hq, hn⟩
    · rw [hfail]
      exact .inl ⟨rfl, .now hzero⟩
    · rw [hq]
      refine .inr ⟨_, q, _, rfl, h.link laws has hi ht hn, Function.update_self .., fun hout => ?_⟩
      rw [← missing_update (q := q) hi ht]
      exact bare_runsOut laws has hn (hout.of_write (hn.kept (entry_kept h.dir_live hi)))
  | some t =>
    rw [ht] at hdir
    have hdir' : s.mem (entry i386 pd i) = kernelEntry t := hdir
    obtain ⟨hpres, hbase⟩ := kernelEntry_facts laws h.good (h.tab_live ht)
    rw [hdir', if_neg hpres, hbase]
    exact .inr ⟨ts, t, s, rfl, h, ht, id⟩

omit h

/-- The loop of `vme_init`, once there is a directory. -/
theorem mapKernel_spec : ∀ (l : List ℕ) (ts : ℕ → Option ℕ) (D : List ℕ) (s : Vm α),
    (∀ cur ∈ l, ∃ i < 1024, ∃ j < 1024, cur = pageAt i j) →
    Built live used good s₀ as ts pd D s →
    (mapKernel i386 P as l s = .error .cannotAllocate ∧
        RunsOut i386 P live used (missing ts) s.pages s.mem) ∨
      ∃ ts' s' D', mapKernel i386 P as l s = .ok s' ∧ (∀ cur, cur ∈ D' ↔ cur ∈ l ∨ cur ∈ D) ∧
        Built live used good s₀ as ts' pd D' s' := by
  intro l
  induction l with
  | nil => exact fun ts D s _ h => .inr ⟨ts, s, D, rfl, fun cur => by simp, h⟩
  | cons cur l ih =>
    intro ts D s hl h
    obtain ⟨i, hi, j, hj, rfl⟩ := hl cur (List.mem_cons_self ..)
    obtain ⟨hpres, hbase⟩ := kernelEntry_facts laws h.good h.dir_live
    rw [mapKernel, ptwalk_eq, h.root, if_neg hpres, hbase]
    rcases h.walk laws has hi hj with ⟨hfail, hout⟩ | ⟨ts', t, s', hwalk, hbuilt, ht, hback⟩
    · rw [hfail]
      exact .inl ⟨rfl, hout⟩
    · rw [hwalk]
      have hrest := ih ts' (pageAt i j :: D) _
        (fun cur hcur => hl cur (List.mem_cons_of_mem _ hcur)) (hbuilt.store laws has hi hj ht)
      rcases hrest with ⟨hfail, hout⟩ | ⟨ts'', s'', D', hrun, hD, hbuilt'⟩
      · have hkept : Kept i386 live used s'.pages (entry i386 t j) :=
          entry_kept (hbuilt.tab_live ht) hj
        exact .inl ⟨hfail, hback (.of_write hkept hout)⟩
      · refine .inr ⟨ts'', s'', D', hrun, fun cur => ?_, hbuilt'⟩
        rw [hD cur, List.mem_cons, List.mem_cons, or_left_comm, or_assoc]

/-- The first walk makes the directory, and goes on from there. -/
theorem ptwalk_blank (hgood : good s.pages s.mem) (hzero : s.mem as = 0)
    (hq : pgallocz i386 P s = .ok (q, s₁)) (hn : NewPage (bare laws has s hgood) s s₁ q)
    (addr : ℕ) : ptwalk i386 P as addr pteW s =
      ptwalk i386 P as addr pteW { s₁ with mem := write s₁.mem as (kernelEntry q) } := by
  have hblank := Built.blank laws has hn
  obtain ⟨hpres, hbase⟩ := kernelEntry_facts laws hblank.good hblank.dir_live
  have habsent : s.mem as &&& pteP = 0 := by
    rw [hzero]
    exact Nat.zero_and _
  rw [ptwalk_eq, ptwalk_eq, if_pos habsent, hblank.root, if_neg hpres, hbase, hq]
  rfl

omit laws has in
/-- The kernel's pages have their places in the tables. -/
theorem kernel_pageAt {cur : ℕ} (hcur : cur ∈ kernelCurs i386 4096) :
    ∃ i < 1024, ∃ j < 1024, cur = pageAt i j := by
  obtain ⟨hdvd, -, -, -, -, hlt, -⟩ := mem_kernelCurs.mp hcur
  have hlt' : cur < 4294967296 := hlt
  refine ⟨cur / 4194304, by omega, cur / 4096 % 1024, by omega, ?_⟩
  unfold pageAt
  omega

/-- `vme_init` maps the pages of the kernel's areas, unless memory runs out. -/
theorem vmeInit_spec (hgood : good s.pages s.mem) :
    (vmeInit i386 P 0 as s = .error .cannotAllocate ∧
        RunsOut i386 P live used 1025 s.pages s.mem) ∨
      ∃ ts pd D s', vmeInit i386 P 0 as s = .ok { s' with kpt := pd } ∧
        (∀ cur, cur ∈ D ↔ 4096 ∣ cur ∧ i386.InKernel cur) ∧
        Built live used good { s with mem := write s.mem as 0 } as ts pd D s' := by
  have hgood' : good s.pages (write s.mem as 0) :=
    good_write (K := bare laws has s hgood) 0 hgood (.inl has)
  have hinit : vmeInit i386 P 0 as s =
      (mapKernel i386 P as (kernelCurs i386 4096) { s with mem := write s.mem as 0 }).bind
        fun s => .ok { s with kpt := baseof i386 (s.mem as) } := rfl
  obtain ⟨cur, l, hl⟩ : ∃ cur l, kernelCurs i386 4096 = cur :: l := by
    refine List.exists_cons_of_ne_nil (List.ne_nil_of_mem (a := 0) (mem_kernelCurs.mpr ?_))
    exact ⟨by decide, ⟨0, 0x40000000, true⟩, by decide, rfl, by decide, by decide, .inl (by decide)⟩
  have hpages : ∀ cur' ∈ cur :: l, ∃ i < 1024, ∃ j < 1024, cur' = pageAt i j :=
    fun cur' hcur => kernel_pageAt (hl ▸ hcur)
  have hzero : write s.mem as 0 as = 0 := if_pos rfl
  rw [hinit, hl]
  rcases bare_spec (s := { s with mem := write s.mem as 0 }) laws has hgood' with
    ⟨hfail, hout⟩ | ⟨q, s₁, hq, hn⟩
  · have hout' : RunsOut i386 P live used 1025 s.pages s.mem := .of_write (.inl has) (.now hout)
    have habsent : write s.mem as 0 as &&& pteP = 0 := by
      rw [hzero]
      exact Nat.zero_and _
    rw [mapKernel, ptwalk_eq, if_pos habsent, hfail]
    exact .inl ⟨rfl, hout'⟩
  · have hwalk := ptwalk_blank laws has hgood' hzero hq hn cur
    have hrun := mapKernel_spec laws has (cur :: l) _ _ _ hpages (Built.blank laws has hn)
    rw [mapKernel, ← hwalk] at hrun
    rw [mapKernel]
    rcases hrun with ⟨hfail, hout⟩ | ⟨ts, s', D, hok, hD, hbuilt⟩
    · rw [hfail]
      rw [missing_none] at hout
      exact .inl ⟨rfl, .of_write (.inl has) (bare_runsOut laws has hn (hout.of_write (.inl has)))⟩
    · obtain ⟨-, hbase⟩ := kernelEntry_facts laws hbuilt.good hbuilt.dir_live
      refine .inr ⟨ts, q, D, s', ?_, fun cur' => ?_, hbuilt⟩
      · rw [hok, Except.bind, hbuilt.root, hbase]
      · rw [hD cur', ← hl, mem_kernelCurs]
        simp

end Build

section Kernel

variable {α : Type} {P : Pager α} {live : α → Set ℕ} {used : Set ℕ} {good : α → Words → Prop}
  {s₀ s : Vm α} {as pd va : ℕ} {ts : ℕ → Option ℕ} {D : List ℕ}

/-- The pages of the kernel's tables. -/
def Tables (ts : ℕ → Option ℕ) (pd : ℕ) : Set ℕ := {u | u = pd ∨ ∃ i, ts i = some u}

theorem Built.tables_live (h : Built live used good s₀ as ts pd D s) :
    Tables ts pd ⊆ live s.pages := by
  rintro u (rfl | ⟨i, hu⟩)
  · exact h.dir_live
  · exact h.tab_live hu

section Walk

variable {m : Words} {info : PtInfo} {levels : List PtInfo} {pt i : ℕ}
  (hindex : indexof va info = i)

include hindex

theorem translateFrom_absent (h : m (entry i386 pt i) = 0) :
    translateFrom i386 m va (info :: levels) pt = none := by
  rw [translateFrom, hindex, h]
  exact if_pos (Nat.zero_and _)

/-- An entry of the kernel that leads to another table. -/
theorem translateFrom_kernel {t : ℕ} (hdvd : 4096 ∣ t) (hlt : t < 2 ^ 32)
    (h : m (entry i386 pt i) = kernelEntry t) (hne : levels ≠ []) :
    translateFrom i386 m va (info :: levels) pt =
      (translateFrom i386 m va levels t).map fun x => ⟨x.phys, x.writable, false⟩ := by
  obtain ⟨hp, hw, hu, hps⟩ := kernelEntry_bits hdvd
  rw [translateFrom, hindex, h]
  simp [hp, hw, hu, hps, hne, baseof_kernelEntry hdvd hlt]

/-- An entry of the kernel for a page. -/
theorem translateFrom_page {q : ℕ} (hdvd : 4096 ∣ q) (hlt : q < 2 ^ 32)
    (h : m (entry i386 pt i) = kernelEntry q) :
    translateFrom i386 m va [info] pt = some ⟨q + va % 4096, true, false⟩ := by
  obtain ⟨hp, hw, hu, -⟩ := kernelEntry_bits hdvd
  have hsize : i386.pgsize = 4096 := rfl
  rw [translateFrom, hindex, h]
  simp [hp, hw, hu, baseof_kernelEntry hdvd hlt, hsize]

end Walk

/-- The processor's walk in memory that has the tables. -/
theorem Built.translate (laws : Laws i386 P live used good)
    (h : Built live used good s₀ as ts pd D s) {m : Words}
    (hm : ∀ u ∈ Tables ts pd, ∀ k < 1024, m (entry i386 u k) = s.mem (entry i386 u k))
    {i j : ℕ} (hi : i < 1024) (hj : j < 1024)
    (hdir : indexof va ⟨0xffc00000, 22, 10⟩ = i) (htab : indexof va ⟨0x003ff000, 12, 10⟩ = j) :
    translateFrom i386 m va i386.pgtables.tail pd =
      if pageAt i j ∈ D then some ⟨pageAt i j + va % 4096, true, false⟩ else none := by
  have htail : i386.pgtables.tail = [⟨0xffc00000, 22, 10⟩, ⟨0x003ff000, 12, 10⟩] := rfl
  have hentry := (hm pd (.inl rfl) i hi).trans (h.dir i hi)
  rw [htail]
  cases ht : ts i with
  | none =>
    rw [ht] at hentry
    rw [if_neg fun hD => h.covered i j hj hD ht, translateFrom_absent hdir hentry]
  | some t =>
    obtain ⟨hdvd, hle, -⟩ := laws.page _ _ h.good t (h.tab_live ht)
    have hlt : t < 2 ^ 32 := lt_of_lt_of_le (Nat.lt_add_of_pos_right (by decide)) hle
    have hentry' := (hm t (.inr ⟨i, ht⟩) j hj).trans (h.tab i t ht j hj)
    rw [ht] at hentry
    rw [translateFrom_kernel hdir hdvd hlt hentry (List.cons_ne_nil _ _)]
    by_cases hD : pageAt i j ∈ D
    · rw [if_pos hD] at hentry'
      have hdvd' : 4096 ∣ pageAt i j := Dvd.intro_left _ rfl
      have hlt' : pageAt i j < 4294967296 := by
        unfold pageAt
        omega
      rw [if_pos hD, translateFrom_page htab hdvd' hlt' hentry']
      rfl
    · rw [if_neg hD] at hentry'
      rw [if_neg hD, translateFrom_absent htab hentry']
      rfl

/-- Every address has its entries. -/
theorem indexes_lt (va : ℕ) : ∃ i < 1024, ∃ j < 1024, indexof va ⟨0xffc00000, 22, 10⟩ = i ∧
    indexof va ⟨0x003ff000, 12, 10⟩ = j ∧ pageAt i j = va % 2 ^ 32 / 4096 * 4096 := by
  have hfirst : indexof va ⟨0xffc00000, 22, 10⟩ = va / 2 ^ 22 % 2 ^ 10 := indexof_eq (by decide) va
  have hsecond : indexof va ⟨0x003ff000, 12, 10⟩ = va / 2 ^ 12 % 2 ^ 10 := indexof_eq (by decide) va
  refine ⟨_, Nat.mod_lt _ (by decide), _, Nat.mod_lt _ (by decide), hfirst, hsecond, ?_⟩
  unfold pageAt
  omega

/-- The kernel's areas are mapped to themselves, for the kernel only. -/
theorem Built.identity (laws : Laws i386 P live used good)
    (h : Built live used good s₀ as ts pd D s)
    (hD : ∀ cur, cur ∈ D ↔ 4096 ∣ cur ∧ i386.InKernel cur) (hva : i386.InKernel va) :
    translateFrom i386 s.mem va i386.pgtables.tail pd = some ⟨va, true, false⟩ := by
  obtain ⟨i, hi, j, hj, hdir, htab, hpage⟩ := indexes_lt va
  have hstarts : ∀ vma ∈ i386.vmAreas, 4096 ∣ vma.start := by decide
  have hmem : pageAt i j ∈ D := by
    obtain ⟨vma, hvma, hk, hstart, hlt, hstop⟩ := hva
    have hlt' : va < 4294967296 := hlt
    refine (hD _).mpr ⟨Dvd.intro_left _ rfl, vma, hvma, hk, ?_, ?_, ?_⟩
    · have hdvd := hstarts vma hvma
      rw [hpage]
      omega
    · change pageAt i j < 4294967296
      omega
    · rw [hpage]
      omega
  have hoffset : pageAt i j + va % 4096 = va := by
    obtain ⟨-, -, -, -, hlt, -⟩ := hva
    have hlt' : va < 4294967296 := hlt
    rw [hpage]
    omega
  rw [h.translate laws (fun _ _ _ _ => rfl) hi hj hdir htab, if_pos hmem, hoffset]

/-- An i386 machine after `vme_init`: the kernel's tables are no longer the allocator's. -/
def kernel32 (laws : Laws i386 P live used good) (h : Built live used good s₀ as ts pd D s)
    {cells : Set ℕ} (hcells : cells ⊆ used) : Kernel α where
  arch := i386
  pager := P
  live a := live a \ Tables ts pd
  used := used ∪ {x | ∃ q ∈ Tables ts pd, InPage i386 q x}
  cells := cells
  good a m := good a m ∧ Tables ts pd ⊆ live a
  start := { s with kpt := pd }
  wf := i386_wf
  laws := laws.keep (Tables ts pd)
  start_good := ⟨h.good, h.tables_live⟩
  cells_used := fun x hx => .inl (hcells hx)
  kpt_base := by
    obtain ⟨hdvd, hle, -⟩ := laws.page _ _ h.good pd h.dir_live
    exact baseof_of_dvd i386_wf hdvd (lt_of_lt_of_le (Nat.lt_add_of_pos_right (by decide)) hle)
  kpt_used := by
    intro k hk
    have hlt : k < 1024 := i386_wf.indexes k hk
    exact ⟨.inr ⟨pd, .inl rfl, entry_inPage hlt⟩,
      fun hcell => entry_unused laws h.good h.dir_live hlt (hcells hcell)⟩
  kpt_kernel := by
    intro k hk
    change s.mem (entry i386 pd k) &&& pteU = 0
    rw [h.dir k (i386_wf.indexes k hk)]
    cases ht : ts k with
    | none => rfl
    | some t => exact (kernelEntry_bits (laws.page _ _ h.good t (h.tab_live ht)).1).2.2.1
  kpt_closed := by
    intro m hm va _
    obtain ⟨i, hi, j, hj, hdir, htab, -⟩ := indexes_lt va
    have hsame : ∀ u ∈ Tables ts pd, ∀ k < 1024, m (entry i386 u k) = s.mem (entry i386 u k) := by
      intro u hu k hk
      refine hm _ (.inr ⟨u, hu, entry_inPage hk⟩) fun hcell => ?_
      exact entry_unused laws h.good (h.tables_live hu) hk (hcells hcell)
    change translateFrom i386 m va i386.pgtables.tail pd =
      translateFrom i386 s.mem va i386.pgtables.tail pd
    rw [h.translate laws hsame hi hj hdir htab,
      h.translate laws (fun _ _ _ _ => rfl) hi hj hdir htab]

end Kernel
end KmallocKfree.Vme
