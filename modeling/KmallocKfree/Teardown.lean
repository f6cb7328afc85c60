import KmallocKfree.PageWalk

/-!
# Giving the tables back

`teardown` frees the tables of an address space, children first. Each is freed once, for
there is one path to it; what it reads has not been freed yet, and frees do not change it.
-/
namespace KmallocKfree.Vme

section Sets

variable {α : Type} {K : Kernel α} {σ : Spaces} {s₀ s : Vm α} {as t u k : ℕ} {p : List ℕ}

/-- The table at a path and those below it. -/
def Kernel.Below (K : Kernel α) (m : Words) (as : ℕ) (p : List ℕ) : Set ℕ :=
  {u | ∃ q, PathIn (inner K.arch) (p ++ q) ∧ K.table m as (p ++ q) = some u}

/-- Memory in use is what it was. -/
structure Agrees (K : Kernel α) (s₀ s : Vm α) : Prop where
  mem : ∀ x, Kept K.arch K.live K.used s.pages x → s.mem x = s₀.mem x
  good : K.good s.pages s.mem
  kpt : s.kpt = s₀.kpt

theorem below_none (h : K.table s₀.mem as p = none) : K.Below s₀.mem as p = ∅ := by
  rw [Set.eq_empty_iff_forall_notMem]
  rintro u ⟨q, -, hu⟩
  rw [Kernel.table] at h hu
  rw [descend_append, h] at hu
  cases hu

theorem below_self (hp : PathIn (inner K.arch) p) (ht : K.table s₀.mem as p = some t) :
    t ∈ K.Below s₀.mem as p := ⟨[], by simpa using hp, by simpa using ht⟩

theorem below_snoc (h : u ∈ K.Below s₀.mem as (p ++ [k])) : u ∈ K.Below s₀.mem as p := by
  obtain ⟨q, hq, hu⟩ := h
  exact ⟨k :: q, by simpa using hq, by simpa using hu⟩

/-- A table below another one is that one or below one of its entries. -/
theorem below_cases (ht : K.table s₀.mem as p = some t) (h : u ∈ K.Below s₀.mem as p) :
    u = t ∨ ∃ k, PathIn (inner K.arch) (p ++ [k]) ∧ u ∈ K.Below s₀.mem as (p ++ [k]) := by
  obtain ⟨q, hq, hu⟩ := h
  cases q with
  | nil =>
    rw [List.append_nil, ht] at hu
    cases hu
    exact .inl rfl
  | cons k q =>
    have hassoc : p ++ k :: q = p ++ [k] ++ q := by simp
    rw [hassoc] at hq hu
    exact .inr ⟨k, hq.of_append, q, hq, hu⟩

variable (h : Inv K σ s₀) (has : as ∈ roots σ)

include h has

theorem Inv.not_below_snoc (hp : PathIn (inner K.arch) p) (ht : K.table s₀.mem as p = some t) :
    t ∉ K.Below s₀.mem as (p ++ [k]) := by
  rintro ⟨q, hq, hu⟩
  have hpath := (h.forest.unique as has as has p _ t hp hq ht hu).2
  have := congrArg List.length hpath
  simp at this

theorem Inv.below_disjoint {j : ℕ} (hkj : j ≠ k) (hu : u ∈ K.Below s₀.mem as (p ++ [j])) :
    u ∉ K.Below s₀.mem as (p ++ [k]) := by
  rintro ⟨q, hq, hu'⟩
  obtain ⟨q', hq', hu⟩ := hu
  have hpath := (h.forest.unique as has as has _ _ u hq' hq hu hu').2
  simp at hpath
  exact hkj hpath.1

end Sets

section Loop

variable {α : Type} {K : Kernel α} {σ : Spaces} {s₀ : Vm α} {as t : ℕ} {p : List ℕ}
  {down : ℕ → Vm α → Vm α}

/-- The loop over the entries of a table, if the call for an entry frees what is below it. -/
theorem teardown_loop (h : Inv K σ s₀) (has : as ∈ roots σ)
    (hp : PathIn (inner K.arch) p) (ht : K.table s₀.mem as p = some t) {w : ℕ}
    (hw : ∀ k < w, PathIn (inner K.arch) (p ++ [k]))
    (hdown : ∀ k < w, ∀ v s, K.table s₀.mem as (p ++ [k]) = some v → Agrees K s₀ s →
      K.Below s₀.mem as (p ++ [k]) ⊆ K.live s.pages →
      K.live (down v s).pages = K.live s.pages \ K.Below s₀.mem as (p ++ [k]) ∧
        Agrees K s₀ (down v s)) :
    ∀ (l : List ℕ) (s : Vm α), l.Nodup → (∀ k ∈ l, k < w) → Agrees K s₀ s →
      (p ≠ [] → t ∈ K.live s.pages) →
      (∀ k ∈ l, K.Below s₀.mem as (p ++ [k]) ⊆ K.live s.pages) →
      let s' := l.foldl (fun s index =>
        let e := s.mem (entry K.arch t index)
        if e &&& pteP ≠ 0 ∧ e &&& pteU ≠ 0 then down (baseof K.arch e) s else s) s
      (∀ u, u ∈ K.live s'.pages ↔
        u ∈ K.live s.pages ∧ ∀ k ∈ l, u ∉ K.Below s₀.mem as (p ++ [k])) ∧ Agrees K s₀ s' := by
  intro l
  induction l with
  | nil =>
    intro s _ _ hag _ _
    exact ⟨fun u => by simp, hag⟩
  | cons k l ih =>
    intro s hnd hlt hag hlive hbelow
    have hk := hw k (hlt k (List.mem_cons_self ..))
    have hkept : Kept K.arch K.live K.used s.pages (entry K.arch t k) := by
      rcases h.place has (pathIn_widths K.wf hk) hp ht with ⟨-, -, -, hentry⟩ | ⟨hnil, -, -, hin⟩
      · rw [hentry]
        exact .inl (K.cells_used (h.cells as has))
      · exact .inr ⟨t, hlive hnil, hin⟩
    have hmem := hag.mem _ hkept
    have hchild : K.table s₀.mem as (p ++ [k]) = child K.arch (s.mem (entry K.arch t k)) := by
      rw [hmem, Kernel.table, descend_snoc_of ht]
    obtain ⟨hkl, hnd'⟩ := List.nodup_cons.mp hnd
    rw [List.foldl_cons]
    simp only
    by_cases hpres : s.mem (entry K.arch t k) &&& pteP ≠ 0 ∧
        s.mem (entry K.arch t k) &&& pteU ≠ 0
    · rw [if_pos hpres]
      rw [child, if_pos hpres] at hchild
      generalize baseof K.arch (s.mem (entry K.arch t k)) = v at hchild ⊢
      obtain ⟨hlive', hag'⟩ := hdown k (hlt k (List.mem_cons_self ..)) v s hchild hag
        (hbelow k (List.mem_cons_self ..))
      have htlive : p ≠ [] → t ∈ K.live (down v s).pages := fun hnil => by
        rw [hlive']
        exact ⟨hlive hnil, h.not_below_snoc has hp ht⟩
      have hrest : ∀ j ∈ l, K.Below s₀.mem as (p ++ [j]) ⊆ K.live (down v s).pages := by
        intro j hj u hu
        rw [hlive']
        have hjk : j ≠ k := fun heq => hkl (heq ▸ hj)
        exact ⟨hbelow j (List.mem_cons_of_mem _ hj) hu, h.below_disjoint has hjk hu⟩
      obtain ⟨hiff, hfin⟩ := ih _ hnd' (fun j hj => hlt j (List.mem_cons_of_mem _ hj)) hag'
        htlive hrest
      refine ⟨fun u => ?_, hfin⟩
      rw [hiff u, hlive']
      simp only [Set.mem_sdiff, List.mem_cons, forall_eq_or_imp, and_assoc]
    · rw [if_neg hpres]
      rw [child, if_neg hpres] at hchild
      obtain ⟨hiff, hfin⟩ := ih s hnd' (fun j hj => hlt j (List.mem_cons_of_mem _ hj)) hag hlive
        (fun j hj => hbelow j (List.mem_cons_of_mem _ hj))
      refine ⟨fun u => ?_, hfin⟩
      rw [hiff u]
      simp only [List.mem_cons, forall_eq_or_imp, below_none hchild]
      simp

/-- The machine after a page is freed. -/
def freed (K : Kernel α) (t : ℕ) (s : Vm α) : Vm α :=
  { s with
    pages := (K.pager.pgfree t s.pages s.mem).1
    mem := (K.pager.pgfree t s.pages s.mem).2 }

theorem freed_spec {s : Vm α} (hag : Agrees K s₀ s) (hlive : t ∈ K.live s.pages) :
    (∀ u, u ∈ K.live (freed K t s).pages ↔ u ∈ K.live s.pages ∧ u ≠ t) ∧
      Agrees K s₀ (freed K t s) := by
  obtain ⟨hfree, hgood⟩ := K.laws.free s.pages s.mem hag.good t hlive
  refine ⟨fun u => ?_, ?_, hgood, hag.kpt⟩
  · change u ∈ K.live (K.pager.pgfree t s.pages s.mem).1 ↔ _
    rw [hfree]
    exact Iff.rfl
  · intro x hx
    have hx' : Kept K.arch K.live K.used s.pages x := by
      rcases hx with hx | ⟨q, hq, hx⟩
      · exact .inl hx
      · change q ∈ K.live (K.pager.pgfree t s.pages s.mem).1 at hq
        rw [hfree] at hq
        exact .inr ⟨q, hq.1, hx⟩
    exact (K.laws.free_mem s.pages s.mem hag.good t hlive x hx).trans (hag.mem x hx')

/-- A level of the tables and what leads to it. -/
theorem pathIn_level {before after : List PtInfo} {info : PtInfo} (hafter : after ≠ [])
    (hsplit : K.arch.pgtables = before ++ info :: after) (hlen : p.length = before.length)
    (hp : PathIn (inner K.arch) p) {k : ℕ} :
    PathIn (inner K.arch) (p ++ [k]) ↔ k < 2 ^ info.bits := by
  have hwidth : (inner K.arch)[p.length]? = some (2 ^ info.bits) := by
    rw [inner, hsplit, List.dropLast_append_of_ne_nil (List.cons_ne_nil _ _),
      List.dropLast_cons_of_ne_nil hafter, hlen]
    simp
  rw [pathIn_snoc, hwidth]
  simp [hp]

/-- Nothing is below a table of the last level. -/
theorem below_last {before : List PtInfo} {info : PtInfo}
    (hsplit : K.arch.pgtables = before ++ [info]) (hlen : p.length = before.length)
    (ht : K.table s₀.mem as p = some t) {u : ℕ} (hu : u ∈ K.Below s₀.mem as p) : u = t := by
  rcases below_cases ht hu with rfl | ⟨k, hk, -⟩
  · rfl
  · have hle := hk.length_le
    rw [inner, hsplit] at hle
    simp [hlen] at hle

/-- What a teardown frees, level by level. -/
theorem teardown_spec (h : Inv K σ s₀) (has : as ∈ roots σ) :
    ∀ (after before : List PtInfo) (p : List ℕ) (t : ℕ) (s : Vm α), after ≠ [] →
      K.arch.pgtables = before ++ after → p.length = before.length →
      PathIn (inner K.arch) p → K.table s₀.mem as p = some t → Agrees K s₀ s →
      (p ≠ [] → t ∈ K.live s.pages) →
      (∀ k, K.Below s₀.mem as (p ++ [k]) ⊆ K.live s.pages) →
      (∀ u, u ∈ K.live (teardown K.arch K.pager after before.length t s).pages ↔
        u ∈ K.live s.pages ∧ u ∉ K.Below s₀.mem as p) ∧
        Agrees K s₀ (teardown K.arch K.pager after before.length t s) := by
  intro after
  induction after with
  | nil => intro _ _ _ _ hne; exact absurd rfl hne
  | cons info after ih =>
    intro before p t s _ hsplit hlen hp ht hag hself hbelow
    cases after with
    | nil =>
      have hnil : p ≠ [] := by
        rintro rfl
        have hdeep := K.wf.deep
        rw [hsplit] at hdeep
        simp [← hlen] at hdeep
      have hlevel : before.length ≥ 1 := by
        rw [← hlen]
        exact List.length_pos_iff.mpr hnil
      obtain ⟨hiff, hfin⟩ := freed_spec hag (hself hnil)
      have hloop : teardown K.arch K.pager [info] before.length t s = freed K t s := by
        simp only [teardown, ite_self, List.foldl_fixed, if_pos hlevel]
        rfl
      rw [hloop]
      refine ⟨fun u => (hiff u).trans (and_congr_right fun _ => not_congr ?_), hfin⟩
      exact ⟨fun heq => heq ▸ below_self hp ht, below_last hsplit hlen ht⟩
    | cons next after =>
      have hne : next :: after ≠ [] := List.cons_ne_nil _ _
      have hlevel := fun k => pathIn_level (k := k) hne hsplit hlen hp
      have hsplit' : K.arch.pgtables = (before ++ [info]) ++ next :: after := by
        rw [hsplit]
        simp
      have hdown : ∀ k < 2 ^ info.bits, ∀ v s, K.table s₀.mem as (p ++ [k]) = some v →
          Agrees K s₀ s → K.Below s₀.mem as (p ++ [k]) ⊆ K.live s.pages →
          K.live (teardown K.arch K.pager (next :: after) (before.length + 1) v s).pages =
            K.live s.pages \ K.Below s₀.mem as (p ++ [k]) ∧
          Agrees K s₀ (teardown K.arch K.pager (next :: after) (before.length + 1) v s) := by
        intro k hk v s hv hag hsub
        have hpk := (hlevel k).mpr hk
        have hih := ih (before ++ [info]) (p ++ [k]) v s hne hsplit' (by simp [hlen]) hpk hv hag
          (fun _ => hsub (below_self hpk hv)) (fun j u hu => hsub (below_snoc hu))
        rw [List.length_append] at hih
        exact ⟨Set.ext hih.1, hih.2⟩
      obtain ⟨hiff, hfin⟩ := teardown_loop h has hp ht (fun k hk => (hlevel k).mpr hk) hdown
        (List.range (2 ^ info.bits)) s List.nodup_range (fun k hk => List.mem_range.mp hk) hag
        hself (fun k _ => hbelow k)
      rw [teardown]
      generalize (List.range (2 ^ info.bits)).foldl _ s = s₁ at hiff hfin ⊢
      have hchildren : ∀ u, u ≠ t → ((∀ k ∈ List.range (2 ^ info.bits),
          u ∉ K.Below s₀.mem as (p ++ [k])) ↔ u ∉ K.Below s₀.mem as p) := by
        intro u hu
        constructor
        · intro hall hbel
          rcases below_cases ht hbel with heq | ⟨k, hk, hbel'⟩
          · exact hu heq
          · exact hall k (List.mem_range.mpr ((hlevel k).mp hk)) hbel'
        · exact fun hbel k _ hbel' => hbel (below_snoc hbel')
      by_cases hzero : before.length ≥ 1
      · have hnil : p ≠ [] := List.length_pos_iff.mp (hlen ▸ hzero)
        have ht₁ : t ∈ K.live s₁.pages :=
          (hiff t).mpr ⟨hself hnil, fun k _ => h.not_below_snoc has hp ht⟩
        obtain ⟨hiff', hfin'⟩ := freed_spec hfin ht₁
        simp only [if_pos hzero]
        refine ⟨fun u => (hiff' u).trans ?_, hfin'⟩
        rw [hiff u]
        by_cases hu : u = t
        · subst hu
          exact ⟨fun hl => absurd rfl hl.2, fun hr => absurd (below_self hp ht) hr.2⟩
        · rw [hchildren u hu]
          simp [hu]
      · simp only [if_neg hzero]
        refine ⟨fun u => ?_, hfin⟩
        rw [hiff u]
        refine and_congr_right fun hu => hchildren u ?_
        rintro rfl
        obtain rfl : p = [] := List.length_eq_zero_iff.mp (by omega)
        obtain rfl : as = u := by simpa [Kernel.table, descend] using ht
        exact (K.laws.page _ _ hag.good as hu).2.2 as (K.cells_used (h.cells as has))
          ⟨le_rfl, by rw [K.wf.pgsize]; omega⟩

end Loop

section Unprotect

variable {α : Type} {K : Kernel α} {σ : Spaces} {s s' : Vm α} {as : ℕ}

/-- The spaces without one. -/
def removeSpace (σ : Spaces) (as : ℕ) : Spaces := Function.update σ as none

theorem mem_roots_removeSpace {r : ℕ} :
    r ∈ roots (removeSpace σ as) ↔ r ≠ as ∧ r ∈ roots σ := by
  by_cases h : r = as
  · subst h
    simp [roots, removeSpace]
  · simp [roots, removeSpace, h]

variable (h : Inv K σ s) (has : as ∈ roots σ)
  (hlive : ∀ u, u ∈ K.live s'.pages ↔ u ∈ K.live s.pages ∧ u ∉ K.Below s.mem as [])
  (hag : Agrees K s s')

include h has

/-- A table of another space is not given back. -/
theorem Inv.not_below {r u : ℕ} {p : List ℕ} (hr : r ≠ as) (hroot : r ∈ roots σ)
    (hp : PathIn (inner K.arch) p) (hu : K.table s.mem r p = some u) :
    u ∉ K.Below s.mem as [] := by
  rintro ⟨q, hq, hu'⟩
  exact hr (h.forest.unique r hroot as has p q u hp hq hu hu').1

include hlive hag

/-- The entries of the other spaces are what they were. -/
theorem Inv.removeSpace_slot {r u k : ℕ} {p : List ℕ} (hr : r ≠ as) (hroot : r ∈ roots σ)
    (hp : PathIn (widths K.arch) (p ++ [k])) (hpi : PathIn (inner K.arch) p)
    (hu : K.table s.mem r p = some u) :
    s'.mem (entry K.arch u k) = s.mem (entry K.arch u k) := by
  refine hag.mem _ ?_
  rcases h.place hroot hp hpi hu with ⟨-, -, -, hentry⟩ | ⟨-, hlive', -, hin⟩
  · rw [hentry]
    exact .inl (K.cells_used (h.cells r hroot))
  · exact .inr ⟨u, (hlive u).mpr ⟨hlive', h.not_below has hr hroot hpi hu⟩, hin⟩

theorem Inv.removeSpace_table {r : ℕ} (hr : r ≠ as) (hroot : r ∈ roots σ) (p : List ℕ)
    (hp : PathIn (inner K.arch) p) : K.table s'.mem r p = K.table s.mem r p :=
  descend_congr (fun _ _ _ hp hu => by
    rw [h.removeSpace_slot has hlive hag hr hroot (pathIn_widths K.wf hp) hp.of_append hu]) p hp

theorem Inv.removeSpace_mapped {r : ℕ} (hr : r ≠ as) (hroot : r ∈ roots σ) (va : ℕ) :
    K.mapped s'.mem r va = K.mapped s.mem r va := by
  have hpath := pathIn_path K.wf va
  unfold Kernel.mapped
  rw [h.removeSpace_table has hlive hag hr hroot _ hpath]
  cases hu : K.table s.mem r (path K.arch va) with
  | none => rfl
  | some u =>
    rw [Option.bind_some, Option.bind_some,
      h.removeSpace_slot has hlive hag hr hroot (pathIn_leaf K.wf va) hpath hu]

/-- A machine that has given back the tables of one space, and no others, keeps the invariant. -/
theorem Inv.removeSpace : Inv K (removeSpace σ as) s' := by
  have htable := fun {r} hr hroot => h.removeSpace_table (r := r) has hlive hag hr hroot
  have hroots : ∀ r ∈ roots (Vme.removeSpace σ as), r ≠ as ∧ r ∈ roots σ :=
    fun r => mem_roots_removeSpace.mp
  have hspace : ∀ r μ, Vme.removeSpace σ as r = some μ → r ≠ as ∧ σ r = some μ := by
    intro r μ hμ
    obtain ⟨hr, -⟩ := hroots r ⟨μ, hμ⟩
    exact ⟨hr, by simpa [Vme.removeSpace, hr] using hμ⟩
  refine ⟨?_, ?_, ?_, ?_, ?_, ?_, ?_, ?_, ?_, ?_, ?_, hag.good⟩
  · exact fun r hr => h.cells r (hroots r hr).2
  · refine (h.forest.mono fun r hr => (hroots r hr).2).congr fun r hr p hp => ?_
    obtain ⟨hr, hroot⟩ := hroots r hr
    exact htable hr hroot p hp
  · intro u
    rw [hlive u, h.pages u]
    constructor
    · rintro ⟨hstart | ⟨r, hroot, p, hp, hpi, hu⟩, hbelow⟩
      · exact .inl hstart
      · have hr : r ≠ as := by
          rintro rfl
          exact hbelow ⟨p, hpi, hu⟩
        exact .inr ⟨r, mem_roots_removeSpace.mpr ⟨hr, hroot⟩, p, hp, hpi,
          (htable hr hroot p hpi).trans hu⟩
    · rintro (hstart | ⟨r, hr, p, hp, hpi, hu⟩)
      · refine ⟨.inl hstart, ?_⟩
        rintro ⟨q, hq, hu⟩
        by_cases hnil : q = []
        · subst hnil
          obtain rfl : as = u := by simpa [Kernel.table, descend] using hu
          exact (K.laws.page _ _ K.start_good as hstart).2.2 as (K.cells_used (h.cells as has))
            ⟨le_rfl, by rw [K.wf.pgsize]; omega⟩
        · exact h.fresh as has q u hnil hq hu hstart
      · obtain ⟨hr, hroot⟩ := hroots r hr
        rw [htable hr hroot p hpi] at hu
        exact ⟨.inr ⟨r, hroot, p, hp, hpi, hu⟩, h.not_below has hr hroot hpi hu⟩
  · intro r hr p u hp hpi hu
    obtain ⟨hr, hroot⟩ := hroots r hr
    rw [htable hr hroot p hpi] at hu
    exact h.fresh r hroot p u hp hpi hu
  · intro r hr p t k hp ht hpres
    obtain ⟨hr, hroot⟩ := hroots r hr
    rw [htable hr hroot p hp.of_append] at ht
    rw [h.removeSpace_slot has hlive hag hr hroot (pathIn_widths K.wf hp) hp.of_append ht]
      at hpres ⊢
    exact h.entries r hroot p t k hp ht hpres
  · intro r hr
    obtain ⟨hr, hroot⟩ := hroots r hr
    obtain ⟨t, ht⟩ := h.top r hroot
    exact ⟨t, (htable hr hroot [0] (pathIn_top K.wf)).trans ht⟩
  · intro r hr t ht k hk
    obtain ⟨hr, hroot⟩ := hroots r hr
    rw [htable hr hroot [0] (pathIn_top K.wf)] at ht
    rw [h.removeSpace_slot has hlive hag hr hroot (pathIn_kernel K.wf hk) (pathIn_top K.wf) ht]
    exact h.kernel r hroot t ht k hk
  · intro r μ hμ va hprivate hva
    obtain ⟨hr, hμ⟩ := hspace r μ hμ
    rw [h.removeSpace_mapped has hlive hag hr ⟨μ, hμ⟩]
    exact h.leaf r μ hμ va hprivate hva
  · exact fun r μ hμ => h.frames r μ (hspace r μ hμ).2
  · exact hag.kpt.trans h.kpt
  · exact fun x hx hx' => (hag.mem x (.inl hx)).trans (h.memory x hx hx')

end Unprotect

/-- `unprotect` takes a space away and gives back its tables, and no others. -/
theorem unprotect_spec {α : Type} {K : Kernel α} {σ : Spaces} {s : Vm α} {as : ℕ}
    (h : Inv K σ s) (has : as ∈ roots σ) :
    Inv K (removeSpace σ as) (unprotect K.arch K.pager as s) := by
  obtain ⟨levels, htables⟩ := K.wf.tables
  have hne : K.arch.pgtables ≠ [] := by
    rw [htables]
    exact List.cons_ne_nil _ _
  obtain ⟨hlive, hag⟩ := teardown_spec h has K.arch.pgtables [] [] as s hne rfl rfl pathIn_nil
    rfl ⟨fun _ _ => rfl, h.good, rfl⟩ (fun hnil => absurd rfl hnil)
    (fun k u ⟨q, hq, hu⟩ => (h.pages u).mpr (.inr ⟨as, has, _, by simp, hq, hu⟩))
  exact h.removeSpace has hlive hag

end KmallocKfree.Vme
