import KmallocKfree.AddressSpaces

/-!
# Walking the tables

`ptwalk` finds the entry of an address, and on its way links new tables where there are
none. A link keeps the invariant, so the walk does; if memory runs out the machine stops.
The processor's walk ends at the same entry.
-/
namespace KmallocKfree.Vme

section Entries

variable {c : Arch} {q : ℕ} {p : List ℕ}

/-- The entry that `ptwalk` makes for a new table of an address space. -/
theorem child_new (hc : c.Wf) (hq : 4096 ∣ q) (hlt : q < 2 ^ c.wordBits) :
    child c (q ||| pteP ||| (pteW ||| pteU)) = some q := by
  have hor : q ||| pteP ||| (pteW ||| pteU) = q ||| 7 := Nat.lor_assoc q 1 6
  have hp : (q ||| 7).testBit 0 = true := testBit_entry hq (by decide)
  have hu : (q ||| 7).testBit 2 = true := testBit_entry hq (by decide)
  rw [child, hor, if_pos, baseof_or hc hq hlt (by decide)]
  refine ⟨fun h => ?_, fun h => ?_⟩
  · rw [and_pteP, hp] at h
    cases h
  · rw [and_pteU, hu] at h
    cases h

theorem leads_new (hq : 4096 ∣ q) : Leads p (q ||| pteP ||| (pteW ||| pteU)) := by
  have hor : q ||| pteP ||| (pteW ||| pteU) = q ||| 7 := Nat.lor_assoc q 1 6
  have hw : (q ||| 7).testBit 1 = true := testBit_entry hq (by decide)
  have hu : (q ||| 7).testBit 2 = true := testBit_entry hq (by decide)
  have hs : (q ||| 7).testBit 7 = false := testBit_entry hq (by decide)
  rw [Leads, hor]
  refine ⟨fun h => ?_, and_ptePS.mpr hs, fun _ h => ?_⟩
  · rw [and_pteU, hu] at h
    cases h
  · rw [and_pteW, hw] at h
    cases h

theorem child_zero (c : Arch) : child c 0 = none := by
  simp [child]

theorem child_absent {e : ℕ} (h : e &&& pteP = 0) : child c e = none := by
  rw [child, if_neg]
  exact fun h' => h'.1 h

theorem child_leads {e : ℕ} (h : e &&& pteP ≠ 0) (h' : Leads p e) :
    child c e = some (baseof c e) := if_pos ⟨h, h'.1⟩

end Entries

section Link

variable {α : Type} {K : Kernel α} {σ : Spaces} {s s₁ : Vm α} {as t q k : ℕ} {p : List ℕ}

/-- The machine after a new page is linked. -/
def linked (K : Kernel α) (s₁ : Vm α) (t k q : ℕ) : Vm α :=
  { s₁ with mem := write s₁.mem (entry K.arch t k) (q ||| pteP ||| (pteW ||| pteU)) }

variable (h : Inv K σ s) (has : as ∈ roots σ) (hp : PathIn (inner K.arch) (p ++ [k]))
  (ht : K.table s.mem as p = some t) (hnone : s.mem (entry K.arch t k) &&& pteP = 0)
  (hn : NewPage K s s₁ q)

include hn in
theorem linked_mem {x : ℕ} (hx : Kept K.arch K.live K.used s.pages x)
    (hne : x ≠ entry K.arch t k) : (linked K s₁ t k q).mem x = s.mem x := by
  change write _ _ _ _ = _
  rw [write, if_neg hne, hn.mem x hx]

include h has hp ht

theorem Inv.kept_slot : Kept K.arch K.live K.used s.pages (entry K.arch t k) :=
  h.kept has (pathIn_widths K.wf hp) hp.of_append ht

include hn in
theorem linked_blank {j : ℕ} (hj : j * K.arch.wordSize + K.arch.wordSize ≤ 4096) :
    (linked K s₁ t k q).mem (entry K.arch q j) = 0 := by
  have hne : entry K.arch q j ≠ entry K.arch t k := fun heq =>
    hn.apart (h.kept_slot has hp ht) (heq ▸ inPage_entry hj)
  change write _ _ _ _ = _
  rw [write, if_neg hne, hn.blank j hj]

include hn in
/-- Entries other than the new one are what they were. -/
theorem Inv.linked_entry {as' v j : ℕ} {p' : List ℕ} (has' : as' ∈ roots σ)
    (hp' : PathIn (widths K.arch) (p' ++ [j])) (hpi : PathIn (inner K.arch) p')
    (hv : K.table s.mem as' p' = some v) (hne : ¬(as' = as ∧ p' = p ∧ v = t ∧ j = k)) :
    (linked K s₁ t k q).mem (entry K.arch v j) = s.mem (entry K.arch v j) :=
  linked_mem hn (h.kept has' hp' hpi hv) fun heq =>
    hne (h.apart has' hp' hpi hv has (pathIn_widths K.wf hp) hp.of_append ht heq)

include hnone

/-- Only `as->ptr` itself is no place for a new table. -/
theorem Inv.below_root : p ≠ [] := by
  rintro rfl
  obtain ⟨t', htop⟩ := h.top as has
  obtain rfl : as = t := by simpa [Kernel.table, descend] using ht
  have hk := entry_root K.wf (pathIn_widths K.wf hp) as
  obtain ⟨rfl, -⟩ := hk
  rw [Kernel.table, descend, child_absent hnone] at htop
  cases htop

include hn

theorem Inv.link_tables : Link (child K.arch) (entry K.arch) s.mem (linked K s₁ t k q).mem
    (inner K.arch) (roots σ) as p t k q := by
  have hq : q ∈ K.live s₁.pages := hn.live ▸ Set.mem_insert ..
  obtain ⟨hdvd, hle, hused⟩ := K.laws.page _ _ hn.good q hq
  have hpg := K.wf.pgsize
  rw [hpg] at hdvd hle
  refine ⟨has, hp, ht, child_absent hnone, ?_, ?_, ?_, ?_⟩
  · change child _ (write _ _ _ _) = _
    rw [write, if_pos rfl, child_new K.wf hdvd (by omega)]
  · rintro ⟨r, hr, p', hp', hr'⟩
    by_cases hnil : p' = []
    · subst hnil
      obtain rfl : r = q := by simpa [descend] using hr'
      exact hused r (K.cells_used (h.cells r hr)) ⟨le_rfl, by omega⟩
    · exact hn.fresh ((h.pages q).mpr (.inr ⟨r, hr, p', hnil, hp', hr'⟩))
  · intro j hj
    have hj' := entry_page K.wf (pathIn_widths K.wf hj) (by simp)
    rw [linked_blank h has hp ht hn hj', child_zero]
  · intro r hr p' v j hp' hv hvj
    have hkept := h.kept hr (pathIn_widths K.wf hp') hp'.of_append hv
    by_cases heq : entry K.arch v j = entry K.arch t k
    · obtain ⟨-, -, hvt, hjk⟩ := h.apart hr (pathIn_widths K.wf hp') hp'.of_append hv has
        (pathIn_widths K.wf hp) hp.of_append ht heq
      exact absurd hjk (hvj hvt)
    · rw [linked_mem hn hkept heq]

/-- The tables after a link. -/
theorem Inv.linked_table (as' : ℕ) (has' : as' ∈ roots σ) (p' : List ℕ)
    (hp' : PathIn (inner K.arch) p') (u : ℕ) :
    K.table (linked K s₁ t k q).mem as' p' = some u ↔
      K.table s.mem as' p' = some u ∨ as' = as ∧ p' = p ++ [k] ∧ u = q :=
  (h.link_tables has hp ht hnone hn).descend_eq h.forest as' has' p' hp' u

theorem Inv.linked_mapped (as' va : ℕ) (has' : as' ∈ roots σ) :
    K.mapped (linked K s₁ t k q).mem as' va = K.mapped s.mem as' va := by
  have hpath := pathIn_path K.wf va
  have hleaf := pathIn_leaf K.wf va
  have hiff := h.linked_table has hp ht hnone hn as' has' (path K.arch va) hpath
  unfold Kernel.mapped
  cases hu : K.table s.mem as' (path K.arch va) with
  | some u =>
    have hshort : ¬(as' = as ∧ path K.arch va = p ∧ u = t ∧ leafIndex K.arch va = k) := by
      rintro ⟨-, rfl, -, -⟩
      have := hp.length_le
      simp [path, inner] at this
    rw [(hiff u).mpr (.inl hu), Option.bind_some, Option.bind_some,
      h.linked_entry has hp ht hn has' hleaf hpath hu hshort]
  | none =>
    cases hu' : K.table (linked K s₁ t k q).mem as' (path K.arch va) with
    | none => rfl
    | some u =>
      rcases (hiff u).mp hu' with hold | ⟨-, hpp, rfl⟩
      · rw [hu] at hold
        cases hold
      · have hk := entry_page K.wf hleaf (by rw [hpp]; simp)
        rw [Option.bind_some, linked_blank h has hp ht hn hk]
        rfl

/-- A new table, linked where the walk found none, keeps the invariant. -/
theorem Inv.link (hk : p.length = 1 → k ∉ kernelIndexes K.arch) :
    Inv K σ (linked K s₁ t k q) ∧ K.table (linked K s₁ t k q).mem as (p ++ [k]) = some q := by
  have hnil := h.below_root has hp ht hnone
  have hq : q ∈ K.live s₁.pages := hn.live ▸ Set.mem_insert ..
  obtain ⟨hdvd, hle, hused⟩ := K.laws.page _ _ hn.good q hq
  rw [K.wf.pgsize] at hdvd hle
  have hiff := h.linked_table has hp ht hnone hn
  have hold := fun as' has' p' u hp' hu => (hiff as' has' p' hp' u).mpr (.inl hu)
  have hnew := (hiff as has (p ++ [k]) hp q).mpr (.inr ⟨rfl, rfl, rfl⟩)
  refine ⟨⟨h.cells, (h.link_tables has hp ht hnone hn).forest h.forest, ?_, ?_, ?_, ?_, ?_, ?_,
    h.frames, ?_, ?_, ?_⟩, hnew⟩
  · intro u
    change u ∈ K.live s₁.pages ↔ _
    rw [hn.live, Set.mem_insert_iff, h.pages u]
    constructor
    · rintro (rfl | hu | ⟨as', has', p', hp', hpi', hu⟩)
      · exact .inr ⟨as, has, p ++ [k], by simp, hp, hnew⟩
      · exact .inl hu
      · exact .inr ⟨as', has', p', hp', hpi', hold as' has' p' u hpi' hu⟩
    · rintro (hu | ⟨as', has', p', hp', hpi', hu⟩)
      · exact .inr (.inl hu)
      · rcases (hiff as' has' p' hpi' u).mp hu with hu | ⟨-, -, rfl⟩
        · exact .inr (.inr ⟨as', has', p', hp', hpi', hu⟩)
        · exact .inl rfl
  · intro as' has' p' u hp' hpi' hu
    rcases (hiff as' has' p' hpi' u).mp hu with hu | ⟨-, -, rfl⟩
    · exact h.fresh as' has' p' u hp' hpi' hu
    · exact fun hstart => hn.fresh ((h.pages u).mpr (.inl hstart))
  · intro as' has' p' v j hp' hv hpres
    rcases (hiff as' has' p' hp'.of_append v).mp hv with hv | ⟨rfl, rfl, rfl⟩
    · by_cases hsame : as' = as ∧ p' = p ∧ v = t ∧ j = k
      · obtain ⟨-, -, rfl, rfl⟩ := hsame
        left
        change Leads _ (write _ _ _ _)
        rw [write, if_pos rfl]
        exact leads_new hdvd
      · rw [h.linked_entry has hp ht hn has' (pathIn_widths K.wf hp') hp'.of_append hv
          hsame] at hpres ⊢
        exact h.entries as' has' p' v j hp' hv hpres
    · have hj := entry_page K.wf (pathIn_widths K.wf hp') (by simp)
      rw [linked_blank h has hp ht hn hj] at hpres
      exact absurd (Nat.zero_and _) hpres
  · intro as' has'
    obtain ⟨u, hu⟩ := h.top as' has'
    exact ⟨u, hold as' has' [0] u (pathIn_top K.wf) hu⟩
  · intro as' has' u hu i hi
    rcases (hiff as' has' [0] (pathIn_top K.wf) u).mp hu with hu | ⟨-, hpp, -⟩
    · have hsame : ¬(as' = as ∧ [0] = p ∧ u = t ∧ i = k) := by
        rintro ⟨-, rfl, -, rfl⟩
        exact hk rfl hi
      rw [h.linked_entry has hp ht hn has' (pathIn_kernel K.wf hi) (pathIn_top K.wf) hu hsame]
      exact h.kernel as' has' u hu i hi
    · have := congrArg List.length hpp
      simp only [List.length_cons, List.length_nil, List.length_append] at this
      exact absurd (List.length_eq_zero_iff.mp (by omega)) hnil
  · intro as' μ hμ va hprivate hva
    rw [h.linked_mapped has hp ht hnone hn as' va ⟨μ, hμ⟩]
    exact h.leaf as' μ hμ va hprivate hva
  · exact hn.kpt.trans h.kpt
  · intro x hx hcell
    have hne : x ≠ entry K.arch t k := by
      rintro rfl
      rcases h.place has (pathIn_widths K.wf hp) hp.of_append ht with
        ⟨hnil', -⟩ | ⟨-, hlive, -, hin⟩
      · exact hnil hnil'
      · exact (K.laws.page _ _ h.good t hlive).2.2 _ hx hin
    rw [linked_mem hn (.inl hx) hne]
    exact h.memory x hx hcell
  · refine good_write _ hn.good ?_
    rcases h.kept_slot has hp ht with hused | ⟨u, hu, hin⟩
    · exact .inl hused
    · exact .inr ⟨u, hn.live ▸ Set.mem_insert_of_mem _ hu, hin⟩

end Link

section Walk

variable {α : Type} {K : Kernel α} {σ : Spaces} {as va : ℕ}

/-- The levels that a walk has behind it. -/
theorem path_split {before after : List PtInfo} {info : PtInfo}
    (hsplit : K.arch.pgtables = before ++ info :: after) (hafter : after ≠ []) (va : ℕ) :
    path K.arch va = before.map (indexof va) ++ [indexof va info] ++
      after.dropLast.map (indexof va) := by
  rw [path, hsplit, List.dropLast_append_of_ne_nil (List.cons_ne_nil _ _),
    List.dropLast_cons_of_ne_nil hafter]
  simp

theorem path_last {before : List PtInfo} {info : PtInfo}
    (hsplit : K.arch.pgtables = before ++ [info]) (va : ℕ) :
    path K.arch va = before.map (indexof va) ∧ leafIndex K.arch va = indexof va info := by
  rw [path, leafIndex, hsplit]
  simp

/-- The entry of a user's address in the first level is none of the kernel's. -/
theorem not_kernel {before after : List PtInfo} {info : PtInfo}
    (hsplit : K.arch.pgtables = before ++ info :: after) (hprivate : K.Private va)
    (hlen : before.length = 1) : indexof va info ∉ kernelIndexes K.arch := by
  obtain ⟨levels, ht⟩ := K.wf.tables
  obtain ⟨b, rfl⟩ := List.length_eq_one_iff.mp hlen
  rw [ht] at hsplit
  simp only [List.cons_append, List.nil_append, List.cons.injEq] at hsplit
  rw [← hsplit.2.1]
  exact hprivate.2

theorem ptwalkFrom_spec (has : as ∈ roots σ) (hprivate : K.Private va) :
    ∀ (after before : List PtInfo) (t : ℕ) (s : Vm α), after ≠ [] →
      K.arch.pgtables = before ++ after →
      K.table s.mem as (before.map (indexof va)) = some t → Inv K σ s →
      (ptwalkFrom K.arch K.pager va (pteW ||| pteU) after t s = .error .cannotAllocate ∧
          K.table s.mem as (path K.arch va) = none ∧
          RunsOut K.arch K.pager K.live K.used after.length s.pages s.mem) ∨
        ∃ s' t', ptwalkFrom K.arch K.pager va (pteW ||| pteU) after t s =
          .ok (entry K.arch t' (leafIndex K.arch va), s') ∧
            Inv K σ s' ∧ K.table s'.mem as (path K.arch va) = some t' := by
  intro after
  induction after with
  | nil => intro _ _ _ hne; exact absurd rfl hne
  | cons info after ih =>
    intro before t s _ hsplit ht h
    cases after with
    | nil =>
      obtain ⟨hpath, hleaf⟩ := path_last hsplit va
      exact .inr ⟨s, t, by rw [hleaf]; rfl, h, by rw [hpath]; exact ht⟩
    | cons next after =>
      have hne : next :: after ≠ [] := List.cons_ne_nil _ _
      have hpath := path_split hsplit hne va
      have hp : PathIn (inner K.arch) (before.map (indexof va) ++ [indexof va info]) :=
        (hpath ▸ pathIn_path K.wf va).of_append
      have hk : (before.map (indexof va)).length = 1 →
          indexof va info ∉ kernelIndexes K.arch := by
        rw [List.length_map]
        exact not_kernel hsplit hprivate
      have hsplit' : K.arch.pgtables = (before ++ [info]) ++ next :: after := by
        rw [hsplit]
        simp
      have hmap : (before ++ [info]).map (indexof va) =
          before.map (indexof va) ++ [indexof va info] := by simp
      simp only [ptwalkFrom]
      by_cases hpres : s.mem (entry K.arch t (indexof va info)) &&& pteP = 0
      · have hnone : K.table s.mem as (path K.arch va) = none := by
          rw [hpath, Kernel.table, descend_append, descend_snoc_of ht, child_absent hpres]
          rfl
        rw [if_pos hpres]
        rcases pgallocz_spec K h.good with ⟨hfail, hzero⟩ | ⟨q, s₁, hq, hn⟩
        · rw [hfail]
          exact .inl ⟨rfl, hnone, .now hzero⟩
        · obtain ⟨hinv, htab⟩ := h.link has hp ht hpres hn hk
          rw [hq]
          refine (ih (before ++ [info]) q _ hne hsplit' (by rw [hmap]; exact htab) hinv).imp_left ?_
          rintro ⟨hfail, -, hout⟩
          exact ⟨hfail, hnone, hn.runsOut _ (hout.of_write (hn.kept (h.kept_slot has hp ht)))⟩
      · rw [if_neg hpres]
        rcases h.entries as has _ t _ hp ht hpres with hleads | ⟨hlen, hker⟩
        · have htab : K.table s.mem as ((before ++ [info]).map (indexof va)) =
              some (baseof K.arch (s.mem (entry K.arch t (indexof va info)))) := by
            rw [hmap, Kernel.table, descend_snoc_of ht, child_leads hpres hleads]
          refine (ih (before ++ [info]) _ s hne hsplit' htab h).imp_left ?_
          rintro ⟨hfail, hnone, hout⟩
          exact ⟨hfail, hnone, hout.mono (Nat.le_succ _)⟩
        · exact absurd hker (hk hlen)

/-- `ptwalk` ends at the entry of the address, unless a table is missing and memory runs out. -/
theorem ptwalk_spec {s : Vm α} (h : Inv K σ s) (has : as ∈ roots σ) (hprivate : K.Private va) :
    (ptwalk K.arch K.pager as va (pteW ||| pteU) s = .error .cannotAllocate ∧
        K.table s.mem as (path K.arch va) = none ∧
        RunsOut K.arch K.pager K.live K.used K.arch.pgtables.length s.pages s.mem) ∨
      ∃ s' t, ptwalk K.arch K.pager as va (pteW ||| pteU) s =
        .ok (entry K.arch t (leafIndex K.arch va), s') ∧
          Inv K σ s' ∧ K.table s'.mem as (path K.arch va) = some t := by
  obtain ⟨levels, htables⟩ := K.wf.tables
  have hne : K.arch.pgtables ≠ [] := by
    rw [htables]
    exact List.cons_ne_nil _ _
  exact ptwalkFrom_spec has hprivate K.arch.pgtables [] as s hne rfl rfl h

end Walk

section Store

variable {α : Type} {K : Kernel α} {σ : Spaces} {s : Vm α} {as va t e : ℕ} {μ : Space}
  {x : Option (ℕ × Bool)}

/-- The spaces after a page is mapped or unmapped. -/
def remap (σ : Spaces) (as : ℕ) (μ : Space) (va : ℕ) (x : Option (ℕ × Bool)) : Spaces :=
  Function.update σ as (some (Function.update μ va x))

theorem roots_remap (hμ : σ as = some μ) : roots (remap σ as μ va x) = roots σ := by
  ext r
  by_cases h : r = as
  · subst h
    simp [roots, remap, hμ]
  · simp [roots, remap, h]

/-- The machine after a store to an entry of the last level. -/
def stored (K : Kernel α) (s : Vm α) (t va e : ℕ) : Vm α :=
  { s with mem := write s.mem (entry K.arch t (leafIndex K.arch va)) e }

variable (h : Inv K σ s) (hμ : σ as = some μ) (ht : K.table s.mem as (path K.arch va) = some t)

include h hμ ht

theorem Inv.stored_entry {as' v j : ℕ} {p' : List ℕ} (has' : as' ∈ roots σ)
    (hp' : PathIn (widths K.arch) (p' ++ [j])) (hpi : PathIn (inner K.arch) p')
    (hv : K.table s.mem as' p' = some v)
    (hne : ¬(as' = as ∧ p' = path K.arch va ∧ v = t ∧ j = leafIndex K.arch va)) :
    (stored K s t va e).mem (entry K.arch v j) = s.mem (entry K.arch v j) := by
  change write _ _ _ _ = _
  rw [write, if_neg]
  exact fun heq => hne (h.apart has' hp' hpi hv ⟨μ, hμ⟩ (pathIn_leaf K.wf va)
    (pathIn_path K.wf va) ht heq)

theorem Inv.stored_inner {as' v j : ℕ} {p' : List ℕ} (has' : as' ∈ roots σ)
    (hp' : PathIn (inner K.arch) (p' ++ [j])) (hv : K.table s.mem as' p' = some v) :
    (stored K s t va e).mem (entry K.arch v j) = s.mem (entry K.arch v j) := by
  refine h.stored_entry hμ ht has' (pathIn_widths K.wf hp') hp'.of_append hv ?_
  rintro ⟨-, rfl, -, -⟩
  have := hp'.length_le
  simp [path, inner] at this

theorem Inv.stored_table (as' : ℕ) (has' : as' ∈ roots σ) (p' : List ℕ)
    (hp' : PathIn (inner K.arch) p') :
    K.table (stored K s t va e).mem as' p' = K.table s.mem as' p' :=
  descend_congr (fun p k u hp hu => by rw [h.stored_inner hμ ht has' hp hu]) p' hp'

theorem Inv.stored_mapped (hprivate : K.Private va) (hva : 4096 ∣ va) {as' va' : ℕ}
    (has' : as' ∈ roots σ) (hprivate' : K.Private va') (hva' : 4096 ∣ va')
    (hne : ¬(as' = as ∧ va' = va)) :
    K.mapped (stored K s t va e).mem as' va' = K.mapped s.mem as' va' := by
  have hpath := pathIn_path K.wf va'
  unfold Kernel.mapped
  rw [h.stored_table hμ ht as' has' _ hpath]
  cases hu : K.table s.mem as' (path K.arch va') with
  | none => rfl
  | some u =>
    rw [Option.bind_some, Option.bind_some,
      h.stored_entry hμ ht has' (pathIn_leaf K.wf va') hpath hu]
    rintro ⟨rfl, hpp, -, hleaf⟩
    have hlt := hprivate.1
    have hlt' := hprivate'.1
    exact hne ⟨rfl, eq_of_entries K.wf hva' hva hlt' hlt hpp hleaf⟩

/-- A store to the entry of a page changes what the page is mapped to. -/
theorem Inv.store (hprivate : K.Private va) (hva : 4096 ∣ va)
    (hx : ∀ y, x = some y → 4096 ∣ y.1 ∧ y.1 < 2 ^ K.arch.wordBits)
    (he : (if e &&& pteP = 0 then none else some e) = x.map pteOf) :
    Inv K (remap σ as μ va x) (stored K s t va e) := by
  have hroots : roots (remap σ as μ va x) = roots σ := roots_remap hμ
  have hsame := h.stored_table (e := e) hμ ht
  refine ⟨?_, ?_, ?_, ?_, ?_, ?_, ?_, ?_, ?_, h.kpt, ?_,
    good_write e h.good (h.kept ⟨μ, hμ⟩ (pathIn_leaf K.wf va) (pathIn_path K.wf va) ht)⟩
  · rw [hroots]
    exact h.cells
  · rw [hroots]
    exact h.forest.congr hsame
  · intro u
    rw [hroots]
    refine (h.pages u).trans (or_congr_right ?_)
    constructor
    · rintro ⟨as', has', p', hp', hpi', hu⟩
      exact ⟨as', has', p', hp', hpi', (hsame as' has' p' hpi').trans hu⟩
    · rintro ⟨as', has', p', hp', hpi', hu⟩
      exact ⟨as', has', p', hp', hpi', (hsame as' has' p' hpi').symm.trans hu⟩
  · rw [hroots]
    intro as' has' p' u hp' hpi' hu
    rw [hsame as' has' p' hpi'] at hu
    exact h.fresh as' has' p' u hp' hpi' hu
  · rw [hroots]
    intro as' has' p' v j hp' hv hpres
    rw [hsame as' has' p' hp'.of_append] at hv
    rw [h.stored_inner hμ ht has' hp' hv] at hpres ⊢
    exact h.entries as' has' p' v j hp' hv hpres
  · rw [hroots]
    intro as' has'
    rw [hsame as' has' [0] (pathIn_top K.wf)]
    exact h.top as' has'
  · rw [hroots]
    intro as' has' u hu i hi
    rw [hsame as' has' [0] (pathIn_top K.wf)] at hu
    rw [h.stored_entry hμ ht has' (pathIn_kernel K.wf hi) (pathIn_top K.wf) hu]
    · exact h.kernel as' has' u hu i hi
    · rintro ⟨-, hpath, -⟩
      have hlen := two_le_length_path K.wf va
      simp [← hpath] at hlen
  · intro as' μ' hμ' va' hprivate' hva'
    by_cases has' : as' = as
    · subst has'
      obtain rfl : Function.update μ va x = μ' := by simpa [remap] using hμ'
      by_cases hvv : va' = va
      · subst hvv
        rw [Kernel.mapped, hsame as' ⟨μ, hμ⟩ _ (pathIn_path K.wf va'), ht,
          Function.update_self, ← he]
        change (if write _ _ _ _ &&& pteP = 0 then none else some (write _ _ _ _)) = _
        rw [write, if_pos rfl]
      · rw [h.stored_mapped hμ ht hprivate hva ⟨μ, hμ⟩ hprivate' hva' (fun hne => hvv hne.2),
          Function.update_of_ne hvv]
        exact h.leaf as' μ hμ va' hprivate' hva'
    · have hμ'' : σ as' = some μ' := by simpa [remap, has'] using hμ'
      rw [h.stored_mapped hμ ht hprivate hva ⟨μ', hμ''⟩ hprivate' hva' (fun hne => has' hne.1)]
      exact h.leaf as' μ' hμ'' va' hprivate' hva'
  · intro as' μ' hμ' va' y hy
    by_cases has' : as' = as
    · subst has'
      obtain rfl : Function.update μ va x = μ' := by simpa [remap] using hμ'
      by_cases hvv : va' = va
      · subst hvv
        rw [Function.update_self] at hy
        exact hx y hy
      · rw [Function.update_of_ne hvv] at hy
        exact h.frames as' μ hμ va' y hy
    · have hμ'' : σ as' = some μ' := by simpa [remap, has'] using hμ'
      exact h.frames as' μ' hμ'' va' y hy
  · intro y hy hcell
    have hne : y ≠ entry K.arch t (leafIndex K.arch va) := by
      rintro rfl
      rcases h.place ⟨μ, hμ⟩ (pathIn_leaf K.wf va) (pathIn_path K.wf va) ht with
        ⟨hnil, -⟩ | ⟨-, hlive, -, hin⟩
      · have hlen := two_le_length_path K.wf va
        simp [hnil] at hlen
      · exact (K.laws.page _ _ h.good t hlive).2.2 _ hy hin
    change write _ _ _ _ = _
    rw [write, if_neg hne]
    exact h.memory y hy hcell

end Store
end KmallocKfree.Vme
