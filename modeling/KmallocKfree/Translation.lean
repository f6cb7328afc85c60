import KmallocKfree.PageWalk

/-!
# What the processor sees

Under the invariant the processor translates the addresses of a user by the map of the address
space, with user rights and the right to write that the map gives; the kernel's addresses
it translates in every address space as before, and never for the user.
-/
namespace KmallocKfree.Vme

variable {α : Type} {K : Kernel α} {σ : Spaces} {s : Vm α} {as va : ℕ} {μ : Space}

/-- The rights and the frame in an entry of the last level. -/
def access (c : Arch) (va e : ℕ) : Access :=
  ⟨baseof c e + va % c.pgsize, e &&& pteW ≠ 0, e &&& pteU ≠ 0⟩

/-- The processor's walk ends at the entry that `ptwalk` would find. -/
theorem translateFrom_eq (h : Inv K σ s) (has : as ∈ roots σ) (hprivate : K.Private va) :
    ∀ (after before : List PtInfo) (t : ℕ), after ≠ [] → before ≠ [] →
      K.arch.pgtables = before ++ after →
      K.table s.mem as (before.map (indexof va)) = some t →
      translateFrom K.arch s.mem va after t =
        (K.mapped s.mem as va).map (access K.arch va) := by
  intro after
  induction after with
  | nil => intro _ _ hne; exact absurd rfl hne
  | cons info after ih =>
    intro before t _ hbefore hsplit ht
    cases after with
    | nil =>
      obtain ⟨hpath, hleaf⟩ := path_last hsplit va
      rw [Kernel.mapped, hpath, ht, hleaf]
      simp only [translateFrom, List.isEmpty_nil, Option.bind_some, if_true]
      split_ifs <;> rfl
    | cons next after =>
      have hne : next :: after ≠ [] := List.cons_ne_nil _ _
      have hpath := path_split hsplit hne va
      have hp : PathIn (inner K.arch) (before.map (indexof va) ++ [indexof va info]) :=
        (hpath ▸ pathIn_path K.wf va).of_append
      have hsplit' : K.arch.pgtables = (before ++ [info]) ++ next :: after := by
        rw [hsplit]
        simp
      have hmap : (before ++ [info]).map (indexof va) =
          before.map (indexof va) ++ [indexof va info] := by simp
      rw [translateFrom]
      by_cases hpres : s.mem (entry K.arch t (indexof va info)) &&& pteP = 0
      · have hnone : K.table s.mem as (path K.arch va) = none := by
          rw [hpath, Kernel.table, descend_append, descend_snoc_of ht, child_absent hpres]
          rfl
        rw [Kernel.mapped, hnone, if_pos hpres]
        rfl
      · rcases h.entries as has _ t _ hp ht hpres with hleads | ⟨hlen, hker⟩
        · have hnext : K.table s.mem as ((before ++ [info]).map (indexof va)) =
              some (baseof K.arch (s.mem (entry K.arch t (indexof va info)))) := by
            rw [hmap, Kernel.table, descend_snoc_of ht, child_leads hpres hleads]
          obtain ⟨hu, hps, hw⟩ := hleads
          have hw' := hw (by simpa using hbefore)
          rw [if_neg hpres, if_neg (by simp), if_neg (not_not.mpr hps),
            ih (before ++ [info]) _ hne (by simp) hsplit' hnext]
          simp only [ne_eq, hw', hu, not_false_eq_true, decide_true, Bool.and_true,
            Option.map_map]
          rfl
        · rw [List.length_map] at hlen
          exact absurd hker (not_kernel hsplit hprivate hlen)

/-- The table of the first level, as the processor finds it. -/
theorem baseof_root (ht : K.table s.mem as [0] = some t) : baseof K.arch (s.mem as) = t := by
  have hchild : child K.arch (s.mem as) = some t := by
    simpa [Kernel.table, descend, entry] using ht
  unfold child at hchild
  split_ifs at hchild
  simpa using hchild

theorem baseof_pteOf {x : ℕ × Bool} (hdvd : 4096 ∣ x.1) (hlt : x.1 < 2 ^ K.arch.wordBits) :
    access K.arch va (pteOf x) = ⟨x.1 + va % 4096, x.2, true⟩ := by
  have hor : pteOf x = x.1 ||| (5 ||| if x.2 then 2 else 0) := by
    rw [pteOf, Nat.lor_assoc, Nat.lor_assoc, ← Nat.lor_assoc pteP]
    rfl
  have hflags : (5 ||| if x.2 then 2 else 0) < 4096 := by
    cases x.2 <;> decide
  have hw : (pteOf x).testBit 1 = x.2 := by
    rw [hor, testBit_entry hdvd (by decide)]
    cases x.2 <;> decide
  have hu : (pteOf x).testBit 2 = true := by
    rw [hor, testBit_entry hdvd (by decide)]
    cases x.2 <;> decide
  rw [access, hor, baseof_or K.wf hdvd hlt hflags, ← hor, K.wf.pgsize]
  simp [and_pteW, and_pteU, hw, hu]

/-- User addresses are translated by the map of the address space. -/
theorem Inv.translate_user (h : Inv K σ s) (hμ : σ as = some μ) (hprivate : K.Private va) :
    translate K.arch s.mem (s.mem as) va =
      (μ (va / 4096 * 4096)).map fun x => ⟨x.1 + va % 4096, x.2, true⟩ := by
  obtain ⟨levels, htables⟩ := K.wf.tables
  obtain ⟨t, ht⟩ := h.top as ⟨μ, hμ⟩
  have hfirst : K.arch.first ∈ K.arch.pgtables := by
    rw [htables]
    simp
  have hpage : K.Private (va / 4096 * 4096) := by
    refine ⟨lt_of_le_of_lt (Nat.div_mul_le_self va 4096) hprivate.1, ?_⟩
    rw [indexof_page K.wf hfirst]
    exact hprivate.2
  have hleaf := h.leaf as μ hμ _ hpage (Dvd.intro_left _ rfl)
  have hmapped : K.mapped s.mem as (va / 4096 * 4096) = K.mapped s.mem as va := by
    obtain ⟨hpath, hindex⟩ := path_page K.wf va
    rw [Kernel.mapped, Kernel.mapped, hpath, hindex]
  have hroot : [(⟨0, 0, 0⟩ : PtInfo)].map (indexof va) = [0] := by simp [indexof]
  rw [translate, baseof_root ht, htables, List.tail_cons,
    translateFrom_eq h ⟨μ, hμ⟩ hprivate _ [⟨0, 0, 0⟩] t (List.cons_ne_nil _ _)
      (List.cons_ne_nil _ _) (by rw [htables]; rfl) (by rw [hroot]; exact ht),
    ← hmapped, hleaf, Option.map_map]
  cases hx : μ (va / 4096 * 4096) with
  | none => rfl
  | some x =>
    obtain ⟨hdvd, hlt⟩ := h.frames as μ hμ _ x hx
    exact congrArg some (baseof_pteOf hdvd hlt)

/-- Kernel addresses are translated as by the tables of the kernel. -/
theorem Inv.translate_kernel (h : Inv K σ s) (has : as ∈ roots σ)
    (hva : indexof va K.arch.first ∈ kernelIndexes K.arch) :
    translate K.arch s.mem (s.mem as) va = translate K.arch K.start.mem K.start.kpt va := by
  obtain ⟨levels, htables⟩ := K.wf.tables
  obtain ⟨t, ht⟩ := h.top as has
  have hsame : s.mem (entry K.arch t (indexof va K.arch.first)) =
      s.mem (entry K.arch K.start.kpt (indexof va K.arch.first)) := by
    obtain ⟨hused, hcell⟩ := K.kpt_used _ hva
    rw [h.kernel as has t ht _ hva, h.memory _ hused hcell]
  rw [translate, translate, baseof_root ht, K.kpt_base, ← K.kpt_closed s.mem h.memory va hva,
    htables, List.tail_cons, translateFrom, translateFrom, hsame]

/-- The user has no access to them. -/
theorem Kernel.translate_not_user (K : Kernel α)
    (hva : indexof va K.arch.first ∈ kernelIndexes K.arch) {x : Access}
    (hx : translate K.arch K.start.mem K.start.kpt va = some x) : x.user = false := by
  obtain ⟨levels, htables⟩ := K.wf.tables
  have hu := K.kpt_kernel _ hva
  rw [translate, K.kpt_base, htables, List.tail_cons, translateFrom] at hx
  simp only [hu] at hx
  split_ifs at hx
  · cases hx
    rfl
  · cases hx
    rfl
  · obtain ⟨y, -, rfl⟩ := Option.map_eq_some_iff.mp hx
    simp

end KmallocKfree.Vme
