import KmallocKfree.PageList

/-!
# The page after a block was freed

Freeing joins the block with the free nodes that touch it. The joined node and the
nodes away from the block are again a free list of the page, and when the joined
node covers all blocks it is the only one.
-/
namespace KmallocKfree

open Region

namespace Page

/-- The free list after block `t` was freed. When the freed block joins its two
neighbours and the upper one was the head, the list restarts at the lower one. -/
def release (pg : Page) (t : Region) : List Region :=
  match touchingBelow pg.runs t, touchingAbove pg.runs t with
  | some b, some a =>
      if pg.runs.head? = some a then
        (grow b (t.len + a.len) pg.runs).dropWhile fun r => decide (r.start ≠ b.start)
      else (grow b (t.len + a.len) pg.runs).erase a
  | some b, none => grow b t.len pg.runs
  | none, some a => ⟨t.start, t.len + a.len⟩ :: pg.runs.erase a
  | none, none => t :: pg.runs

/-- The page after block `t` was freed: empty when the joined node is all of it. -/
def freed (pg : Page) (t : Region) : Page :=
  if (joined t pg.runs).len = pageBytes - pg.cls then
    { pg with cls := 0, runs := [], looped := false }
  else { pg with runs := pg.release t, looped := pg.looped || pg.runs.isEmpty }

@[simp] theorem freed_base (pg : Page) (t : Region) : (pg.freed t).base = pg.base := by
  unfold freed
  split_ifs <;> rfl

@[simp] theorem freed_owner (pg : Page) (t : Region) : (pg.freed t).owner = pg.owner := by
  unfold freed
  split_ifs <;> rfl

end Page

/-- A block `t` of page `pg` that is not free. -/
structure Freeable (pg : Page) (t : Region) : Prop where
  valid : pg.Valid
  cls : SizeClass pg.cls
  block : AtBlock pg.base pg.cls t.start
  len : t.len = pg.cls
  apart : ∀ r ∈ pg.runs, r.Disj t

/-- The block touches the head node above it and, below it, a node that does not come
right after the head. -/
def Skips (pg : Page) (t : Region) : Prop :=
  ∃ a l₁ b l₂, pg.runs = a :: (l₁ ++ b :: l₂) ∧ l₁ ≠ [] ∧ a.start = t.stop ∧ b.stop = t.start

namespace Freeable

variable {pg : Page} {t r a b : Region}

theorem start_bounds (h : Freeable pg t) :
    pg.base + pg.cls ≤ t.start ∧ t.stop ≤ pg.base + pageBytes := by
  obtain ⟨k, hk, hstart, hle⟩ := h.block
  have := Nat.le_mul_of_pos_left pg.cls hk
  have hlen := h.len
  unfold Region.stop
  omega

/-- Seen from the block, all free nodes lie in the page, behind its header. -/
theorem around (h : Freeable pg t) : Around pg.runs t [] (pg.base + 16) (pg.base + pageBytes) where
  disj := h.valid.disj
  pos r hr := by
    have := (h.valid.run r hr).bounds
    have := h.cls.ge
    omega
  apart := h.apart
  len := by
    have := h.len
    have := h.cls.ge
    omega
  inside r hr := by
    have := (h.valid.run r hr).bounds
    have := h.cls.ge
    omega
  span := by
    have := h.start_bounds
    have := h.cls.ge
    omega
  outside := by simp

theorem isRun (h : Freeable pg t) : IsRun pg.base pg.cls t := by
  obtain ⟨k, hk, hstart, hle⟩ := h.block
  have hlen := h.len
  exact ⟨k, 1, hk, one_pos, hstart, by omega, by unfold Region.stop; omega⟩

theorem apart_node (h : Freeable pg t) (hr : r ∈ pg.runs) : Apart t.start r.start := by
  have hd := h.apart r hr
  have hc := h.cls.ge
  have hlen := h.len
  have hr' := (h.valid.run r hr).bounds
  exact (hd.apart (by omega) (by omega)).symm

theorem apart_base (h : Freeable pg t) : Apart t.start pg.base := by
  have := h.start_bounds
  have := h.cls.ge
  unfold Apart
  omega

theorem atBlock (h : Freeable pg t) (hr : r ∈ pg.runs) : AtBlock pg.base pg.cls r.start :=
  (h.valid.run r hr).atBlock

/-- The block, the nodes and the addresses outside the page's blocks are different. -/
theorem walk_nodup (h : Freeable pg t) {T : List ℕ}
    (hout : ∀ q ∈ T, q = pg.base ∨ q + 16 ≤ pg.base ∨ pg.base + pageBytes ≤ q) (hT : T.Nodup) :
    (t.start :: (pg.runs.map Region.start ++ T)).Nodup := by
  have hc := h.cls.ge
  refine List.nodup_cons.mpr ⟨fun hmem => ?_, List.nodup_append.mpr
    ⟨h.valid.separated.nodup, hT, fun x hx y hy hxy => ?_⟩⟩
  · rcases List.mem_append.mp hmem with hx | hx
    · obtain ⟨r, hr, hrt⟩ := List.mem_map.mp hx
      exact (h.apart_node hr).ne hrt.symm
    · have hout := hout _ hx
      have hb := h.start_bounds
      have hlen := h.len
      unfold Region.stop at hb
      omega
  · obtain ⟨r, hr, rfl⟩ := List.mem_map.mp hx
    have hout := hout y hy
    have hb := (h.valid.run r hr).bounds
    unfold Region.stop at hb
    omega

end Freeable

theorem dropWhile_split {l₁ l₂ : List Region} {b : Region} (h : ∀ x ∈ l₁, x.start ≠ b.start) :
    (l₁ ++ b :: l₂).dropWhile (fun r => decide (r.start ≠ b.start)) = b :: l₂ := by
  induction l₁ with
  | nil => simp
  | cons x l₁ ih =>
    have hx := h x List.mem_cons_self
    rw [List.cons_append, List.dropWhile_cons_of_pos (by simpa using hx)]
    exact ih fun y hy => h y (List.mem_cons_of_mem _ hy)

/-- Two adjacent runs are one run. -/
theorem IsRun.join {base c : ℕ} {r t : Region} (hr : IsRun base c r) (ht : IsRun base c t)
    (hadj : r.stop = t.start) : IsRun base c ⟨r.start, r.len + t.len⟩ := by
  obtain ⟨k, n, hk, hn, hstart, hlen, hstop⟩ := hr
  obtain ⟨k', n', hk', hn', hstart', hlen', hstop'⟩ := ht
  refine ⟨k, n + n', hk, by omega, hstart, ?_, ?_⟩
  · simp only [hlen, hlen', Nat.add_mul]
  · unfold Region.stop at *
    simp only
    omega

namespace Freeable

variable {pg : Page} {t r a b : Region}

theorem joined_isRun (h : Freeable pg t) : IsRun pg.base pg.cls (joined t pg.runs) := by
  unfold joined
  split
  · next b a hb ha =>
    obtain ⟨hbm, hbt⟩ := touchingBelow_some hb
    obtain ⟨ham, hat⟩ := touchingAbove_some ha
    exact (h.valid.run b hbm).join (h.isRun.join (h.valid.run a ham) hat.symm) hbt
  · next b hb _ =>
    obtain ⟨hbm, hbt⟩ := touchingBelow_some hb
    exact (h.valid.run b hbm).join h.isRun hbt
  · next a _ ha =>
    obtain ⟨ham, hat⟩ := touchingAbove_some ha
    exact h.isRun.join (h.valid.run a ham) hat.symm
  · exact h.isRun

theorem below_lt_above (h : Freeable pg t) (hb : touchingBelow pg.runs t = some b)
    (ha : touchingAbove pg.runs t = some a) : b.start < a.start := by
  obtain ⟨hbm, hbt⟩ := touchingBelow_some hb
  obtain ⟨-, hat⟩ := touchingAbove_some ha
  have hpos := h.around.len
  unfold Region.stop at *
  omega

theorem touchingBelow_eq (h : Freeable pg t) (hb : b ∈ pg.runs) (hbt : b.stop = t.start) :
    touchingBelow pg.runs t = some b := by
  cases hx : touchingBelow pg.runs t with
  | none => exact absurd hbt (touchingBelow_none hx hb)
  | some x =>
    obtain ⟨hxm, hxt⟩ := touchingBelow_some hx
    have hxpos := h.around.pos x hxm
    have hbpos := h.around.pos b hb
    by_contra hne
    have hd := disjoint_of_ne h.valid.disj hxm hb (by
      rintro rfl
      exact hne rfl)
    unfold Disj Region.stop at *
    omega

theorem touchingAbove_eq (h : Freeable pg t) (ha : a ∈ pg.runs) (hat : a.start = t.stop) :
    touchingAbove pg.runs t = some a := by
  cases hx : touchingAbove pg.runs t with
  | none => exact absurd hat (touchingAbove_none hx ha)
  | some x =>
    obtain ⟨hxm, hxt⟩ := touchingAbove_some hx
    rw [eq_of_start_eq h.valid.disj (fun r hr => h.around.pos r hr) hxm ha (hxt.trans hat.symm)]

/-- Then the list restarts at the node below: the nodes between the two are dropped. -/
theorem release_of_skips (h : Freeable pg t) {l₁ l₂ : List Region}
    (hruns : pg.runs = a :: (l₁ ++ b :: l₂)) (ha : a.start = t.stop) (hb : b.stop = t.start) :
    pg.release t = joined t pg.runs :: l₂ := by
  have hdisj := h.valid.disj
  have hbm : b ∈ pg.runs := by rw [hruns]; simp
  have ham : a ∈ pg.runs := by rw [hruns]; simp
  have hbelow : touchingBelow pg.runs t = some b := h.touchingBelow_eq hbm hb
  have habove : touchingAbove pg.runs t = some a := h.touchingAbove_eq ham ha
  have hlt := h.below_lt_above hbelow habove
  have hnd := h.valid.separated.nodup_list
  rw [hruns] at hnd
  obtain ⟨hab, hnd'⟩ := List.nodup_cons.mp hnd
  obtain ⟨-, hnd₂, hcross⟩ := List.nodup_append.mp hnd'
  have h₁ : b ∉ l₁ := fun hmem => hcross b hmem b List.mem_cons_self rfl
  have h₂ : b ∉ l₂ := (List.nodup_cons.mp hnd₂).1
  have hgrow : grow b (t.len + a.len) pg.runs =
      (a :: l₁) ++ ⟨b.start, b.len + (t.len + a.len)⟩ :: l₂ := by
    rw [hruns, ← List.cons_append, grow_split _ _ h₂]
    rintro hmem
    obtain rfl | hmem := List.mem_cons.mp hmem
    · exact lt_irrefl _ hlt
    · exact h₁ hmem
  have hstarts : ∀ x ∈ a :: l₁, x.start ≠ b.start := by
    intro x hx heq
    have hxm : x ∈ pg.runs := by
      rw [hruns, ← List.cons_append]
      exact List.mem_append_left _ hx
    obtain rfl := eq_of_start_eq hdisj (fun r hr => h.around.pos r hr) hxm hbm heq
    obtain rfl | hx := List.mem_cons.mp hx
    · exact lt_irrefl _ hlt
    · exact h₁ hx
  have hhead : pg.runs.head? = some a := by rw [hruns]; rfl
  have hdrop : ((a :: l₁) ++ ⟨b.start, b.len + (t.len + a.len)⟩ :: l₂).dropWhile
      (fun r => decide (r.start ≠ b.start)) = ⟨b.start, b.len + (t.len + a.len)⟩ :: l₂ :=
    dropWhile_split (b := ⟨b.start, b.len + (t.len + a.len)⟩) hstarts
  unfold Page.release joined
  simp only [hbelow, habove, if_pos hhead, hgrow]
  exact hdrop

/-- Otherwise the new free list is the joined node and the nodes that do not touch the block. -/
theorem release_perm (h : Freeable pg t) (hkeep : ¬ Skips pg t) :
    (pg.release t).Perm (joined t pg.runs :: others t pg.runs) := by
  have hnd := h.around.nodup
  cases hb : touchingBelow pg.runs t with
  | some b =>
    obtain ⟨hbm, hbt⟩ := touchingBelow_some hb
    cases ha : touchingAbove pg.runs t with
    | some a =>
      obtain ⟨ham, hat⟩ := touchingAbove_some ha
      have hlt := h.below_lt_above hb ha
      have hne : a ≠ b := by rintro rfl; omega
      by_cases hhead : pg.runs.head? = some a
      · obtain ⟨rest, hruns⟩ : ∃ rest, pg.runs = a :: rest := by
          cases hr : pg.runs with
          | nil => simp [hr] at hhead
          | cons r rest => exact ⟨rest, by rw [hr] at hhead; simp_all⟩
        have hbrest : b ∈ rest := by
          rw [hruns] at hbm
          exact (List.mem_cons.mp hbm).resolve_left hne.symm
        obtain ⟨l₁, l₂, hrest⟩ := List.append_of_mem hbrest
        have hruns' : pg.runs = a :: (l₁ ++ b :: l₂) := by rw [hruns, hrest]
        have hl₁ : l₁ = [] := by
          by_contra hl₁
          exact hkeep ⟨a, l₁, b, l₂, hruns', hl₁, hat, hbt⟩
        rw [h.release_of_skips hruns' hat hbt]
        subst hl₁
        have hothers : others t pg.runs = l₂ := by
          unfold others
          simp only [hb, ha]
          rw [hruns', List.nil_append, List.erase_cons_tail (by simpa using hne),
            List.erase_cons_head, List.erase_cons_head]
        rw [hothers]
      · have hb' : (⟨b.start, b.len + (t.len + a.len)⟩ : Region) ≠ a := fun heq => by
          have := congrArg Region.start heq
          simp only at this
          omega
        have hperm := (grow_perm (t.len + a.len) hnd hbm).erase a
        rw [List.erase_cons_tail (by simpa using hb')] at hperm
        simpa only [Page.release, joined, others, hb, ha, if_neg hhead] using hperm
    | none => simpa only [Page.release, joined, others, hb, ha] using grow_perm _ hnd hbm
  | none =>
    cases ha : touchingAbove pg.runs t with
    | some a => simp only [Page.release, joined, others, hb, ha, List.Perm.refl]
    | none => simp only [Page.release, joined, others, hb, ha, List.Perm.refl]

/-- In any case it has only the joined node and such nodes. -/
theorem release_subperm (h : Freeable pg t) :
    (pg.release t).Subperm (joined t pg.runs :: others t pg.runs) := by
  by_cases hskip : Skips pg t
  · obtain ⟨a, l₁, b, l₂, hruns, -, ha, hb⟩ := hskip
    rw [h.release_of_skips hruns ha hb]
    have hbm : b ∈ pg.runs := by rw [hruns]; simp
    have ham : a ∈ pg.runs := by rw [hruns]; simp
    have hbelow := h.touchingBelow_eq hbm hb
    have habove := h.touchingAbove_eq ham ha
    have hne : a ≠ b := by
      have hlt := h.below_lt_above hbelow habove
      rintro rfl
      omega
    have hsub : l₂.Sublist (others t pg.runs) := by
      have hnd := h.around.nodup
      unfold others
      simp only [hbelow, habove]
      rw [hruns] at hnd ⊢
      obtain ⟨-, hnd'⟩ := List.nodup_cons.mp hnd
      obtain ⟨-, -, hcross⟩ := List.nodup_append.mp hnd'
      have hb₁ : b ∉ l₁ := fun hmem => hcross b hmem b List.mem_cons_self rfl
      rw [List.erase_cons_tail (by simpa using hne), List.erase_cons_head,
        List.erase_append_right _ hb₁, List.erase_cons_head]
      exact List.sublist_append_right _ _
    exact (hsub.cons_cons _).subperm
  · exact (h.release_perm hskip).subperm

theorem joined_mem_release (h : Freeable pg t) : joined t pg.runs ∈ pg.release t := by
  unfold Page.release joined
  cases hb : touchingBelow pg.runs t with
  | some b =>
    obtain ⟨hbm, -⟩ := touchingBelow_some hb
    cases ha : touchingAbove pg.runs t with
    | some a =>
      have hlt := h.below_lt_above hb ha
      have hmem : (⟨b.start, b.len + (t.len + a.len)⟩ : Region) ∈
          grow b (t.len + a.len) pg.runs := List.mem_map.mpr ⟨b, hbm, if_pos rfl⟩
      have hsep := h.valid.separated.of_starts (grow_starts b (t.len + a.len) pg.runs)
      simp only
      split_ifs with hhead
      · obtain ⟨u, v, huv⟩ := List.append_of_mem hmem
        rw [huv] at hsep ⊢
        have hu : ∀ x ∈ u, x.start ≠ b.start := by
          intro x hx heq
          have := hsep.apart (t := x) (by simp [hx])
          unfold Apart at this
          simp only at this
          omega
        rw [dropWhile_split (b := ⟨b.start, b.len + (t.len + a.len)⟩) hu]
        exact List.mem_cons_self
      · refine (List.mem_erase_of_ne fun heq => ?_).mpr hmem
        have := congrArg Region.start heq
        simp only at this
        omega
    | none => exact List.mem_map.mpr ⟨b, hbm, if_pos rfl⟩
  | none =>
    cases ha : touchingAbove pg.runs t with
    | some a => exact List.mem_cons_self
    | none => exact List.mem_cons_self

theorem release_disj (h : Freeable pg t) : (pg.release t).Pairwise Disj := by
  obtain ⟨l, hperm, hsub⟩ := h.release_subperm
  exact (disjoint_perm hperm).mp (h.around.joined_pairwise.sublist hsub)

theorem mem_release (h : Freeable pg t) (hr : r ∈ pg.release t) :
    r = joined t pg.runs ∨ r ∈ pg.runs := by
  rcases List.mem_cons.mp (h.release_subperm.subset hr) with hr | hr
  · exact .inl hr
  · exact .inr ((others_sublist t pg.runs).subset hr)

theorem release_isRun (h : Freeable pg t) (hr : r ∈ pg.release t) :
    IsRun pg.base pg.cls r := by
  rcases h.mem_release hr with rfl | hr
  · exact h.joined_isRun
  · exact h.valid.run r hr

/-- Freeing a block leaves a page. -/
theorem freed_valid (h : Freeable pg t) : (pg.freed t).Valid := by
  unfold Page.freed
  split_ifs
  · exact ⟨h.valid.base_pos, h.valid.max, .inl rfl, by simp, by simp, fun _ => rfl⟩
  · have hc : pg.cls ≠ 0 := by have := h.cls.ge; omega
    exact ⟨h.valid.base_pos, h.valid.max, h.valid.cls, fun r hr => h.release_isRun hr,
      h.release_disj, fun h0 => absurd h0 hc⟩

/-- When the joined node is all of the page, it is the only node. -/
theorem index_of_all (h : Freeable pg t)
    (hall : (joined t pg.runs).len = pageBytes - pg.cls) (hne : pg.release t ≠ []) :
    indexOf pg.base pg.cls (pg.release t) = 1 := by
  have hc := h.cls.ge
  have hle := h.cls.le
  have hpb : pageBytes = 65536 := rfl
  have hj := h.joined_isRun.bounds
  cases hrel : pg.release t with
  | nil => exact absurd hrel hne
  | cons r l =>
    have hmem : r ∈ pg.release t := by rw [hrel]; simp
    have hr := (h.release_isRun hmem).bounds
    have hstart : r.start = pg.base + 1 * pg.cls := by
      rcases List.mem_cons.mp (h.release_subperm.subset hmem) with rfl | hoth
      · unfold Region.stop at hj
        omega
      · have hd := (List.pairwise_cons.mp h.around.joined_pairwise).1 r hoth
        unfold Disj Region.stop at *
        omega
    change (r.start - pg.base) / pg.cls = 1
    rw [hstart, index_mul_add (by omega)]

end Freeable
end KmallocKfree
