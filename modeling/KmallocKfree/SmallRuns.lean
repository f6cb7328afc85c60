import KmallocKfree.ShapeRuns

/-!
# Runs of small requests

With requests of at most 16 KiB only, the heap free list is one node above all pages,
so pages are cut off its front whatever the ends of the heap are. Live blocks then
never interfere, as long as no `kfree` takes a page header for a free node. One that
does doubles the size the header states, and a later `kfree` in that page clears
bytes of its neighbours.
-/
namespace KmallocKfree

open Prog Region Shape

/-- Requests of at most 16 KiB, frees, and owners' writes. -/
def SmallCmd : Cmd → Prop
  | .alloc _ n => n ≤ 16384
  | _ => True

instance : DecidablePred SmallCmd
  | .alloc _ n => inferInstanceAs (Decidable (n ≤ 16384))
  | .free _ _ => inferInstanceAs (Decidable True)
  | .write _ _ => inferInstanceAs (Decidable True)

/-- The command is no `kfree` that takes a page header for a free node. -/
def SparesHeaders (p : Platform) (w : World) : Cmd → Prop
  | .free _ a => ¬ MergesPageHeader p w.st a
  | _ => True

instance (p : Platform) (w : World) : DecidablePred (SparesHeaders p w)
  | .alloc _ _ => inferInstanceAs (Decidable True)
  | .free _ a => inferInstanceAs (Decidable (¬ MergesPageHeader p w.st a))
  | .write _ _ => inferInstanceAs (Decidable True)

/-- The live blocks are disjoint, hold their requests, and lie in one page each, behind
its header. -/
structure Placed (p : Platform) (w : World) : Prop where
  apart : w.live.Pairwise fun b c => b.region.Disj c.region
  holds : ∀ b ∈ w.live, b.req ≤ b.size
  inPage : ∀ b ∈ w.live, ∃ ph, IsPageHeader p w.st ph ∧ ph + headerBytes ≤ b.addr ∧
    b.addr + b.size ≤ ph + pageBytes

/-- The next call leaves the bytes of the other live blocks alone, when it meets `C`. -/
def CallsSpare (p : Platform) (C : World → Cmd → Prop) (w : World) : Prop :=
  ∀ c w', C w c → (∀ a v, c ≠ .write a v) → w.exec p c = some w' → Untouched w w'

/-- The free list is at most one node, above all pages. -/
structure Top (sh : Shape) (live : List Block) : Prop where
  free : sh.free = [] ∨ ∃ r, sh.free = [r] ∧ ∀ x ∈ sh.pages.map Page.base, x + pageBytes ≤ r.start
  small : ∀ b ∈ live, ¬ b.Huge

section Top

variable {p : Platform} {sh sh' : Shape} {live live' : List Block} {c : Cmd} {w w' : World}
  {l₁ l₂ : List Region} {r q : Region}

theorem Top.single (h : Top sh live) (hfree : sh.free = l₁ ++ r :: l₂) :
    l₁ = [] ∧ l₂ = [] ∧ ∀ x ∈ sh.pages.map Page.base, x + pageBytes ≤ r.start := by
  obtain hnil | ⟨t, hsingle, hbelow⟩ := h.free
  · rw [hnil] at hfree
    simp at hfree
  · rw [hsingle] at hfree
    cases l₁ with
    | nil =>
      obtain ⟨rfl, rfl⟩ : t = r ∧ l₂ = [] := by simpa [eq_comm] using hfree
      exact ⟨rfl, rfl, hbelow⟩
    | cons x l₁ => simp at hfree

theorem afterPage_start (hq : q ∈ afterPage r) : q.start = r.start + pageBytes := by
  unfold afterPage at hq
  split_ifs at hq
  · simp at hq
  · rw [List.mem_singleton.mp hq]

theorem Top.room (h : Top sh live) : RoomAfterPage sh live := by
  intro l₁ r l₂ hfree _ _ q hq u hu
  obtain ⟨rfl, rfl, hbelow⟩ := h.single hfree
  have hstart := afterPage_start hq
  simp only [beside, List.append_nil, List.map_nil, List.nil_append, List.mem_append,
    List.mem_map, List.mem_filter] at hu
  rcases hu with ⟨pg, hpg, rfl⟩ | ⟨b, ⟨hb, hbh⟩, rfl⟩
  · right
    have := hbelow pg.base (List.mem_map_of_mem hpg)
    change pg.base + pageBytes ≤ q.start
    omega
  · exact absurd (by simpa using hbh) (h.small b hb)

theorem ShapeStep.small_live (h : ShapeStep sh live c sh' live') (hc : SmallCmd c)
    (hsmall : ∀ b ∈ live, ¬ b.Huge) : ∀ b ∈ live', ¬ b.Huge := by
  cases h with
  | refuse _ => exact hsmall
  | write => exact hsmall
  | alloc _ => exact List.forall_mem_cons.mpr ⟨small_of_le hc, hsmall⟩
  | free _ _ => exact fun b hb => hsmall b (List.mem_of_mem_erase hb)

/-- Small steps keep the free list a single node above the pages. -/
theorem Top.step (h : Top sh live) (hc : SmallCmd c) (hstep : ShapeStep sh live c sh' live') :
    Top sh' live' := by
  refine ⟨?_, hstep.small_live hc h.small⟩
  cases hstep.heap with
  | same hfree hbases =>
    rw [hfree, hbases]
    exact h.free
  | page _ hfree _ hfit hfree' hbases =>
    obtain ⟨rfl, rfl, hbelow⟩ := h.single hfree
    rw [hfree', hbases, List.nil_append, List.append_nil]
    unfold afterPage
    split_ifs
    · exact .inl rfl
    · refine .inr ⟨_, rfl, List.forall_mem_cons.mpr ⟨le_rfl, fun x hx => ?_⟩⟩
      exact le_trans (hbelow x hx) (Nat.le_add_right _ _)
  | cut hbig _ _ _ _ _ => exact absurd hc (not_le.mpr hbig)
  | back hb hbh _ _ => exact absurd hbh (h.small _ hb)

end Top

section Runs

variable {p : Platform} {w w' : World} {c : Cmd}

/-- The condition of a run of small requests. -/
def SmallRun (p : Platform) (w : World) (c : Cmd) : Prop := SmallCmd c ∧ SparesHeaders p w c

/-- Small commands keep the free list a single node above the pages. -/
theorem keeps_top (p : Platform) : Keeps p (SmallRun p) Top where
  boot _ := ⟨.inr ⟨_, rfl, by simp [bootShape]⟩, by simp⟩
  ok w sh c _ htop hC := by
    obtain ⟨hc, hspare⟩ := hC
    cases c with
    | alloc cpu n => exact ⟨fun _ => htop.room, fun hbig => absurd hc (not_le.mpr hbig)⟩
    | free cpu a =>
      rintro b hb rfl
      exact ⟨fun _ => hspare, fun hbh => absurd hbh (htop.small b hb)⟩
    | write a v => exact trivial
  step _ _ _ _ _ _ htop hC hstep := htop.step hC.1 hstep
  barren _ _ _ _ hC hbig _ := absurd hC.1 (not_le.mpr hbig)

theorem placed_of_top (h : Shaped p Top w) : Placed p w := by
  obtain ⟨sh, hinv, htop⟩ | ⟨-, hlive, -⟩ := h
  · refine ⟨hinv.sound.apart, fun b hb => ?_, fun b hb => ?_⟩
    · have hb := htop.small b hb
      unfold Block.Huge at hb
      exact le_roundSize (by omega)
    · obtain ⟨pg, hpg, hhouse⟩ := hinv.sound.small b hb (htop.small b hb)
      have hbounds := hhouse.bounds
      have hge := (Block.sizeClass (htop.small b hb)).ge
      refine ⟨pg.base, ⟨pg.owner, (hinv.sound.pages pg hpg).2,
        hinv.holds.mem_pageHeaders hinv.sound hpg⟩, ?_, hbounds.2⟩
      unfold headerBytes
      omega
  · exact ⟨by simp [hlive], by simp [hlive], by simp [hlive]⟩

/-- Live small blocks never interfere: in every run of small requests whose `kfree`s take
no page header for a free node, the live blocks stay apart in their pages, and the next
call changes no byte of the others. -/
theorem small_blocks_apart
    (h : (allocator p).Reach (fun w c => SmallCmd c ∧ SparesHeaders p w c) w) :
    Placed p w ∧ CallsSpare p (fun w c => SmallCmd c ∧ SparesHeaders p w c) w := by
  have hshaped : Shaped p Top w := (keeps_top p).reach h
  constructor
  · exact placed_of_top hshaped
  · intro c w' hC hne hstep
    exact (keeps_top p).untouched hshaped hC hstep hne

/-- In such a run two blocks of one class lie side by side, one of them freed again. -/
theorem small_blocks_apart_run : ∃ w : World, w.live = [⟨0x100100, 100⟩, ⟨0x100080, 100⟩] ∧
    Placed halfMega w ∧
      CallsSpare halfMega (fun w c => SmallCmd c ∧ SparesHeaders halfMega w c) w := by
  have hrun : ((runFrom halfMega (fun w c => SmallCmd c ∧ SparesHeaders halfMega w c) blank
      [.alloc 0 100, .alloc 0 100, .alloc 0 7, .write 0x100100 5, .free 1 0x110020]).map
        World.live) = some [⟨0x100100, 100⟩, ⟨0x100080, 100⟩] := by decide +kernel
  obtain ⟨w, hw, hlive⟩ := Option.map_eq_some_iff.mp hrun
  exact ⟨w, hlive, small_blocks_apart (reach_of_runFrom hw)⟩

/-- A page of seven blocks of 8 KiB is full; freeing block 1 doubles the size in the page
header, and freeing block 2 then clears block 3, which is live. -/
theorem small_blocks_interfere : ¬ ∀ (p : Platform) (w : World),
    (allocator p).Reach (fun _ c => SmallCmd c) w →
      Placed p w ∧ CallsSpare p (fun _ c => SmallCmd c) w := by
  intro hclaim
  have hrun : ((runFrom halfMega (fun _ c => SmallCmd c) blank
      [.alloc 0 8192, .alloc 0 8192, .alloc 0 8192, .alloc 0 8192, .alloc 0 8192, .alloc 0 8192,
        .alloc 0 8192, .write 0x106000 1, .free 0 0x102000]).bind fun w =>
      (w.exec halfMega (.free 0 0x104000)).map fun w' =>
        decide (⟨0x106000, 8192⟩ ∈ w.live ∧ ⟨0x106000, 8192⟩ ∈ w'.live ∧
          w'.st.mem 0x106000 ≠ w.st.mem 0x106000)) = some true := by decide +kernel
  obtain ⟨w, hw, hstep⟩ := Option.bind_eq_some_iff.mp hrun
  obtain ⟨w', hw', hbad⟩ := Option.map_eq_some_iff.mp hstep
  obtain ⟨hlive, hlive', hchanged⟩ := of_decide_eq_true hbad
  have hspare := (hclaim halfMega w (reach_of_runFrom hw)).2 (.free 0 0x104000) w'
    trivial (by rintro a v ⟨⟩) hw'
  exact hchanged (hspare _ hlive hlive' _ (by decide +kernel))

end Runs
end KmallocKfree
