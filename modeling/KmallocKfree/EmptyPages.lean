import KmallocKfree.Returns
import Mathlib.Data.List.Find

/-!
# Empty pages

The README says that the second empty page of a CPU is released. `kfree` only sets the
size of an emptied page to 0 and leaves the page in its list, so a CPU has at most one
empty page as long as no `kfree` empties a page while its owner has an empty one.
-/
namespace KmallocKfree

open Prog Region Shape

/-- The size of the node that freeing the block at `ptr` of the page at `ph` makes: the
block, and the nodes that end and start at it. -/
def joinedSize (s : PmmState) (ph ptr : ℕ) : ℤ :=
  (((pageWalk s ph).find? fun q => decide (stopAt s.mem q = ptr)).map (sizeAt s.mem)).getD 0 +
    sizeAt s.mem ph +
  (((pageWalk s ph).find? fun q => decide (q = addPtr ptr (toSize (sizeAt s.mem ph)))).map
    (sizeAt s.mem)).getD 0

/-- A `kfree` that empties a page finds no empty page in the list of its owner. -/
def SparesOneEmpty (p : Platform) (w : World) : Cmd → Prop
  | .free _ a => ∀ cpu < p.cpuCount, ∀ ph ∈ pageHeaders w.st cpu, ph < a ∧ a < ph + pageBytes →
      joinedSize w.st ph a = pageBytes - sizeAt w.st.mem ph →
      ∀ q ∈ pageHeaders w.st cpu, sizeAt w.st.mem q ≠ 0
  | _ => True

instance (p : Platform) (w : World) : DecidablePred (SparesOneEmpty p w)
  | .alloc _ _ => inferInstanceAs (Decidable True)
  | .free _ a => inferInstanceAs (Decidable (∀ cpu < p.cpuCount, ∀ ph ∈ pageHeaders w.st cpu,
      ph < a ∧ a < ph + pageBytes → joinedSize w.st ph a = pageBytes - sizeAt w.st.mem ph →
      ∀ q ∈ pageHeaders w.st cpu, sizeAt w.st.mem q ≠ 0))
  | .write _ _ => inferInstanceAs (Decidable True)

/-- The condition of a run of small requests that keeps one empty page for each CPU. -/
def OneEmptyRun (p : Platform) (w : World) (c : Cmd) : Prop :=
  (SmallCmd c ∧ SparesHeaders p w c) ∧ SparesOneEmpty p w c

instance (p : Platform) (w : World) (c : Cmd) : Decidable (OneEmptyRun p w c) :=
  inferInstanceAs (Decidable ((_ ∧ _) ∧ _))

/-- Each CPU has at most one completely empty page in its list. -/
def OneEmptyPage (p : Platform) (w : World) : Prop :=
  ∀ cpu < p.cpuCount,
    ((pageHeaders w.st cpu).countP fun q => decide (sizeAt w.st.mem q = 0)) ≤ 1

/-- The empty pages of a CPU. -/
def emptyCount (pages : List Page) (cpu : ℕ) : ℕ :=
  pages.countP fun pg => decide (pg.owner = cpu ∧ pg.cls = 0)

structure FewEmpty (sh : Shape) (live : List Block) : Prop where
  top : Top sh live
  few : ∀ cpu, emptyCount sh.pages cpu ≤ 1

section Joined

variable {p : Platform} {sh : Shape} {live : List Block} {s : PmmState} {pg : Page} {b : Block}
  {P₁ P₂ : List Page} {l : List Region} {T : List ℕ} {t : Region}

/-- A search of the walk meets a node, or a page header that the block does not touch. -/
theorem find_walk {P : ℕ → Prop} [DecidablePred P] {Q : Region → Prop} [DecidablePred Q]
    (hl : ∀ r ∈ l, P r.start ↔ Q r) (hT : ∀ q ∈ T, ¬ P q) :
    (l.map Region.start ++ T).find? (fun q => decide (P q)) =
      (l.find? fun r => decide (Q r)).map Region.start := by
  have hnone : T.find? (fun q => decide (P q)) = none := by
    apply List.find?_eq_none.mpr
    intro q hq
    simpa using hT q hq
  rw [List.find?_append, hnone, Option.or_none, List.find?_map]
  congr 1
  apply List.find?_congr
  intro r hr
  simpa using hl r hr

/-- The size that `joinedSize` reads off the memory is that of the joined node. -/
theorem joinedSize_eq (hs : Sound p sh live) (h : Holds p sh live s.mem s.var)
    (hb : b ∈ live) (hsmall : ¬ b.Huge) (hpages : sh.pages = P₁ ++ pg :: P₂) (hhouse : Houses pg b)
    (hclean : ¬ MergesPageHeader p s b.addr) :
    joinedSize s pg.base b.addr = (joined b.region pg.runs).len := by
  have hpg : pg ∈ sh.pages := by rw [hpages]; simp
  obtain ⟨T, hT⟩ := h.walkOn hs hpg
  obtain ⟨hbelow, habove⟩ := h.walkOn_clean hs hb hsmall hpages hhouse hT hclean
  have hv := (hs.pages pg hpg).1
  have hclass : SizeClass pg.cls := by
    rw [hhouse.1]
    exact Block.sizeClass hsmall
  have hge := hclass.ge
  have hle := hclass.le
  have hmax := hv.max
  have hbounds := hhouse.bounds
  have hlist := (Page.repr_iff (show pg.cls ≠ 0 by omega)).mp (h.pages pg hpg)
  obtain ⟨a, ha⟩ := hlist.list
  have hstop : ∀ r ∈ pg.runs, (stopAt s.mem r.start = b.addr ↔ r.stop = b.region.start) := by
    intro r hr
    have hrun := (hv.run r hr).bounds
    rw [ha.stopAt_eq hr (by omega)]
    rfl
  have hend : addPtr b.addr (toSize (sizeAt s.mem pg.base)) = b.region.stop := by
    rw [hlist.size, toSize_natCast (by omega), hhouse.1]
    exact addPtr_of_lt (by omega)
  have hfind₁ := find_walk hstop hbelow
  have hfind₂ : (pg.runs.map Region.start ++ T).find? (fun q => decide (q = b.region.stop)) =
      (pg.runs.find? fun r => decide (r.start = b.region.stop)).map Region.start :=
    find_walk (fun _ _ => Iff.rfl) habove
  have hsize : sizeAt s.mem pg.base = b.region.len := by
    rw [hlist.size, hhouse.1]
    rfl
  unfold joinedSize
  rw [pageWalk_eq hs (h.pages pg hpg) hb hsmall hpages hhouse hT, hend, hfind₁, hfind₂, hsize]
  change ((((touchingBelow pg.runs b.region).map Region.start).map (sizeAt s.mem)).getD 0 +
    (b.region.len : ℤ) +
    (((touchingAbove pg.runs b.region).map Region.start).map (sizeAt s.mem)).getD 0) = _
  unfold joined
  cases hlo : touchingBelow pg.runs b.region with
  | some x =>
    have hx := ha.size x (touchingBelow_some hlo).1
    cases hhi : touchingAbove pg.runs b.region with
    | some y =>
      have hy := ha.size y (touchingAbove_some hhi).1
      simp only [Option.map_some, Option.getD_some, hx, hy]
      push_cast
      ring
    | none =>
      simp only [Option.map_some, Option.map_none, Option.getD_some, Option.getD_none, hx]
      push_cast
      ring
  | none =>
    cases hhi : touchingAbove pg.runs b.region with
    | some y =>
      have hy := ha.size y (touchingAbove_some hhi).1
      simp only [Option.map_some, Option.map_none, Option.getD_some, Option.getD_none, hy]
      push_cast
      ring
    | none =>
      simp only [Option.map_none, Option.getD_none]
      ring

end Joined

section Empty

variable {p : Platform} {sh sh' : Shape} {live live' : List Block} {w : World} {c : Cmd}
  {b : Block} {pg pg' : Page} {P₁ P₂ : List Page} {cpu : ℕ}

theorem emptyCount_replaced (hcount : (pg'.owner = cpu ∧ pg'.cls = 0) →
    (pg.owner = cpu ∧ pg.cls = 0)) :
    emptyCount (P₁ ++ pg' :: P₂) cpu ≤ emptyCount (P₁ ++ pg :: P₂) cpu := by
  unfold emptyCount
  rw [List.countP_append, List.countP_append, List.countP_cons, List.countP_cons]
  by_cases hnew : pg'.owner = cpu ∧ pg'.cls = 0
  · have hold := hcount hnew
    simp only [hnew, hold, and_self, decide_true, if_true, le_refl]
  · simp only [hnew, decide_false, Bool.false_eq_true, if_false]
    omega

/-- A page that becomes empty is the only one when its CPU had none. -/
theorem emptyCount_emptied (hnone : ∀ x ∈ P₁ ++ P₂, ¬ (x.owner = cpu ∧ x.cls = 0)) :
    emptyCount (P₁ ++ pg' :: P₂) cpu ≤ 1 := by
  have h₁ : P₁.countP (fun x => decide (x.owner = cpu ∧ x.cls = 0)) = 0 :=
    List.countP_eq_zero.mpr fun x hx => by simpa using hnone x (List.mem_append_left _ hx)
  have h₂ : P₂.countP (fun x => decide (x.owner = cpu ∧ x.cls = 0)) = 0 :=
    List.countP_eq_zero.mpr fun x hx => by simpa using hnone x (List.mem_append_right _ hx)
  unfold emptyCount
  rw [List.countP_append, List.countP_cons, h₁, h₂]
  split_ifs <;> omega

/-- The page headers whose size is 0 are the empty pages of the shape. -/
theorem Inv.countP_headers (hinv : Inv p w sh) (hcpu : cpu < p.cpuCount) :
    ((pageHeaders w.st cpu).countP fun q => decide (sizeAt w.st.mem q = 0)) =
      emptyCount sh.pages cpu := by
  rw [hinv.holds.pageHeaders_eq hinv.sound hcpu, List.countP_map]
  unfold emptyCount Shape.pagesOf
  rw [List.countP_filter]
  apply List.countP_congr
  intro pg hpg
  have hsize := (hinv.holds.pages pg hpg).size
  simp only [Function.comp_apply, hsize, Bool.and_eq_true, decide_eq_true_eq, Nat.cast_eq_zero]
  exact and_comm

/-- Freeing a block leaves the class of its page, or empties it when the joined node is
all of it. -/
theorem freed_cls {t : Region} (hcls : pg.cls ≠ 0) (h : (pg.freed t).cls = 0) :
    (joined t pg.runs).len = pageBytes - pg.cls := by
  rw [Page.freed_cls] at h
  split_ifs at h with hwhole
  · exact hwhole
  · exact absurd h hcls

theorem FewEmpty.step (h : FewEmpty sh w.live) (hinv : Inv p w sh) (hC : OneEmptyRun p w c)
    (hstep : ShapeStep sh w.live c sh' live') : FewEmpty sh' live' := by
  obtain ⟨⟨hsmall, hspare⟩, hone⟩ := hC
  refine ⟨h.top.step hsmall hstep, ?_⟩
  intro cpu
  cases hstep with
  | refuse _ => exact h.few cpu
  | write => exact h.few cpu
  | alloc hstep =>
    cases hstep with
    | small hn hstep =>
      have hcls := (sizeClass_roundSize hn).ge
      cases hstep with
      | @pop P₁ P₂ pg _ _ hpages _ _ _ =>
        have hfew := h.few cpu
        rw [hpages] at hfew
        have hle : emptyCount (P₁ ++ pg.pop :: P₂) cpu ≤ emptyCount (P₁ ++ pg :: P₂) cpu :=
          emptyCount_replaced fun hnew => hnew
        exact le_trans hle hfew
      | recycle hpages _ _ =>
        have hfew := h.few cpu
        rw [hpages] at hfew
        refine le_trans (emptyCount_replaced fun hnew => ?_) hfew
        have hzero : roundSize _ = 0 := hnew.2
        omega
      | extend _ _ _ =>
        have hfew := h.few cpu
        unfold emptyCount at hfew ⊢
        rw [List.countP_cons_of_neg]
        · exact hfew
        · simp only [decide_eq_true_eq]
          rintro ⟨-, hzero⟩
          have hzero : roundSize _ = 0 := hzero
          omega
    | huge _ _ _ _ => exact h.few cpu
  | @free cpu' b sh' hb hstep =>
    cases hstep with
    | @small P₁ P₂ pg hbs hpages hhouse =>
      have hpg : pg ∈ sh.pages := by rw [hpages]; simp
      have hfew := h.few cpu
      rw [hpages] at hfew
      have hclass : SizeClass pg.cls := by
        rw [hhouse.1]
        exact Block.sizeClass hbs
      have hge := hclass.ge
      have hle := hclass.le
      by_cases hempty : (pg.freed b.region).owner = cpu ∧ (pg.freed b.region).cls = 0
      · obtain ⟨howner, hzero⟩ := hempty
        rw [Page.freed_owner] at howner
        subst howner
        have hwhole := freed_cls (by omega) hzero
        have hspare : ¬ MergesPageHeader p w.st b.addr := hspare
        have hjoined := joinedSize_eq hinv.sound hinv.holds hb hbs hpages hhouse hspare
        have hsize := (hinv.holds.pages pg hpg).size
        have hpb : pageBytes = 65536 := rfl
        have hnone : ∀ q ∈ pageHeaders w.st pg.owner, sizeAt w.st.mem q ≠ 0 := by
          apply hone pg.owner (hinv.sound.pages pg hpg).2 pg.base
            (hinv.holds.mem_pageHeaders hinv.sound hpg) (hhouse.inPage hbs)
          rw [hjoined, hsize, hwhole]
          omega
        apply emptyCount_emptied
        rintro x hx ⟨hxo, hx0⟩
        have hxm : x ∈ sh.pages := by
          rw [hpages]
          simp only [List.mem_append, List.mem_cons] at hx ⊢
          tauto
        have hheader := hinv.holds.mem_pageHeaders hinv.sound hxm
        rw [hxo] at hheader
        apply hnone x.base hheader
        rw [(hinv.holds.pages x hxm).size, hx0]
        rfl
      · exact le_trans (emptyCount_replaced fun hnew => absurd hnew hempty) hfew
    | huge _ => exact h.few cpu

theorem keeps_fewEmpty (p : Platform) : Keeps p (OneEmptyRun p) FewEmpty where
  boot hlen := ⟨(keeps_top p).boot hlen, fun _ => Nat.zero_le _⟩
  ok w sh c hinv hF hC := (keeps_top p).ok w sh c hinv hF.top hC.1
  step _ _ _ _ _ hinv hF hC hstep := hF.step hinv hC hstep
  barren w cpu n hbarren hC := (keeps_top p).barren w cpu n hbarren hC.1

/-- Each CPU has at most one empty page, in every run of small requests whose `kfree`s
spare page headers and empty no page while its owner has an empty one. -/
theorem one_empty_page (h : (allocator p).Reach (OneEmptyRun p) w) : OneEmptyPage p w := by
  intro cpu hcpu
  obtain ⟨sh, hinv, hfew⟩ | hbarren := (keeps_fewEmpty p).reach h
  · rw [hinv.countP_headers hcpu]
    exact hfew.few cpu
  · rw [hbarren.fresh.pageHeaders_nil hcpu]
    exact Nat.zero_le _

/-- A page of CPU 0 is emptied while its other page is in use. -/
theorem one_empty_page_run : ∃ w : World, w.live = [⟨0x110100, 200⟩] ∧
    sizeAt w.st.mem 0x100000 = 0 ∧ OneEmptyPage halfMega w := by
  have hrun : ((runFrom halfMega (OneEmptyRun halfMega) blank
      [.alloc 0 100, .alloc 0 200, .free 1 0x100080]).map fun w =>
        decide (w.live = [⟨0x110100, 200⟩] ∧ sizeAt w.st.mem 0x100000 = 0)) = some true := by
    decide +kernel
  obtain ⟨w, hw, hlast⟩ := Option.map_eq_some_iff.mp hrun
  obtain ⟨hlive, hsize⟩ := of_decide_eq_true hlast
  exact ⟨w, hlive, hsize, one_empty_page (reach_of_runFrom hw)⟩

/-- Two pages of CPU 0 are emptied: both stay in its list. -/
theorem two_empty_pages : ¬ ∀ (p : Platform) (w : World),
    (allocator p).Reach (fun _ c => SmallCmd c) w → OneEmptyPage p w := by
  intro hclaim
  have hrun : ((runFrom halfMega (fun _ c => SmallCmd c) blank
      [.alloc 0 100, .alloc 0 200, .free 0 0x100080, .free 0 0x110100]).map fun w =>
        (pageHeaders w.st 0).countP fun q => decide (sizeAt w.st.mem q = 0)) = some 2 := by
    decide +kernel
  obtain ⟨w, hw, hcount⟩ := Option.map_eq_some_iff.mp hrun
  have hone := hclaim halfMega w (reach_of_runFrom hw) 0 (by decide)
  rw [hcount] at hone
  omega

end Empty
end KmallocKfree
