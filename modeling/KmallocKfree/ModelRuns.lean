import KmallocKfree.AbstractAllocator

/-!
# Runs compute the model

Commands that are safe on the model are executed to the end from any content of memory,
and the live blocks are those that the model computes. Runs that avoid what the source
gets wrong are such runs, so nothing that an owner writes, and nothing that memory held
before `pmm_init`, has an influence on the addresses that `kalloc` returns.
-/
namespace KmallocKfree

open Prog Region Shape Machine
open ByteMemory (Mem)

/-- The pages whose headers the walk over the free list of `pg` goes on to. -/
def Shape.runsOnto (sh : Shape) (pg : Page) : List Page :=
  if pg.runs ≠ [] ∧ pg.looped = false then []
  else (sh.pagesOf pg.owner).dropWhile fun y => y.base ≠ pg.base

namespace Model

/-- The command avoids what the source gets wrong: a CPU can get its first page, what is
left behind a page holds a node record, a large block has room for its header, and no
header that a walk goes on to touches the block that is freed. -/
def Safe (p : Platform) (m : Model) : Cmd → Prop
  | .alloc cpu n => cpu < p.cpuCount ∧
      (n ≤ 16384 → (∀ r ∈ m.shape.free.find? fun r => decide (pageBytes ≤ r.len),
          r.len = pageBytes ∨ pageBytes + headerBytes ≤ r.len) ∧
        (m.shape.pagesOf cpu = [] → ∃ r ∈ m.shape.free, pageBytes ≤ r.len)) ∧
      (16384 < n → n ≤ 16777216 → ∀ r ∈ highest (roundSize n) m.shape.free,
        roundSize n + 32 ≤ r.len)
  | .free cpu a => cpu < p.cpuCount ∧ (m.live.find? fun b => decide (b.addr = a)).isSome ∧
      ∀ b ∈ m.live.find? fun b => decide (b.addr = a), ¬ b.Huge →
        ∀ pg ∈ m.shape.pages, pg.base < a ∧ a < pg.base + pageBytes →
          ∀ y ∈ m.shape.runsOnto pg, y.base + y.cls ≠ a ∧ y.base ≠ a + b.size
  | .write a _ => ∃ b ∈ m.live, b.region.Contains a

instance (p : Platform) (m : Model) : DecidablePred (m.Safe p)
  | .alloc cpu n => inferInstanceAs (Decidable (cpu < p.cpuCount ∧
      (n ≤ 16384 → (∀ r ∈ m.shape.free.find? fun r => decide (pageBytes ≤ r.len),
          r.len = pageBytes ∨ pageBytes + headerBytes ≤ r.len) ∧
        (m.shape.pagesOf cpu = [] → ∃ r ∈ m.shape.free, pageBytes ≤ r.len)) ∧
      (16384 < n → n ≤ 16777216 → ∀ r ∈ highest (roundSize n) m.shape.free,
        roundSize n + 32 ≤ r.len)))
  | .free cpu a => inferInstanceAs (Decidable (cpu < p.cpuCount ∧
      (m.live.find? fun b => decide (b.addr = a)).isSome ∧
      ∀ b ∈ m.live.find? fun b => decide (b.addr = a), ¬ b.Huge →
        ∀ pg ∈ m.shape.pages, pg.base < a ∧ a < pg.base + pageBytes →
          ∀ y ∈ m.shape.runsOnto pg, y.base + y.cls ≠ a ∧ y.base ≠ a + b.size))
  | .write a _ => inferInstanceAs (Decidable (∃ b ∈ m.live, b.region.Contains a))

/-- Safe commands in sequence; none when one is not safe. -/
def run (p : Platform) (m : Model) (cmds : List Cmd) : Option Model :=
  cmds.foldlM (fun m c => if m.Safe p c then some (m.step c) else none) m

/-- The heap after `pmm_init`. -/
def boot (p : Platform) : Model := ⟨bootShape p, []⟩

end Model

/-- The state of the world is the one that the model describes. -/
structure Computes (p : Platform) (w : World) (m : Model) : Prop where
  inv : Inv p w m.shape
  live : w.live = m.live
  long : Long m.shape

section Conditions

variable {p : Platform} {sh : Shape} {live : List Block} {s : PmmState} {w w' : World} {m : Model}
  {c : Cmd} {cpu n a : ℕ} {pg : Page} {b : Block} {v : UInt8}

/-- The headers that the walk goes on to, in memory. -/
theorem Holds.walkOnto (hs : Sound p sh live) (h : Holds p sh live s.mem s.var)
    (hpg : pg ∈ sh.pages) : WalkOn sh pg s.mem ((sh.runsOnto pg).map Page.base) := by
  unfold Shape.runsOnto
  split_ifs with hplain
  · refine ⟨?_, List.nil_sublist _, fun _ _ => rfl⟩
    rw [endOf, if_neg hplain.1, Page.tail, hplain.2]
    rfl
  · obtain ⟨A, B, hAB⟩ := List.append_of_mem (mem_pagesOf.mpr ⟨hpg, rfl⟩)
    have hnd : ((A ++ pg :: B).map Page.base).Nodup := by
      rw [← hAB]
      exact hs.bases_nodup.sublist (pagesOf_sublist sh pg.owner)
    have hdrop : (A ++ pg :: B).dropWhile (fun y => decide (y.base ≠ pg.base)) = pg :: B := by
      rw [List.dropWhile_append_of_pos, List.dropWhile_cons_of_neg (by simp)]
      intro y hy
      rw [List.map_append, List.map_cons] at hnd
      have hnot := (List.nodup_cons.mp (List.nodup_middle.mp hnd)).1
      simp only [decide_eq_true_eq]
      intro heq
      exact hnot (heq ▸ List.mem_append_left _ (List.mem_map_of_mem hy))
    have hpath := h.lists pg.owner (hs.pages pg hpg).2
    rw [hAB, List.map_append] at hpath
    obtain ⟨c, -, hc⟩ := Path.append.mp hpath
    rw [hAB, hdrop]
    refine ⟨?_, ?_, fun h₁ h₂ => absurd ⟨h₁, h₂⟩ hplain⟩
    · have hstart : endOf pg.base pg.runs pg.tail = pg.base := by
        unfold endOf
        split_ifs with hruns
        · rfl
        · have hloop : pg.looped = true := by
            by_contra hl
            exact hplain ⟨hruns, by simpa using hl⟩
          simp [Page.tail, hloop]
      rw [hstart]
      exact ⟨rfl, hc.2⟩
    · rw [hAB, List.map_append]
      exact List.sublist_append_right _ _

/-- Where a page header ends as a free node: behind as many bytes as its class has. -/
theorem Holds.stopAt_header (hs : Sound p sh live) (h : Holds p sh live s.mem s.var)
    (hpg : pg ∈ sh.pages) : stopAt s.mem pg.base = pg.base + pg.cls := by
  have hv := (hs.pages pg hpg).1
  have hle : pg.cls ≤ 16384 := hv.cls.elim (fun h0 => by omega) fun h => h.le
  have hmax := hv.max
  have hpb : pageBytes = 65536 := rfl
  unfold stopAt
  rw [(h.pages pg hpg).size, toSize_natCast (by omega)]
  exact addPtr_of_lt (by omega)

theorem headerFits_iff (hs : Sound p sh live) (h : Holds p sh live s.mem s.var)
    (hbig : 16384 < n) (hmax : n ≤ 16777216) :
    HeaderFits s n ↔ ∀ r ∈ highest (roundSize n) sh.free, roundSize n + 32 ≤ r.len := by
  constructor
  · intro hfits r hr
    exact hfits.room hs h.heap hbig hmax (highest_some hr)
  · intro hroom _ _ x hx hnode
    rw [h.freeNodes_eq hs] at hx
    obtain ⟨r, hr, rfl⟩ := List.mem_map.mp hx
    have hlen := hs.len_lt hr
    obtain ⟨-, hsize, htop⟩ := hnode
    have hfit : HighestFit sh.free (roundSize n) r := by
      refine ⟨hr, ?_, fun t ht htlen => ?_⟩
      · rwa [toSize_natCast (by omega)] at hsize
      · have htmax := hs.len_lt ht
        refine htop (t.start, (t.len : ℤ)) ?_ (by rw [toSize_natCast (by omega)]; exact htlen)
        rw [h.freeNodes_eq hs]
        exact List.mem_map_of_mem ht
    have := hroom r (hfit.computed hs)
    simp only
    exact_mod_cast this

theorem remainderFits_iff (hs : Sound p sh live) (h : Holds p sh live s.mem s.var) :
    RemainderFits s ↔ ∀ r ∈ sh.free.find? fun r => decide (pageBytes ≤ r.len),
      r.len = pageBytes ∨ pageBytes + headerBytes ≤ r.len := by
  have hfind : (freeNodes s).find? (fun x => decide ((pageBytes : ℤ) ≤ x.2)) =
      (sh.free.find? fun r => decide (pageBytes ≤ r.len)).map fun r => (r.start, (r.len : ℤ)) := by
    rw [h.freeNodes_eq hs, List.find?_map]
    congr 2
    funext r
    simp
  unfold RemainderFits
  rw [hfind]
  cases sh.free.find? fun r => decide (pageBytes ≤ r.len) with
  | none => simp
  | some r =>
    simp only [Option.map_some, Option.mem_def, Option.some.injEq, forall_eq']
    norm_cast

/-- A safe request returns, and the model computes its answer. -/
theorem Computes.alloc (h : Computes p w m) (hsafe : m.Safe p (.alloc cpu n)) :
    ∃ w', w.exec p (.alloc cpu n) = some w' ∧ Computes p w' (m.step (.alloc cpu n)) := by
  obtain ⟨s, live⟩ := w
  obtain ⟨sh, l⟩ := m
  obtain ⟨hinv, rfl, hlong⟩ := h
  obtain ⟨hcpu, hsmall, hhuge⟩ := hsafe
  have hs : Sound p sh live := hinv.sound
  have hheader : HeaderFits s n := fun hbig hmax =>
    (headerFits_iff hs hinv.holds hbig hmax).mpr (hhuge hbig hmax) hbig hmax
  have hbehind : n ≤ 16384 → RemainderFits s := fun hn =>
    (remainderFits_iff hs hinv.holds).mpr (hsmall hn).1
  have hok : AllocOK sh live n := by
    refine ⟨fun hn => roomAfterPage_of hs fun l₁ r l₂ hfree hless hfit => ?_,
      fun hbig hmax r hfit => hheader.room hs hinv.holds.heap hbig hmax hfit⟩
    exact (hbehind hn).first hs hinv.holds.heap hfree hless hfit
  have hnext : ∀ {sh' live'}, ShapeStep sh live (.alloc cpu n) sh' live' → Long sh' :=
    fun hstep => hlong.step (c := .alloc cpu n) hinv hheader hbehind hstep.heap
  obtain ⟨a, t, hexec, hres⟩ := wp_exec (wp_kalloc hinv hcpu hok fun hn => (hsmall hn).2)
  refine ⟨⟨t, if a = 0 then live else ⟨a, n⟩ :: live⟩, ?_, ?_⟩
  · simp only [World.exec, if_pos hcpu, hexec]
  · unfold Model.step
    rcases hres with ⟨rfl, rfl, hrefused⟩ | ⟨ha, sh', hstep, hinv'⟩
    · simp only [hrefused.computed]
      exact ⟨hinv, rfl, hlong⟩
    · simp only [hstep.computed hinv hcpu hexec, if_neg ha]
      exact ⟨hinv', rfl, hnext (.alloc hstep)⟩

/-- A safe `kfree` returns, and the model computes the next state. -/
theorem Computes.free (h : Computes p w m) (hsafe : m.Safe p (.free cpu a)) :
    ∃ w', w.exec p (.free cpu a) = some w' ∧ Computes p w' (m.step (.free cpu a)) := by
  obtain ⟨s, live⟩ := w
  obtain ⟨sh, l⟩ := m
  obtain ⟨hinv, rfl, hlong⟩ := h
  obtain ⟨hcpu, hfound, hwalk⟩ := hsafe
  have hs : Sound p sh live := hinv.sound
  obtain ⟨b, hb⟩ := Option.isSome_iff_exists.mp hfound
  have hbm : b ∈ live := List.mem_of_find?_eq_some hb
  obtain rfl : b.addr = a := by simpa using List.find?_some hb
  have hdone : ∀ t sh', Prog.exec (kfree p cpu b.addr) s = .ok ((), t) → FreeStep sh b sh' →
      Inv p ⟨t, live.erase b⟩ sh' → ∃ w', World.exec p ⟨s, live⟩ (.free cpu b.addr) = some w' ∧
        Computes p w' (Model.step ⟨sh, live⟩ (.free cpu b.addr)) := by
    intro t sh' hexec hstep hinv'
    refine ⟨⟨t, live.erase b⟩, ?_, ?_⟩
    · simp only [World.exec, if_pos hcpu, hb, hexec]
    · simp only [Model.step, hb, hstep.computed hs]
      have hshape : ShapeStep sh live (.free cpu b.addr) sh' (live.erase b) := .free hbm hstep
      exact ⟨hinv', rfl, hlong.step (c := .free cpu b.addr) hinv trivial trivial hshape.heap⟩
  by_cases hbh : b.Huge
  · obtain ⟨_, t, hexec, hinv'⟩ := wp_exec (wp_kfree_huge hinv hcpu hbm hbh hlong)
    exact hdone t _ hexec (.huge hbh) hinv'
  · obtain ⟨pg, hpg, hhouse⟩ := hs.small b hbm hbh
    obtain ⟨P₁, P₂, hpages⟩ := List.append_of_mem hpg
    have hclean := hwalk b hb hbh pg hpg (hhouse.inPage hbh)
    have honto : ∀ q ∈ (sh.runsOnto pg).map Page.base,
        stopAt s.mem q ≠ b.addr ∧ q ≠ b.region.stop := by
      intro q hq
      obtain ⟨y, hy, rfl⟩ := List.mem_map.mp hq
      have hym : y ∈ sh.pages := by
        unfold Shape.runsOnto at hy
        split_ifs at hy
        · cases hy
        · exact (mem_pagesOf.mp ((List.dropWhile_sublist _).subset hy)).1
      rw [hinv.holds.stopAt_header hs hym]
      exact hclean y hy
    obtain ⟨_, t, hexec, hinv'⟩ := wp_exec (wp_kfree_small hinv hcpu hbm hbh hpages hhouse
      (hinv.holds.walkOnto hs hpg) (fun q hq => (honto q hq).1) fun q hq => (honto q hq).2)
    exact hdone t _ hexec (.small hbh hpages hhouse) hinv'

/-- A safe command returns, and the model computes the next state. -/
theorem Computes.step (h : Computes p w m) (hsafe : m.Safe p c) :
    ∃ w', w.exec p c = some w' ∧ Computes p w' (m.step c) := by
  cases c with
  | alloc cpu n => exact h.alloc hsafe
  | free cpu a => exact h.free hsafe
  | write a v =>
    obtain ⟨b, hb, hba⟩ := hsafe
    rw [← h.live] at hb
    refine ⟨⟨w.st.setMem fun x => if x = a then v else w.st.mem x, w.live⟩, ?_,
      h.inv.write hb hba v, h.live, h.long⟩
    simp only [World.exec, if_pos (show ∃ b ∈ w.live, b.region.Contains a from ⟨b, hb, hba⟩)]

/-- A command that returns and avoids what the source gets wrong is safe on the model. -/
theorem Computes.safe (h : Computes p w m) (hC : MixedRun p w c) (hstep : w.exec p c = some w') :
    m.Safe p c := by
  obtain ⟨s, live⟩ := w
  obtain ⟨sh, l⟩ := m
  obtain ⟨hinv, rfl, hlong⟩ := h
  have hs : Sound p sh live := hinv.sound
  obtain ⟨hspare, hheader, hbehind⟩ := hC
  cases c with
  | alloc cpu n =>
    obtain ⟨hcpu, a, t, hexec, -⟩ := exec_alloc_some hstep
    refine ⟨hcpu, fun hn => ⟨(remainderFits_iff hs hinv.holds).mp (hbehind hn), fun hempty => ?_⟩,
      fun hbig hmax => (headerFits_iff hs hinv.holds hbig hmax).mp hheader⟩
    by_contra hnone
    push Not at hnone
    rw [exec_kalloc_exhausted hinv hcpu hn hempty hnone] at hexec
    cases hexec
  | free cpu a =>
    obtain ⟨hcpu, c, t, hc, rfl, -⟩ := exec_free_some hstep
    refine ⟨hcpu, ?_, fun b hb hbs pg hpg hin => ?_⟩
    · exact List.find?_isSome.mpr ⟨c, hc, by simp⟩
    · have hbm : b ∈ live := List.mem_of_find?_eq_some hb
      have haddr : b.addr = c.addr := by simpa using List.find?_some hb
      rw [← haddr] at hin ⊢
      obtain ⟨y, hy, hhouse⟩ := hs.small b hbm hbs
      obtain rfl := hs.inPage_unique hpg hy hin (hhouse.inPage hbs)
      obtain ⟨P₁, P₂, hpages⟩ := List.append_of_mem hpg
      obtain ⟨hbelow, habove⟩ := hinv.holds.walkOn_clean hs hbm hbs hpages hhouse
        (hinv.holds.walkOnto hs hpg) (by rw [haddr]; exact hspare)
      intro z hz
      have hzm : z ∈ sh.pages := by
        unfold Shape.runsOnto at hz
        split_ifs at hz
        · cases hz
        · exact (mem_pagesOf.mp ((List.dropWhile_sublist _).subset hz)).1
      have hzb : z.base ∈ (sh.runsOnto y).map Page.base := List.mem_map_of_mem hz
      have hstop := hbelow _ hzb
      rw [hinv.holds.stopAt_header hs hzm] at hstop
      exact ⟨hstop, habove _ hzb⟩
  | write a v =>
    obtain ⟨hlive, -⟩ := exec_write_some hstep
    exact hlive

end Conditions

/-- The commands without the owners' writes. -/
def calls (cmds : List Cmd) : List Cmd :=
  cmds.filter fun c =>
    match c with
    | .write _ _ => false
    | _ => true

/-- The live blocks, the free list and the page lists are those of the model. -/
structure Reflects (p : Platform) (w : World) (m : Model) : Prop where
  live : w.live = m.live
  nodes : freeNodes w.st = m.shape.free.map fun r => (r.start, (r.len : ℤ))
  pages : ∀ cpu < p.cpuCount, pageHeaders w.st cpu = (m.shape.pagesOf cpu).map Page.base

section Runs

variable {p : Platform} {w w' w₁ w₂ w₁' w₂' : World} {m m' : Model} {c : Cmd}
  {cmds cmds₁ cmds₂ : List Cmd} {C : World → Cmd → Prop}

theorem Computes.reflects (h : Computes p w m) : Reflects p w m where
  live := h.live
  nodes := h.inv.holds.freeNodes_eq h.inv.sound
  pages _ hcpu := h.inv.holds.pageHeaders_eq h.inv.sound hcpu

theorem Computes.booted (hlen : (headerBytes : ℤ) ≤ p.recorded) (h : Booted p w) :
    Computes p w (Model.boot p) := by
  obtain ⟨hfresh, hlive⟩ := h.fresh
  have hpb : headerBytes = 16 := rfl
  obtain ⟨s, live⟩ := w
  obtain rfl : live = [] := hlive
  refine ⟨hfresh.inv (by omega), rfl, fun r hr => ?_⟩
  obtain rfl := List.mem_singleton.mp hr
  simp only
  omega

theorem Model.run_cons :
    m.run p (c :: cmds) = if m.Safe p c then (m.step c).run p cmds else none := by
  unfold Model.run
  rw [List.foldlM_cons]
  split_ifs <;> rfl

/-- Commands that are safe on the model are executed to the end. -/
theorem Computes.run (h : Computes p w m) (hrun : m.run p cmds = some m') :
    ∃ w', (allocator p).Trace (fun _ _ => True) w cmds w' ∧ Computes p w' m' := by
  induction cmds generalizing w m with
  | nil =>
    cases hrun
    exact ⟨w, .nil, h⟩
  | cons c cmds ih =>
    rw [Model.run_cons] at hrun
    split_ifs at hrun with hsafe
    obtain ⟨u, hu, hcomp⟩ := h.step hsafe
    obtain ⟨w', htrace, hcomp'⟩ := ih hcomp hrun
    exact ⟨w', .cons trivial hu htrace, hcomp'⟩

/-- A run that avoids what the source gets wrong is safe on the model, which its writes
do not change. -/
theorem Computes.trace (h : Computes p w m) (ht : (allocator p).Trace (MixedRun p) w cmds w') :
    ∃ m', m.run p (calls cmds) = some m' ∧ Computes p w' m' := by
  induction ht generalizing m with
  | nil => exact ⟨m, rfl, h⟩
  | @cons w u w' c cmds hC hstep _ ih =>
    have hsafe := h.safe hC hstep
    obtain ⟨u', hu', hcomp⟩ := h.step hsafe
    obtain rfl : u' = u := Option.some.inj (hu'.symm.trans hstep)
    obtain ⟨m', hrun, hcomp'⟩ := ih hcomp
    refine ⟨m', ?_, hcomp'⟩
    cases c with
    | write a v => exact hrun
    | alloc cpu n =>
      rw [show calls (.alloc cpu n :: cmds) = .alloc cpu n :: calls cmds from rfl, Model.run_cons,
        if_pos hsafe]
      exact hrun
    | free cpu a =>
      rw [show calls (.free cpu a :: cmds) = .free cpu a :: calls cmds from rfl, Model.run_cons,
        if_pos hsafe]
      exact hrun

/-- A run with calls that are safe on the model ends where the model does. -/
theorem Computes.follow (h : Computes p w m) (ht : (allocator p).Trace C w cmds w')
    (hrun : m.run p (calls cmds) = some m') : Computes p w' m' := by
  induction ht generalizing m with
  | nil =>
    cases hrun
    exact h
  | @cons w u w' c cmds _ hstep _ ih =>
    have hcall : ∀ {c' : Cmd}, c = c' → calls (c' :: cmds) = c' :: calls cmds →
        Computes p w' m' := by
      rintro c' rfl hcalls
      rw [hcalls, Model.run_cons] at hrun
      split_ifs at hrun with hsafe
      obtain ⟨u', hu', hcomp⟩ := h.step hsafe
      obtain rfl : u' = u := Option.some.inj (hu'.symm.trans hstep)
      exact ih hcomp hrun
    cases c with
    | alloc cpu n => exact hcall rfl rfl
    | free cpu a => exact hcall rfl rfl
    | write a v =>
      obtain ⟨⟨b, hb, hba⟩, rfl⟩ := exec_write_some hstep
      exact ih ⟨h.inv.write hb hba v, h.live, h.long⟩ hrun

theorem trace_of_foldlM [∀ w c, Decidable (C w c)]
    (h : cmds.foldlM (fun w c => if C w c then w.exec p c else none) w = some w') :
    (allocator p).Trace C w cmds w' := by
  induction cmds generalizing w with
  | nil =>
    cases h
    exact .nil
  | cons c cmds ih =>
    rw [List.foldlM_cons] at h
    obtain ⟨u, hu, h⟩ := Option.bind_eq_some_iff.mp h
    split_ifs at hu with hC
    exact .cons hC hu (ih h)

/-- A run that can be computed is a trace from `pmm_init`. -/
theorem trace_of_runFrom [∀ w c, Decidable (C w c)] {s : PmmState}
    (h : runFrom p C s cmds = some w') : ∃ w, Booted p w ∧ (allocator p).Trace C w cmds w' := by
  unfold runFrom at h
  cases hi : Prog.exec (pmmInit p) s with
  | error e => rw [hi] at h; cases h
  | ok r =>
    rw [hi] at h
    exact ⟨⟨r.2, []⟩, ⟨s, r.2, hi, rfl⟩, trace_of_foldlM h⟩

/-- Every run that avoids what the source gets wrong ends with the live blocks, the free list
and the page lists that the model computes from the calls. -/
theorem runs_compute (hlen : (headerBytes : ℤ) ≤ p.recorded) (hw : Booted p w)
    (ht : (allocator p).Trace (MixedRun p) w cmds w') :
    ∃ m, (Model.boot p).run p (calls cmds) = some m ∧ Reflects p w' m := by
  obtain ⟨m, hrun, hcomp⟩ := (Computes.booted hlen hw).trace ht
  exact ⟨m, hrun, hcomp.reflects⟩

/-- Two CPUs allocate, write and free. -/
theorem runs_compute_run : ∃ (w : World) (m : Model),
    w.live = [⟨0x110040, 50⟩, ⟨0x178000, 20000⟩] ∧ Reflects halfMega w m := by
  have hrun : (runFrom halfMega (MixedRun halfMega) blank
      [.alloc 0 100, .write 0x100080 7, .alloc 1 20000, .free 0 0x100080, .alloc 1 50]).map
        World.live = some [⟨0x110040, 50⟩, ⟨0x178000, 20000⟩] := by decide +kernel
  obtain ⟨w', hw', hlive⟩ := Option.map_eq_some_iff.mp hrun
  obtain ⟨w, hw, ht⟩ := trace_of_runFrom hw'
  obtain ⟨m, -, hmodel⟩ := runs_compute (by decide) hw ht
  exact ⟨w', m, hlive, hmodel⟩

/-- Commands that are safe on the model are executed to the end, from any content of memory,
and the allocator ends as the model does. -/
theorem safe_runs_return (hlen : (headerBytes : ℤ) ≤ p.recorded) (hw : Booted p w)
    (hrun : (Model.boot p).run p cmds = some m) :
    ∃ w', (allocator p).Trace (fun _ _ => True) w cmds w' ∧ Reflects p w' m := by
  obtain ⟨w', htrace, hcomp⟩ := (Computes.booted hlen hw).run hrun
  exact ⟨w', htrace, hcomp.reflects⟩

/-- A CPU frees a block of the other one; the heap held other bytes before. -/
theorem safe_runs_return_run : ∃ (w w' : World) (m : Model), Booted halfMega w ∧
    w'.live = [⟨0x110040, 50⟩, ⟨0x178000, 20000⟩] ∧ Reflects halfMega w' m := by
  let s : PmmState := ⟨fun _ => 0xcc, fun _ => 5, fun _ => 1⟩
  have hrun : ((Model.boot halfMega).run halfMega
      [.alloc 0 100, .alloc 1 20000, .write 0x178000 7, .free 1 0x100080, .alloc 1 50]).map
        Model.live = some [⟨0x110040, 50⟩, ⟨0x178000, 20000⟩] := by decide +kernel
  obtain ⟨m, hm, hlive⟩ := Option.map_eq_some_iff.mp hrun
  obtain ⟨_, t, hexec, -⟩ := wp_exec (wp_pmmInit halfMega s)
  have hbooted : Booted halfMega ⟨t, []⟩ := ⟨s, t, hexec, rfl⟩
  obtain ⟨w', -, hmodel⟩ := safe_runs_return (by decide) hbooted hm
  exact ⟨_, w', m, hbooted, hmodel.live.trans hlive, hmodel⟩

/-- Two worlds with the same live blocks, free list and page lists. -/
structure SameHeap (p : Platform) (w w' : World) : Prop where
  live : w'.live = w.live
  nodes : freeNodes w'.st = freeNodes w.st
  pages : ∀ cpu < p.cpuCount, pageHeaders w'.st cpu = pageHeaders w.st cpu

/-- Neither what owners write nor what memory held before `pmm_init` has an influence: runs
with the same calls end with the same live blocks, free list and page lists. -/
theorem data_independent (hlen : (headerBytes : ℤ) ≤ p.recorded) (hw₁ : Booted p w₁)
    (hw₂ : Booted p w₂) (h₁ : (allocator p).Trace (MixedRun p) w₁ cmds₁ w₁')
    (h₂ : (allocator p).Trace (fun _ _ => True) w₂ cmds₂ w₂') (hcalls : calls cmds₂ = calls cmds₁) :
    SameHeap p w₁' w₂' := by
  obtain ⟨m, hrun, hcomp⟩ := (Computes.booted hlen hw₁).trace h₁
  rw [← hcalls] at hrun
  have hmodel := hcomp.reflects
  have hmodel' := ((Computes.booted hlen hw₂).follow h₂ hrun).reflects
  exact ⟨hmodel'.live.trans hmodel.live.symm, hmodel'.nodes.trans hmodel.nodes.symm,
    fun cpu hcpu => (hmodel'.pages cpu hcpu).trans (hmodel.pages cpu hcpu).symm⟩

/-- The run without its write, and with the heap full of other bytes. -/
theorem data_independent_run : ∃ w w' : World,
    w.live = [⟨0x110040, 50⟩, ⟨0x178000, 20000⟩] ∧ SameHeap halfMega w w' := by
  let s : PmmState := ⟨fun _ => 0xcc, fun _ => 5, fun _ => 1⟩
  have hrun : (runFrom halfMega (MixedRun halfMega) blank
      [.alloc 0 100, .write 0x100080 7, .alloc 1 20000, .free 0 0x100080, .alloc 1 50]).map
        World.live = some [⟨0x110040, 50⟩, ⟨0x178000, 20000⟩] := by decide +kernel
  have hrun' : (runFrom halfMega (fun _ _ => True) s
      [.alloc 0 100, .alloc 1 20000, .free 0 0x100080, .alloc 1 50]).isSome := by decide +kernel
  obtain ⟨w₁', hw₁', hlive⟩ := Option.map_eq_some_iff.mp hrun
  obtain ⟨w₂', hw₂'⟩ := Option.isSome_iff_exists.mp hrun'
  obtain ⟨w₁, hw₁, h₁⟩ := trace_of_runFrom hw₁'
  obtain ⟨w₂, hw₂, h₂⟩ := trace_of_runFrom hw₂'
  exact ⟨w₁', w₂', hlive, data_independent (by decide) hw₁ hw₂ h₁ h₂ rfl⟩

end Runs
end KmallocKfree
