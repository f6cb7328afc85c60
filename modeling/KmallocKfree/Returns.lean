import KmallocKfree.Alignment

/-!
# Calls that return

As long as no block of a full page is freed, the free list of a page leads to free nodes
only, and every call returns: no check fails, and no operation goes through a pointer
that is null or leads elsewhere. A request that finds no place returns `NULL` and leaves
no trace, except for the first small request of a CPU, which an assertion stops.
-/
namespace KmallocKfree

open Prog Region Shape

/-- A `kfree` in a page finds the page not full. -/
def FreesInOpenPage (p : Platform) (w : World) : Cmd → Prop
  | .free _ a => ∀ cpu < p.cpuCount, ∀ ph ∈ pageHeaders w.st cpu,
      ph < a ∧ a < ph + pageBytes → 0 < wordAt w.st.mem ph
  | _ => True

instance (p : Platform) (w : World) : DecidablePred (FreesInOpenPage p w)
  | .alloc _ _ => inferInstanceAs (Decidable True)
  | .free _ a => inferInstanceAs (Decidable (∀ cpu < p.cpuCount, ∀ ph ∈ pageHeaders w.st cpu,
      ph < a ∧ a < ph + pageBytes → 0 < wordAt w.st.mem ph))
  | .write _ _ => inferInstanceAs (Decidable True)

/-- The condition of a run without checks that fail. -/
def OpenRun (p : Platform) (w : World) (c : Cmd) : Prop :=
  FreesInOpenPage p w c ∧ RoomForHeader w c ∧ RoomBehindPage w c

instance (p : Platform) (w : World) (c : Cmd) : Decidable (OpenRun p w c) :=
  inferInstanceAs (Decidable (_ ∧ _ ∧ _))

/-- The command may be issued: `kfree` of a live block, a request that does not stop at an
exhausted heap, or a write into a live block. -/
def Permitted (p : Platform) (w : World) : Cmd → Prop
  | .alloc cpu n => cpu < p.cpuCount ∧ (n ≤ 16384 → pageHeaders w.st cpu = [] →
      ∃ x ∈ freeNodes w.st, (pageBytes : ℤ) ≤ x.2)
  | .free cpu a => cpu < p.cpuCount ∧ ∃ b ∈ w.live, b.addr = a
  | .write a _ => ∃ b ∈ w.live, b.region.Contains a

/-- The shape of a world: the one that its memory holds, or that of a barren heap. -/
def HasShape (p : Platform) (w : World) (sh : Shape) : Prop :=
  Inv p w sh ∨ (Barren p w ∧ sh = bootShape p)

/-- The command returns, and each operation on its way is one that the shape allows: no
null dereference, and nodes are read and written where free nodes are. -/
def CallSafe (p : Platform) (w : World) : Cmd → Prop
  | .alloc cpu n => ∃ sh, HasShape p w sh ∧
      wp (callFoot sh w.live []).Allows (kalloc p cpu n) w.st fun _ _ => True
  | .free cpu a => ∃ sh, HasShape p w sh ∧ ∃ b ∈ w.live, b.addr = a ∧
      wp (callFoot sh (w.live.erase b) [b.nodeAddr]).Allows (kfree p cpu a) w.st fun _ _ => True
  | .write _ _ => True

/-- The lists of the pages end. -/
structure Plain (sh : Shape) : Prop where
  long : Long sh
  unlooped : ∀ pg ∈ sh.pages, pg.looped = false

section Returns

variable {p : Platform} {sh sh' : Shape} {live live' : List Block} {w : World} {c : Cmd}
  {b : Block} {pg : Page} {s : PmmState} {cpu n : ℕ}

/-- A page of a live block whose index is not 0 has a free node. -/
theorem runs_of_index (h : Holds p sh live s.mem s.var)
    (hpg : pg ∈ sh.pages) (hhouse : Houses pg b) (hsmall : ¬ b.Huge)
    (hindex : 0 < wordAt s.mem pg.base) : pg.runs ≠ [] := by
  have hcls : pg.cls ≠ 0 := by
    have := (Block.sizeClass hsmall).ge
    rw [hhouse.1]
    omega
  intro hnil
  have hword := ((Page.repr_iff hcls).mp (h.pages pg hpg)).index
  rw [hnil] at hword
  have hzero : indexOf pg.base pg.cls [] = 0 := rfl
  omega

/-- The page of the freed block is not full. -/
theorem FreesInOpenPage.runs (hopen : FreesInOpenPage p w (.free cpu b.addr)) (hinv : Inv p w sh)
    (hpg : pg ∈ sh.pages) (hhouse : Houses pg b) (hsmall : ¬ b.Huge) : pg.runs ≠ [] := by
  have hall : ∀ cpu < p.cpuCount, ∀ ph ∈ pageHeaders w.st cpu,
      ph < b.addr ∧ b.addr < ph + pageBytes → 0 < wordAt w.st.mem ph := hopen
  apply runs_of_index hinv.holds hpg hhouse hsmall
  exact hall pg.owner (hinv.sound.pages pg hpg).2 pg.base
    (hinv.holds.mem_pageHeaders hinv.sound hpg) (hhouse.inPage hsmall)

theorem Shape.Sound.huge_not_housed (hs : Sound p sh live) (hb : b ∈ live) (hbh : b.Huge)
    (hpg : pg ∈ sh.pages) : ¬ Houses pg b := by
  rintro ⟨hcls, -⟩
  have hsize := (hs.huge_size hb hbh).1
  obtain h0 | hclass := (hs.pages pg hpg).1.cls
  · omega
  · have := hclass.le
    omega

/-- No large block lies in a page. -/
theorem spares_huge (hs : Sound p sh live) (h : Holds p sh live s.mem s.var) (hb : b ∈ live)
    (hbh : b.Huge) : ¬ MergesPageHeader p s b.addr := by
  rintro ⟨cpu, hcpu, ph, hph, hin, -⟩
  rw [h.pageHeaders_eq hs hcpu] at hph
  obtain ⟨y, hy, rfl⟩ := List.mem_map.mp hph
  exact hs.huge_not_inPage hb hbh (mem_pagesOf.mp hy).1 hin

theorem Plain.spares (h : Plain sh) (hinv : Inv p w sh) (hb : b ∈ w.live)
    (hopen : FreesInOpenPage p w (.free cpu b.addr)) : ¬ MergesPageHeader p w.st b.addr := by
  by_cases hbh : b.Huge
  · exact spares_huge hinv.sound hinv.holds hb hbh
  · obtain ⟨pg, hpg, hhouse⟩ := hinv.sound.small b hb hbh
    have hruns := hopen.runs hinv hpg hhouse hbh
    exact spares_of_open hinv.sound hinv.holds hb hbh hpg hhouse hruns (h.unlooped pg hpg)

theorem freed_unlooped {t : Region} (hruns : pg.runs ≠ []) (hloop : pg.looped = false) :
    (pg.freed t).looped = false := by
  unfold Page.freed
  split_ifs with hwhole
  · rfl
  · have hne : pg.runs.isEmpty = false := by simpa using hruns
    simp only [hloop, hne, Bool.or_self]

theorem forall_replaced {P : Page → Prop} {P₁ P₂ : List Page} {pg' : Page}
    (hpages : sh.pages = P₁ ++ pg :: P₂) (hP : ∀ x ∈ sh.pages, P x) (hP' : P pg') :
    ∀ x ∈ P₁ ++ pg' :: P₂, P x := by
  intro x hx
  rw [List.mem_append, List.mem_cons] at hx
  obtain hx | rfl | hx := hx
  · exact hP x (by rw [hpages]; simp [hx])
  · exact hP'
  · exact hP x (by rw [hpages]; simp [hx])

theorem Plain.step (h : Plain sh) (hinv : Inv p w sh) (hC : OpenRun p w c)
    (hstep : ShapeStep sh w.live c sh' live') : Plain sh' := by
  obtain ⟨hopen, hroom, hbehind⟩ := hC
  refine ⟨h.long.step hinv hroom hbehind hstep.heap, ?_⟩
  have hmem : ∀ {P₁ P₂ : List Page} {x : Page}, sh.pages = P₁ ++ x :: P₂ → x ∈ sh.pages := by
    intro P₁ P₂ x hpages
    rw [hpages]
    simp
  cases hstep with
  | refuse _ => exact h.unlooped
  | write => exact h.unlooped
  | alloc hstep =>
    cases hstep with
    | small _ hstep =>
      cases hstep with
      | pop hpages _ _ _ =>
        have hloop := h.unlooped _ (hmem hpages)
        exact forall_replaced hpages h.unlooped hloop
      | recycle hpages _ _ => exact forall_replaced hpages h.unlooped rfl
      | extend _ _ _ => exact List.forall_mem_cons.mpr ⟨rfl, h.unlooped⟩
    | huge _ _ _ _ => exact h.unlooped
  | free hb hstep =>
    cases hstep with
    | small hbs hpages hhouse =>
      have hpg := hmem hpages
      have hruns := hopen.runs hinv hpg hhouse hbs
      exact forall_replaced hpages h.unlooped (freed_unlooped hruns (h.unlooped _ hpg))
    | huge _ => exact h.unlooped

theorem OpenRun.stepOK (hC : OpenRun p w c) (h : Plain sh) (hinv : Inv p w sh) :
    StepOK p w sh c := by
  cases c with
  | alloc cpu n =>
    have hmixed : MixedRun p w (.alloc cpu n) := ⟨trivial, hC.2⟩
    exact (keeps_long p).ok w sh _ hinv h.long hmixed
  | free cpu a =>
    rintro b hb rfl
    exact ⟨fun _ => h.spares hinv hb hC.1, fun _ => h.long⟩
  | write a v => exact trivial

theorem keeps_plain (p : Platform) : Keeps p (OpenRun p) fun sh _ => Plain sh where
  boot hlen := ⟨(keeps_long p).boot hlen, by simp [bootShape]⟩
  ok _ _ _ hinv hplain hC := hC.stepOK hplain hinv
  step _ _ _ _ _ hinv hplain hC hstep := hplain.step hinv hC hstep
  barren w cpu n hbarren hC hbig hmax := hbarren.headerFits hbig hmax hC.2.1

/-- A CPU without page headers has no pages. -/
theorem Inv.pagesOf_nil (hinv : Inv p w sh) (hcpu : cpu < p.cpuCount)
    (h : sh.pagesOf cpu = []) : pageHeaders w.st cpu = [] := by
  rw [hinv.holds.pageHeaders_eq hinv.sound hcpu, h]
  rfl

theorem Inv.node_of_freeNodes (hinv : Inv p w sh)
    (h : ∃ x ∈ freeNodes w.st, (pageBytes : ℤ) ≤ x.2) : ∃ r ∈ sh.free, pageBytes ≤ r.len := by
  obtain ⟨x, hx, hlen⟩ := h
  rw [hinv.holds.freeNodes_eq hinv.sound] at hx
  obtain ⟨r, hr, rfl⟩ := List.mem_map.mp hx
  exact ⟨r, hr, by simpa only [Nat.cast_le] using hlen⟩

/-- The calls of a world that holds a plain shape are safe. -/
theorem Plain.callSafe (h : Plain sh) (hinv : Inv p w sh) (hC : OpenRun p w c)
    (hc : Permitted p w c) : CallSafe p w c := by
  have hok := hC.stepOK h hinv
  cases c with
  | alloc cpu n =>
    obtain ⟨hcpu, hroom⟩ := hc
    refine ⟨sh, .inl hinv, wp_post (wp_kalloc hinv hcpu hok ?_) fun _ _ _ => trivial⟩
    intro hn hempty
    exact hinv.node_of_freeNodes (hroom hn (hinv.pagesOf_nil hcpu hempty))
  | free cpu a =>
    obtain ⟨hcpu, b, hb, rfl⟩ := hc
    refine ⟨sh, .inl hinv, b, hb, rfl, ?_⟩
    obtain ⟨T, hT, hwp⟩ := wp_kfree hinv hcpu hb (hok b hb rfl)
    have hnil : T = [] := by
      by_cases hbh : b.Huge
      · apply hT
        intro pg hpg hhouse
        exact absurd hhouse (hinv.sound.huge_not_housed hb hbh hpg)
      · apply hT
        intro pg hpg hhouse
        exact ⟨hC.1.runs hinv hpg hhouse hbh, h.unlooped pg hpg⟩
    rw [hnil] at hwp
    exact wp_post hwp fun _ _ _ => trivial
  | write a v => exact trivial

/-- The calls of a barren world are safe when the recorded length is not negative. -/
theorem Barren.callSafe (h : Barren p w) (hlen : 0 ≤ p.recorded) (hc : Permitted p w c) :
    CallSafe p w c := by
  cases c with
  | alloc cpu n =>
    obtain ⟨hcpu, hroom⟩ := hc
    refine ⟨bootShape p, .inr ⟨h, rfl⟩, ?_⟩
    by_cases hn : n ≤ 16384
    · obtain ⟨x, hx, hfit⟩ := hroom hn (h.fresh.pageHeaders_nil hcpu)
      rw [h.fresh.freeNodes_eq, List.mem_singleton] at hx
      have hshort := h.short
      rw [hx] at hfit
      unfold pageBytes at hfit
      simp only at hfit
      omega
    · by_cases hmax : n ≤ 16777216
      · rw [h.live]
        exact wp_post (h.fresh.wp_huge hlen h.short (by omega) hmax) fun _ _ _ => trivial
      · rw [kalloc_toolarge (by omega)]
        exact trivial
  | free cpu a =>
    obtain ⟨-, b, hb, -⟩ := hc
    rw [h.live] at hb
    cases hb
  | write a v => exact trivial

/-- Freeing and allocating never trips an internal check: in every run that frees no block
of a full page, and whose requests find room for headers and behind pages, the next such
call is safe. -/
theorem calls_return (hlen : 0 ≤ p.recorded) (h : (allocator p).Reach (OpenRun p) w)
    (hC : OpenRun p w c) (hc : Permitted p w c) : CallSafe p w c := by
  obtain ⟨sh, hinv, hplain⟩ | hbarren := (keeps_plain p).reach h
  · exact hplain.callSafe hinv hC hc
  · exact hbarren.callSafe hlen hc

/-- After blocks were freed and taken again, the block of another CPU is freed. -/
theorem calls_return_run : ∃ w : World, w.live = [⟨0x100080, 100⟩, ⟨0x100100, 100⟩] ∧
    CallSafe halfMega w (.free 1 0x100100) := by
  have hrun : ((runFrom halfMega (OpenRun halfMega) blank
      [.alloc 0 100, .alloc 0 100, .free 1 0x100080, .alloc 0 100]).map fun w =>
        (w.live, decide (OpenRun halfMega w (.free 1 0x100100)))) =
          some ([⟨0x100080, 100⟩, ⟨0x100100, 100⟩], true) := by decide +kernel
  obtain ⟨w, hw, hlast⟩ := Option.map_eq_some_iff.mp hrun
  obtain ⟨hlive, hopen⟩ := Prod.mk.inj hlast
  have hc : Permitted halfMega w (.free 1 0x100100) := by
    refine ⟨by decide, ⟨0x100100, 100⟩, ?_, rfl⟩
    rw [hlive]
    decide
  exact ⟨w, hlive, calls_return (by decide) (reach_of_runFrom hw) (of_decide_eq_true hopen) hc⟩

/-- A page of three blocks of 16 KiB is full. Once blocks 2 and 1 are free its header has size
0, although block 3 is live, and freeing block 3 divides by that size. -/
theorem full_page_divides : ¬ ∀ (p : Platform) (w : World) (c : Cmd),
    (allocator p).Reach (fun _ _ => True) w → Permitted p w c → CallSafe p w c := by
  intro hclaim
  have hrun : ((runFrom halfMega (fun _ _ => True) blank
      [.alloc 0 16384, .alloc 0 16384, .alloc 0 16384, .free 0 0x108000, .free 0 0x104000]).map
        fun w => (w.live, match Prog.exec (kfree halfMega 0 0x10C000) w.st with
          | .ok _ => false
          | .error _ => true)) = some ([⟨0x10C000, 16384⟩], true) := by decide +kernel
  obtain ⟨w, hw, hlast⟩ := Option.map_eq_some_iff.mp hrun
  obtain ⟨hlive, hfault⟩ := Prod.mk.inj hlast
  have hc : Permitted halfMega w (.free 0 0x10C000) := by
    refine ⟨by decide, ⟨0x10C000, 16384⟩, ?_, rfl⟩
    rw [hlive]
    decide
  obtain ⟨sh, -, b, -, -, hwp⟩ := hclaim halfMega w _ (reach_of_runFrom hw) hc
  obtain ⟨a, t, hexec, -⟩ := wp_exec hwp
  rw [hexec] at hfault
  cases hfault

end Returns

section Exhaustion

variable {p : Platform} {sh : Shape} {w : World} {cpu n a : ℕ} {sh' : Shape}

/-- The request cannot be satisfied: it is too large; or it is small, no page of the CPU
has a free block of its class or is empty, and no free node holds a page; or it is large
and no free node holds the block with its header. -/
def Unsatisfiable (s : PmmState) (cpu n : ℕ) : Prop :=
  16777216 < n ∨
  (n ≤ 16384 ∧ (∀ q ∈ pageHeaders s cpu, sizeAt s.mem q ≠ 0 ∧
    ¬ (sizeAt s.mem q = roundSize n ∧ 0 < wordAt s.mem q)) ∧
    ∀ x ∈ freeNodes s, x.2 < pageBytes) ∨
  (16384 < n ∧ n ≤ 16777216 ∧ ∀ x ∈ freeNodes s, x.2 < (roundSize n + headerBytes : ℕ))

instance (s : PmmState) (cpu n : ℕ) : Decidable (Unsatisfiable s cpu n) :=
  inferInstanceAs (Decidable (_ ∨ (_ ∧ (∀ q ∈ pageHeaders s cpu, _) ∧ ∀ x ∈ freeNodes s, _) ∨
    (_ ∧ _ ∧ ∀ x ∈ freeNodes s, _)))

/-- The nodes of the shape are as short as those of the memory. -/
theorem Inv.free_lt (hinv : Inv p w sh) {k : ℕ} (h : ∀ x ∈ freeNodes w.st, x.2 < k) :
    ∀ r ∈ sh.free, r.len < k := by
  intro r hr
  have hx := h (r.start, (r.len : ℤ)) (by
    rw [hinv.holds.freeNodes_eq hinv.sound]
    exact List.mem_map_of_mem hr)
  simpa only [Nat.cast_lt] using hx

/-- An unsatisfiable request is not allocated. -/
theorem Unsatisfiable.no_step (h : Unsatisfiable w.st cpu n) (hinv : Inv p w sh)
    (hcpu : cpu < p.cpuCount) (hfits : HeaderFits w.st n) : ¬ AllocStep sh cpu n a sh' := by
  intro hstep
  cases hstep with
  | small hn hstep =>
    obtain hbig | ⟨-, hpages, hnodes⟩ | ⟨hbig, -⟩ := h
    · omega
    · have hheader : ∀ pg ∈ sh.pages, pg.owner = cpu → sizeAt w.st.mem pg.base ≠ 0 ∧
          ¬ (sizeAt w.st.mem pg.base = roundSize n ∧ 0 < wordAt w.st.mem pg.base) := by
        rintro pg hpg rfl
        exact hpages pg.base (hinv.holds.mem_pageHeaders hinv.sound hpg)
      cases hstep with
      | @pop P₁ P₂ pg r rest hsplit howner hcls hruns =>
        have hpg : pg ∈ sh.pages := by rw [hsplit]; simp
        have hclass := (hinv.sound.pages pg hpg).1.sizeClass (by rw [hruns]; simp)
        have hge := hclass.ge
        have hlist := (Page.repr_iff (show pg.cls ≠ 0 by omega)).mp (hinv.holds.pages pg hpg)
        have hrun := ((hinv.sound.pages pg hpg).1.run r (by rw [hruns]; simp)).index (by omega)
        apply (hheader pg hpg howner).2
        constructor
        · rw [hlist.size, hcls]
        · rw [hlist.index, hruns]
          exact hrun.2
      | @recycle P₁ P₂ pg hsplit howner hempty =>
        have hpg : pg ∈ sh.pages := by rw [hsplit]; simp
        apply (hheader pg hpg howner).1
        rw [(hinv.holds.pages pg hpg).size, hempty]
        rfl
      | @extend l₁ l₂ r hfree _ hfit =>
        have := hinv.free_lt hnodes r (by rw [hfree]; simp)
        omega
    · omega
  | huge hbig hmax hfree hfit =>
    obtain hlarge | ⟨hn, -⟩ | ⟨-, -, hnodes⟩ := h
    · omega
    · omega
    · have hroom := hfits.room hinv.sound hinv.holds.heap hbig hmax hfit
      have := hinv.free_lt hnodes _ hfit.1
      unfold headerBytes at this
      omega

/-- A large request for which some node is large enough cuts a block, which moves the end of
a node, or returns a block. -/
theorem huge_takes {s : PmmState} {size : ℕ} (hmax : size ≤ 16777216) {x : ℕ × ℤ}
    (hx : x ∈ freeNodes s) (hfit : size ≤ toSize x.2)
    (hplace : ∀ y ∈ freeNodes s, size ≤ toSize y.2 → y.1 + 32 ≤ 18446744073709551616) :
    Prog.exec (kallocHugeMemory size) s ≠ .ok (0, s) := by
  intro h
  obtain ⟨-, hnone⟩ | ⟨y, hy, hnode, ha, hmem⟩ := kallocHugeMemory_cases h
  · exact hnone x hx hfit
  · have hy₁ := hplace y hy hnode.2.1
    obtain ⟨z, -, rfl⟩ := List.mem_map.mp hy
    have hheader : subPtr 0 headerBytes = 18446744073709551600 := rfl
    have hapart : Apart 18446744073709551600 z := .inr (by simpa using hy₁)
    -- the header lies at the end of the address space, apart from the node
    have hsize := congrArg (fun m => sizeAt m z) hmem
    simp only [hheader] at hsize
    rw [(SameRecord.setWordAt hapart _).size, (SameRecord.setSizeAt hapart _).size,
      sizeAt_setSizeAt_toInt] at hsize
    have hbounds := sizeAt_bounds s.mem z
    simp only at ha hy₁
    generalize sizeAt s.mem z = i at *
    unfold subPtr addPtr toSize at ha
    unfold toInt toWord subPtr at hsize
    split_ifs at hsize <;> omega

/-- A large request that returns `NULL` and leaves no trace has no node without room for its
header. -/
theorem headerFits_of_null
    (hplace : ∀ y ∈ freeNodes w.st, roundSize n ≤ toSize y.2 → y.1 + 32 ≤ 18446744073709551616)
    (hexec : Prog.exec (kalloc p cpu n) w.st = .ok (0, w.st)) : HeaderFits w.st n := by
  intro hbig hmax x hx hnode
  rw [kalloc_huge hbig hmax] at hexec
  have hround := (roundSize_huge hbig hmax).2.1
  exact absurd hexec (huge_takes (by omega) hx hnode.2.1 hplace)

/-- A request that cannot be satisfied and whose node has room for the header returns `NULL`
and leaves no trace, exactly when it is not the first small request of its CPU; that one
stops in an assertion. -/
theorem Inv.exhausted_iff (hinv : Inv p w sh) (hcpu : cpu < p.cpuCount)
    (hfits : HeaderFits w.st n) (h : Unsatisfiable w.st cpu n) :
    Prog.exec (kalloc p cpu n) w.st = .ok (0, w.st) ↔
      (n ≤ 16384 → pageHeaders w.st cpu ≠ []) := by
  have hsmallnodes : n ≤ 16384 → ∀ r ∈ sh.free, r.len < pageBytes := by
    intro hn
    obtain hbig | ⟨-, -, hnodes⟩ | ⟨hbig, -⟩ := h
    · omega
    · exact hinv.free_lt hnodes
    · omega
  have hok : AllocOK sh w.live n := by
    constructor
    · intro hn l₁ r l₂ hfree _ hfit
      have := hsmallnodes hn r (by rw [hfree]; simp)
      omega
    · intro hbig hmax r hfit
      exact hfits.room hinv.sound hinv.holds.heap hbig hmax hfit
  constructor
  · intro hexec hn hnil
    have hempty : sh.pagesOf cpu = [] := by
      rw [hinv.holds.pageHeaders_eq hinv.sound hcpu] at hnil
      exact List.map_eq_nil_iff.mp hnil
    rw [exec_kalloc_exhausted hinv hcpu hn hempty (hsmallnodes hn)] at hexec
    cases hexec
  · intro hpaged
    have hwp := wp_kalloc hinv hcpu hok fun hn hempty =>
      absurd (hinv.pagesOf_nil hcpu hempty) (hpaged hn)
    refine exec_of_wp (wp_post hwp ?_)
    rintro a t (⟨ha, ht, -⟩ | ⟨-, sh', hstep, -⟩)
    · exact ⟨ha, ht⟩
    · exact absurd hstep (h.no_step hinv hcpu hfits)

theorem Barren.exhausted_iff (hbarren : Barren p w) (hcpu : cpu < p.cpuCount)
    (hfits : HeaderFits w.st n) : Prog.exec (kalloc p cpu n) w.st = .ok (0, w.st) ↔
      (n ≤ 16384 → pageHeaders w.st cpu ≠ []) := by
  have hshort := hbarren.short
  have hnil := hbarren.fresh.pageHeaders_nil hcpu
  by_cases hn : n ≤ 16384
  · rw [hbarren.fresh.exec_small hcpu hn (by omega)]
    constructor
    · intro hexec
      cases hexec
    · intro hpaged
      exact absurd hnil (hpaged hn)
  · constructor
    · intro _ hle
      exact absurd hle hn
    · intro _
      by_cases hmax : n ≤ 16777216
      · have hlen := hbarren.headerFits (by omega) hmax hfits
        exact hbarren.fresh.exec_huge hlen hshort (by omega)
      · rw [kalloc_toolarge (by omega)]
        rfl

/-- A node of the shape lies in the heap, and so does that of a barren heap if it is large. -/
theorem Shaped.place {F : Shape → List Block → Prop} (h : Shaped p F w) {size : ℕ}
    (hsize : 32768 ≤ size) :
    ∀ y ∈ freeNodes w.st, size ≤ toSize y.2 → y.1 + 32 ≤ 18446744073709551616 := by
  intro y hy hfit
  obtain ⟨sh, hinv, -⟩ | hbarren := h
  · rw [hinv.holds.freeNodes_eq hinv.sound] at hy
    obtain ⟨r, hr, rfl⟩ := List.mem_map.mp hy
    obtain ⟨-, hlo, hhi⟩ := hinv.sound.free r hr
    have hmax := p.limit_max
    have hlen := hinv.sound.len_lt hr
    rw [toSize_natCast (by omega)] at hfit
    unfold stop at hhi
    omega
  · rw [hbarren.fresh.freeNodes_eq] at hy
    obtain rfl := List.mem_singleton.mp hy
    have hshort := hbarren.short
    have hend := p.heapEnd_lt
    have hle := p.heapStart_le
    unfold Platform.recorded toInt toWord at hfit hshort
    unfold toSize at hfit
    split_ifs at hfit hshort <;> omega

/-- Exhaustion is reported and leaves no trace, in every state of a run without overlaps,
exactly for the requests whose node, where there is one, has room for the header, and that
are not the first small request of a CPU. -/
theorem exhaustion_reported_iff (h : (allocator p).Reach (MixedRun p) w) (hcpu : cpu < p.cpuCount)
    (hunsat : Unsatisfiable w.st cpu n) :
    Prog.exec (kalloc p cpu n) w.st = .ok (0, w.st) ↔
      HeaderFits w.st n ∧ (n ≤ 16384 → pageHeaders w.st cpu ≠ []) := by
  have hshaped := (keeps_long p).reach h
  have hiff : HeaderFits w.st n → (Prog.exec (kalloc p cpu n) w.st = .ok (0, w.st) ↔
      (n ≤ 16384 → pageHeaders w.st cpu ≠ [])) := by
    intro hfits
    obtain ⟨sh, hinv, -⟩ | hbarren := hshaped
    · exact hinv.exhausted_iff hcpu hfits hunsat
    · exact hbarren.exhausted_iff hcpu hfits
  constructor
  · intro hexec
    have hfits : HeaderFits w.st n := by
      by_cases hlarge : 16384 < n ∧ n ≤ 16777216
      · exact headerFits_of_null (hshaped.place (roundSize_huge hlarge.1 hlarge.2).1) hexec
      · intro hbig hmax
        exact absurd ⟨hbig, hmax⟩ hlarge
    exact ⟨hfits, (hiff hfits).mp hexec⟩
  · rintro ⟨hfits, hpaged⟩
    exact (hiff hfits).mpr hpaged

/-- CPU 0 has a page whose blocks are taken, and the rest of the heap is large blocks:
its next request returns `NULL`, that of CPU 1 does not. Nor does a large request for which
a node has room, but not for its header. -/
theorem exhaustion_reported_run : ∃ w w' : World,
    (allocator halfMega).Reach (MixedRun halfMega) w ∧
      Prog.exec (kalloc halfMega 0 16384) w.st = .ok (0, w.st) ∧
      Prog.exec (kalloc halfMega 1 16384) w.st ≠ .ok (0, w.st) ∧
      (allocator halfMega).Reach (MixedRun halfMega) w' ∧ Unsatisfiable w'.st 0 32768 ∧
      Prog.exec (kalloc halfMega 0 32768) w'.st ≠ .ok (0, w'.st) := by
  have hrun : ((runFrom halfMega (MixedRun halfMega) blank
      [.alloc 0 100, .alloc 0 262144, .alloc 0 65536, .alloc 0 65536]).map fun w =>
        decide ((HeaderFits w.st 16384 ∧ Unsatisfiable w.st 0 16384 ∧
          Unsatisfiable w.st 1 16384) ∧ pageHeaders w.st 0 ≠ [] ∧ pageHeaders w.st 1 = [])) =
          some true := by decide +kernel
  have hrun' : ((runFrom halfMega (MixedRun halfMega) blank
      [.alloc 0 32768, .alloc 0 262144, .alloc 0 131072, .alloc 0 65536, .free 0 0x178000]).map
        fun w => decide (Unsatisfiable w.st 0 32768 ∧ ¬ HeaderFits w.st 32768)) = some true := by
    decide +kernel
  obtain ⟨w, hw, hlast⟩ := Option.map_eq_some_iff.mp hrun
  obtain ⟨⟨hfits, h₀, h₁⟩, hpaged, hnil⟩ := of_decide_eq_true hlast
  obtain ⟨w', hw', hlast'⟩ := Option.map_eq_some_iff.mp hrun'
  obtain ⟨hunsat, hnofit⟩ := of_decide_eq_true hlast'
  have hreach := reach_of_runFrom hw
  have hreach' := reach_of_runFrom hw'
  refine ⟨w, w', hreach, ?_, ?_, hreach', hunsat, ?_⟩
  · exact (exhaustion_reported_iff hreach (by decide) h₀).mpr ⟨hfits, fun _ => hpaged⟩
  · intro hexec
    exact ((exhaustion_reported_iff hreach (by decide) h₁).mp hexec).2 (by decide) hnil
  · intro hexec
    exact hnofit ((exhaustion_reported_iff hreach' (by decide) hunsat).mp hexec).1

/-- The first small request of CPU 1 on an exhausted heap does not return. -/
theorem exhaustion_fatal : ¬ ∀ (p : Platform) (w : World) (cpu n : ℕ), cpu < p.cpuCount →
    (allocator p).Reach (fun _ _ => True) w → Unsatisfiable w.st cpu n →
      Prog.exec (kalloc p cpu n) w.st = .ok (0, w.st) := by
  intro hclaim
  have hrun : ((runFrom halfMega (fun _ _ => True) blank
      [.alloc 0 262144, .alloc 0 131072, .alloc 0 65536]).map fun w =>
        decide (Unsatisfiable w.st 1 100 ∧ (match Prog.exec (kalloc halfMega 1 100) w.st with
          | .ok _ => false
          | .error _ => true) = true)) = some true := by decide +kernel
  obtain ⟨w, hw, hlast⟩ := Option.map_eq_some_iff.mp hrun
  obtain ⟨hunsat, hfault⟩ := of_decide_eq_true hlast
  rw [hclaim halfMega w 1 100 (by decide) (reach_of_runFrom hw) hunsat] at hfault
  cases hfault

end Exhaustion
end KmallocKfree
