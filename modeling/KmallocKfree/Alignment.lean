import KmallocKfree.Coverage

/-!
# Alignment

The address of a page is the start of a free node, so pages stay aligned while every
free node starts at a multiple of 64 KiB. A large block freed with no free node before
its header starts a node at that header. The address of a large block is the end of a
free node less the block's size: it is aligned exactly when that end is.
-/
namespace KmallocKfree

open Prog Region Shape

/-- A large block that is freed follows a free node, or its header is aligned. -/
def FreesAligned (w : World) : Cmd → Prop
  | .free _ a => ∀ b ∈ w.live, b.addr = a → b.Huge → FollowsFree w.st a ∨ 65536 ∣ b.span.start
  | _ => True

instance (w : World) : DecidablePred (FreesAligned w)
  | .alloc _ _ => inferInstanceAs (Decidable True)
  | .free _ a => inferInstanceAs (Decidable (∀ b ∈ w.live, b.addr = a → b.Huge →
      FollowsFree w.st a ∨ 65536 ∣ b.span.start))
  | .write _ _ => inferInstanceAs (Decidable True)

/-- The condition of a mixed run that keeps its pages aligned. -/
def PageAlignedRun (p : Platform) (w : World) (c : Cmd) : Prop :=
  AlignedRun p w c ∧ FreesAligned w c

instance (p : Platform) (w : World) (c : Cmd) : Decidable (PageAlignedRun p w c) :=
  inferInstanceAs (Decidable (_ ∧ _))

/-- Pages start at multiples of 64 KiB, and a small block at a multiple of the least power
of two that holds its request and 32 bytes. -/
structure SmallAligned (p : Platform) (w : World) : Prop where
  pages : ∀ q, IsPageHeader p w.st q → 65536 ∣ q
  blocks : ∀ b ∈ w.live, ¬ b.Huge → 2 ^ Nat.clog 2 (max b.req 32) ∣ b.addr

/-- Free nodes and pages start at multiples of 64 KiB. -/
structure PagesAligned (sh : Shape) : Prop where
  dvd : Mult16 sh
  nodes : ∀ r ∈ sh.free, 65536 ∣ r.start
  bases : ∀ q ∈ sh.pages.map Page.base, 65536 ∣ q

section Pages

variable {p : Platform} {sh sh' : Shape} {live : List Block} {w : World} {c : Cmd} {b : Block}
  {r : Region}

/-- The node that ends at the header of a block that follows a free node. -/
theorem FollowsFree.touching (h : FollowsFree w.st b.addr) (hinv : Inv p w sh) :
    ∃ t, touchingBelow sh.free b.span = some t := by
  obtain ⟨x, hx, heq⟩ := h
  rw [hinv.holds.freeNodes_eq hinv.sound] at hx
  obtain ⟨r, hr, rfl⟩ := List.mem_map.mp hx
  simp only at heq
  cases hbelow : touchingBelow sh.free b.span with
  | some t => exact ⟨t, rfl⟩
  | none =>
    have hne := touchingBelow_none hbelow hr
    unfold Block.span Region.stop at hne
    simp only at hne
    omega

theorem givenBack_start {l : List Region} {t : Region}
    (h : (∃ u, touchingBelow l t = some u) ∨ 65536 ∣ t.start) (hl : ∀ r ∈ l, 65536 ∣ r.start) :
    65536 ∣ (givenBack t l).start := by
  unfold givenBack
  cases hbelow : touchingBelow l t with
  | some u =>
    have hu := hl u (touchingBelow_some hbelow).1
    cases habove : touchingAbove l t with
    | some a => exact hu
    | none => exact hu
  | none =>
    have ht : 65536 ∣ t.start := by
      apply h.resolve_left
      rintro ⟨u, hu⟩
      rw [hbelow] at hu
      cases hu
    cases habove : touchingAbove l t with
    | some a => exact ht
    | none => exact ht

theorem PagesAligned.step (h : PagesAligned sh) (hinv : Inv p w sh) (hC : PageAlignedRun p w c)
    (hstep : HeapStep sh w.live c sh') : PagesAligned sh' := by
  obtain ⟨hrun, hfrees⟩ := hC
  refine ⟨h.dvd.step hinv hrun.2 hstep, ?_, ?_⟩
  · apply hstep.forall_free hinv.sound h.nodes
    · intro cpu n r _ _ hr _ _ q hq
      have hstart := (mem_afterPage hq).1
      have hdvd := h.nodes r hr
      unfold pageBytes at hstart
      omega
    · intro cpu n r _ _ _ hfit
      exact h.nodes r hfit.1
    · rintro cpu b rfl hb hbh
      have hfree : ∀ d ∈ w.live, d.addr = b.addr → d.Huge →
          FollowsFree w.st b.addr ∨ 65536 ∣ d.span.start := hfrees
      apply givenBack_start _ h.nodes
      obtain hfollows | hdvd := hfree b hb rfl hbh
      · exact .inl (hfollows.touching hinv)
      · exact .inr hdvd
  · cases hstep with
    | same _ hbases =>
      rw [hbases]
      exact h.bases
    | @page _ _ _ _ r _ _ hfree _ _ _ hbases =>
      intro q hq
      rw [hbases] at hq
      obtain rfl | hq := List.mem_cons.mp hq
      · exact h.nodes r (by rw [hfree]; simp)
      · exact h.bases q hq
    | cut _ _ _ _ _ hbases =>
      rw [hbases]
      exact h.bases
    | back _ _ _ hbases =>
      rw [hbases]
      exact h.bases

theorem keeps_pagesAligned (h₁ : 65536 ∣ p.heapStart) (h₂ : 65536 ∣ p.heapEnd) :
    Keeps p (PageAlignedRun p) fun sh _ => PagesAligned sh where
  boot hlong := by
    refine ⟨(keeps_mult16 h₁ h₂).boot hlong, ?_, by simp [bootShape]⟩
    intro r hr
    obtain rfl := List.mem_singleton.mp hr
    exact h₁
  ok w sh c hinv hF hC := (keeps_mult16 h₁ h₂).ok w sh c hinv hF.dvd hC.1
  step _ _ _ _ _ hinv hF hC hstep := hF.step hinv hC hstep.heap
  barren w cpu n hbarren hC := (keeps_mult16 h₁ h₂).barren w cpu n hbarren hC.1

/-- A block of an aligned page is aligned to its class. -/
theorem Shape.Houses.dvd {pg : Page} (h : Houses pg b) (hb : ¬ b.Huge)
    (hbase : 65536 ∣ pg.base) : b.size ∣ b.addr := by
  obtain ⟨hcls, ⟨k, -, haddr, -⟩, -⟩ := h
  have hpage : b.size ∣ pg.base := (Block.sizeClass hb).dvd.trans hbase
  rw [haddr, hcls]
  exact dvd_add hpage (Dvd.intro_left k rfl)

/-- Small requests stay aligned in every mixed run on an aligned heap whose large blocks
are freed behind a free node, or at an aligned header. -/
theorem small_blocks_aligned (h₁ : 65536 ∣ p.heapStart) (h₂ : 65536 ∣ p.heapEnd)
    (h : (allocator p).Reach (PageAlignedRun p) w) : SmallAligned p w := by
  obtain ⟨sh, hinv, haligned⟩ | hbarren := (keeps_pagesAligned h₁ h₂).reach h
  · constructor
    · intro q hq
      exact haligned.bases q (hinv.isPageHeader_iff.mp hq)
    · intro b hb hbs
      obtain ⟨pg, hpg, hhouse⟩ := hinv.sound.small b hb hbs
      have hdvd := hhouse.dvd hbs (haligned.bases pg.base (List.mem_map_of_mem hpg))
      unfold Block.Huge at hbs
      rwa [Block.size, roundSize_eq_pow (by omega)] at hdvd
  · constructor
    · intro q hq
      exact absurd hq hbarren.no_pages
    · simp [hbarren.live]

/-- Pages of two processors around a large block that is given back. -/
theorem small_blocks_aligned_run : ∃ w : World,
    w.live = [⟨0x110200, 300⟩, ⟨0x100020, 5⟩] ∧ SmallAligned halfMega w := by
  have hrun : ((runFrom halfMega (PageAlignedRun halfMega) blank
      [.alloc 0 5, .alloc 0 40000, .free 1 0x170000, .alloc 1 300]).map World.live) =
        some [⟨0x110200, 300⟩, ⟨0x100020, 5⟩] := by decide +kernel
  obtain ⟨w, hw, hlive⟩ := Option.map_eq_some_iff.mp hrun
  exact ⟨w, hlive, small_blocks_aligned (by decide) (by decide) (reach_of_runFrom hw)⟩

/-- A block of 64 KiB freed behind a live one leaves a node at its header, 16 bytes below
a multiple of 64 KiB, and the next page is cut from that node. -/
theorem small_blocks_misaligned : ¬ ∀ (p : Platform) (w : World), 65536 ∣ p.heapStart →
    65536 ∣ p.heapEnd → (allocator p).Reach (fun _ _ => True) w → SmallAligned p w := by
  intro hclaim
  have hrun : ((runFrom halfMega (fun _ _ => True) blank
      [.alloc 0 65536, .alloc 0 32768, .free 0 0x170000, .alloc 0 100]).map World.live) =
        some [⟨0x170070, 100⟩, ⟨0x167FF0, 32768⟩] := by decide +kernel
  obtain ⟨w, hw, hlive⟩ := Option.map_eq_some_iff.mp hrun
  have halign := (hclaim halfMega w (by decide) (by decide) (reach_of_runFrom hw)).blocks
  rw [hlive] at halign
  exact absurd (halign ⟨0x170070, 100⟩ (by decide) (by decide)) (by decide +kernel)

end Pages
section Huge

variable {p : Platform} {s t u : PmmState} {w w' : World} {cpu n a size x : ℕ} {l : Lock}

/-- The node that serves the request ends at a multiple of the least power of two that
holds the request. -/
def EndsAligned (s : PmmState) (n : ℕ) : Prop :=
  16384 < n → n ≤ 16777216 → ∀ x ∈ freeNodes s, HighestNode s (roundSize n) x →
    2 ^ Nat.clog 2 n ∣ addPtr x.1 (toSize x.2)

instance (s : PmmState) (n : ℕ) : Decidable (EndsAligned s n) :=
  inferInstanceAs (Decidable (_ → _ → _))

/-- A large request is served from a node that ends aligned. -/
def CutsAligned (w : World) : Cmd → Prop
  | .alloc _ n => EndsAligned w.st n
  | _ => True

instance (w : World) : DecidablePred (CutsAligned w)
  | .alloc _ n => inferInstanceAs (Decidable (EndsAligned w.st n))
  | .free _ _ => inferInstanceAs (Decidable True)
  | .write _ _ => inferInstanceAs (Decidable True)

/-- Large blocks start at multiples of the least power of two that holds their request. -/
def HugeAligned (w : World) : Prop := ∀ b ∈ w.live, b.Huge → 2 ^ Nat.clog 2 b.req ∣ b.addr

theorem exec_lock_ok {v : Unit} (h : Prog.exec (lock l) s = .ok (v, u)) :
    u = s.setLock l 1 := by
  have hfree : s.lock l = 0 := by
    by_contra hheld
    simp [lock, perform, Prog.bind, Prog.exec, Op.run, hheld, Bind.bind] at h
  have hwp : wp anyFoot.Allows (lock l) s fun _ t => t = s.setLock l 1 :=
    (wp_lock trivial hfree).mpr rfl
  have hu := wp_result hwp h
  exact hu

theorem exec_unlock_ok {v : Unit} (h : Prog.exec (unlock l) s = .ok (v, u)) :
    u = s.setLock l 0 := by
  have hwp : wp anyFoot.Allows (unlock l) s fun _ t => t = s.setLock l 0 :=
    (wp_unlock trivial).mpr rfl
  have hu := wp_result hwp h
  exact hu

theorem exec_writeInt_ok {v : Unit} {k : Struct} {q off : ℕ} {i : ℤ}
    (h : Prog.exec (writeInt k q off i) s = .ok (v, u)) :
    u = s.setMem (ByteMemory.store s.mem (q + off) 4 (toWord i)) := by
  by_cases hq : q = 0
  · simp [writeInt, writeWord, perform, Prog.bind, Prog.exec, Op.run, hq, Bind.bind] at h
  · have hwp : wp anyFoot.Allows (writeInt k q off i) s fun _ t =>
        t = s.setMem (ByteMemory.store s.mem (q + off) 4 (toWord i)) := by
      simp [writeInt, writeWord, perform, wp, Op.run, hq, anyFoot, Footprint.Allows]
    have hu := wp_result hwp h
    exact hu

/-- What a large request does, in any state in which it returns: no node fits, or the block
is cut off the highest one, whose size then ends at the header. -/
theorem kallocHugeMemory_cases (h : Prog.exec (kallocHugeMemory size) s = .ok (a, t)) :
    (a = 0 ∧ ∀ x ∈ freeNodes s, ¬ size ≤ toSize x.2) ∨
      ∃ x ∈ freeNodes s, HighestNode s size x ∧ a = subPtr (addPtr x.1 (toSize x.2)) size ∧
        t.mem = setWordAt (setSizeAt (setSizeAt s.mem x.1 (subPtr (subPtr a headerBytes) x.1))
          (subPtr a headerBytes) size) (subPtr a headerBytes) (toWord hugeMagic) := by
  obtain ⟨_, s₁, hlock, h⟩ := exec_bind_ok h
  obtain rfl := exec_lock_ok hlock
  obtain ⟨_, _, hhead, h⟩ := exec_bind_ok h
  cases hhead
  obtain ⟨highnode, s₂, hsearch, h⟩ := exec_bind_ok h
  have hpath := exec_walk_path (nextAt s.mem) (fun x acc hx => ?_) (fun x hx => ?_) hsearch
  · obtain ⟨L, hL, hpos, hlen⟩ := hpath
    have hfollow : follow (nextAt s.mem) loopBound (s.var .head) = L :=
      hL.follow_eq (fun h0 => hpos 0 h0 rfl) hlen
    have hfound : wp anyFoot.Allows (highestFit size (s.var .head)) (s.setLock .heapLock 1)
        fun y v => v = s.setLock .heapLock 1 ∧
          (y = 0 ∧ (∀ z ∈ L, ¬ size ≤ toSize (sizeAt s.mem z)) ∨
            y ∈ L ∧ size ≤ toSize (sizeAt s.mem y) ∧
              ∀ z ∈ L, size ≤ toSize (sizeAt s.mem z) → z ≤ y) := by
      apply wp_highestFit_at (s := s.setLock .heapLock 1) hL (fun x hx => sees_any (hpos x hx)) hlen
      · intro hnone
        exact ⟨rfl, .inl ⟨rfl, hnone⟩⟩
      · intro y hy hfit hbest
        exact ⟨rfl, .inr ⟨hy, hfit, hbest⟩⟩
    obtain ⟨rfl, hnode⟩ := wp_result hfound hsearch
    obtain ⟨rfl, hnone⟩ | ⟨hmem, hfit, hbest⟩ := hnode
    · obtain ⟨_, _, -, h⟩ := exec_bind_ok h
      cases h
      refine .inl ⟨rfl, fun x hx => ?_⟩
      unfold freeNodes at hx
      rw [hfollow] at hx
      obtain ⟨z, hz, rfl⟩ := List.mem_map.mp hx
      exact hnone z hz
    · rw [if_pos (hpos highnode hmem)] at h
      obtain ⟨nodeSize, s₃, hread, h⟩ := exec_bind_ok h
      have hsize : wp anyFoot.Allows (Freenode.size highnode) (s.setLock .heapLock 1)
          fun i v => i = sizeAt s.mem highnode ∧ v = s.setLock .heapLock 1 :=
        (wp_readSize (sees_any (hpos highnode hmem)) _).mpr ⟨rfl, rfl⟩
      obtain ⟨rfl, rfl⟩ := wp_result hsize hread
      obtain ⟨_, _, hnode, h⟩ := exec_bind_ok h
      obtain rfl := exec_writeInt_ok hnode
      obtain ⟨_, _, hheader, h⟩ := exec_bind_ok h
      obtain rfl := exec_writeInt_ok hheader
      obtain ⟨_, _, hmagic, h⟩ := exec_bind_ok h
      obtain rfl := exec_writeInt_ok hmagic
      obtain ⟨_, _, hunlock, h⟩ := exec_bind_ok h
      obtain rfl := exec_unlock_ok hunlock
      cases h
      have hin : (highnode, sizeAt s.mem highnode) ∈ freeNodes s := by
        unfold freeNodes
        rw [hfollow]
        exact List.mem_map_of_mem hmem
      refine .inr ⟨_, hin, ⟨hin, hfit, fun y hy hyfit => ?_⟩, rfl, ?_⟩
      · unfold freeNodes at hy
        rw [hfollow] at hy
        obtain ⟨z, hz, rfl⟩ := List.mem_map.mp hy
        exact hbest z hz hyfit
      · simp only [Store.setLock_mem, Store.setMem_mem, setWordAt, setSizeAt]
  · have hsize : wp anyFoot.Allows (Freenode.size x) (s.setLock .heapLock 1)
        fun i v => i = sizeAt s.mem x ∧ v = s.setLock .heapLock 1 :=
      (wp_readSize (sees_any hx) _).mpr ⟨rfl, rfl⟩
    by_cases hfit : size ≤ toSize (sizeAt s.mem x) ∧ (acc = 0 ∨ acc < x)
    · refine ⟨x, ?_⟩
      rw [exec_bind, exec_of_wp hsize]
      simp [hfit]
    · refine ⟨acc, ?_⟩
      rw [exec_bind, exec_of_wp hsize]
      simp [hfit]
  · have hnext : wp anyFoot.Allows (Freenode.next x) (s.setLock .heapLock 1)
        fun y v => y = nextAt s.mem x ∧ v = s.setLock .heapLock 1 :=
      (wp_readPtr (sees_any hx) _).mpr ⟨rfl, rfl⟩
    exact exec_of_wp hnext

/-- The highest node is one node. -/
theorem HighestNode.unique {x y : ℕ × ℤ} (hx : HighestNode s size x) (hy : HighestNode s size y) :
    x = y := by
  have haddr : x.1 = y.1 := le_antisymm (hy.2.2 x hx.1 hx.2.1) (hx.2.2 y hy.1 hy.2.1)
  obtain ⟨q, -, hq⟩ := List.mem_map.mp hx.1
  obtain ⟨r, -, hr⟩ := List.mem_map.mp hy.1
  subst hq hr
  simp only at haddr
  rw [haddr]

/-- Going down by a multiple of a power of two that divides the address space changes
no divisibility by it. -/
theorem dvd_subPtr {d e : ℕ} (hd : d ∣ 18446744073709551616) (hsize : d ∣ size)
    (hle : size < 18446744073709551616) :
    d ∣ subPtr e size ↔ d ∣ e := by
  unfold subPtr
  rw [Nat.dvd_mod_iff hd]
  have hdown : d ∣ 18446744073709551616 - size % 18446744073709551616 := by
    rw [Nat.mod_eq_of_lt hle]
    exact Nat.dvd_sub hd hsize
  exact (Nat.dvd_add_iff_left hdown).symm

/-- A large request returns an aligned block exactly when its node ends aligned. -/
theorem kalloc_aligned_iff (hbig : 16384 < n) (hmax : n ≤ 16777216)
    (h : Prog.exec (kalloc p cpu n) s = .ok (a, t)) (ha : a ≠ 0) :
    2 ^ Nat.clog 2 n ∣ a ↔ EndsAligned s n := by
  have hround : roundSize n = 2 ^ Nat.clog 2 n := by
    rw [roundSize_eq_pow hmax, Nat.max_eq_left (by omega)]
  have hspace : 2 ^ Nat.clog 2 n ∣ 18446744073709551616 := by
    have hle : Nat.clog 2 n ≤ 64 := (Nat.clog_le_iff_le_pow Nat.one_lt_two).mpr (by omega)
    exact Nat.pow_dvd_pow 2 hle
  have hsize := (roundSize_huge hbig hmax).2.1
  rw [kalloc_huge hbig hmax] at h
  obtain ⟨h0, -⟩ | ⟨x, hx, hnode, rfl, -⟩ := kallocHugeMemory_cases h
  · exact absurd h0 ha
  have hiff := @dvd_subPtr (roundSize n) _ (addPtr x.1 (toSize x.2)) hspace (by rw [hround])
    (by omega)
  rw [hiff]
  constructor
  · intro hdvd _ _ y _ hy
    rwa [hy.unique hnode]
  · intro hends
    exact hends hbig hmax x hx hnode

/-- In a run whose large requests are served from nodes that end aligned, the large blocks
are aligned; and the next request is exactly when its node ends aligned. -/
theorem huge_blocks_aligned (h : (allocator p).Reach CutsAligned w) :
    HugeAligned w ∧ ∀ cpu n a t, 16384 < n → n ≤ 16777216 →
      Prog.exec (kalloc p cpu n) w.st = .ok (a, t) → a ≠ 0 →
        (2 ^ Nat.clog 2 n ∣ a ↔ EndsAligned w.st n) := by
  constructor
  · refine h.invariant (I := HugeAligned) ?_ ?_
    · rintro w ⟨s, s', -, rfl⟩
      simp [HugeAligned]
    · intro w c w' _ hw hC hstep
      cases c with
      | alloc cpu n =>
        obtain ⟨-, a, t, hexec, rfl⟩ := exec_alloc_some hstep
        intro b hb hbh
        simp only at hb
        split_ifs at hb with ha
        · exact hw b hb hbh
        · obtain rfl | hb := List.mem_cons.mp hb
          · by_cases hmax : n ≤ 16777216
            · exact (kalloc_aligned_iff hbh hmax hexec ha).mpr hC
            · rw [kalloc_toolarge (by omega)] at hexec
              cases hexec
              exact absurd rfl ha
          · exact hw b hb hbh
      | free cpu q =>
        obtain ⟨-, d, t, -, -, -, rfl⟩ := exec_free_some hstep
        intro b hb hbh
        exact hw b (List.mem_of_mem_erase hb) hbh
      | write q v =>
        obtain ⟨-, rfl⟩ := exec_write_some hstep
        exact hw
  · intro cpu n a t hbig hmax hexec ha
    exact kalloc_aligned_iff hbig hmax hexec ha

/-- A large block is given back at the end of the heap, and a larger one takes its place. -/
theorem huge_blocks_aligned_run : ∃ w : World,
    w.live = [⟨0x170000, 40000⟩, ⟨0x100080, 100⟩] ∧ HugeAligned w := by
  have hrun : ((runFrom halfMega (fun w c => CutsAligned w c) blank
      [.alloc 0 20000, .alloc 0 100, .free 0 0x178000, .alloc 0 40000]).map World.live) =
        some [⟨0x170000, 40000⟩, ⟨0x100080, 100⟩] := by decide +kernel
  obtain ⟨w, hw, hlive⟩ := Option.map_eq_some_iff.mp hrun
  exact ⟨w, hlive, (huge_blocks_aligned (reach_of_runFrom hw)).1⟩

/-- The second block of 32 KiB ends at the header of the first. -/
theorem huge_blocks_misaligned : ¬ ∀ (p : Platform) (w : World), 65536 ∣ p.heapStart →
    65536 ∣ p.heapEnd → (allocator p).Reach (fun _ _ => True) w → HugeAligned w := by
  intro hclaim
  have hrun : ((runFrom halfMega (fun _ _ => True) blank [.alloc 0 32768, .alloc 0 32768]).map
      World.live) = some [⟨0x16FFF0, 32768⟩, ⟨0x178000, 32768⟩] := by decide +kernel
  obtain ⟨w, hw, hlive⟩ := Option.map_eq_some_iff.mp hrun
  have halign := hclaim halfMega w (by decide) (by decide) (reach_of_runFrom hw)
  unfold HugeAligned at halign
  rw [hlive] at halign
  exact absurd (halign ⟨0x16FFF0, 32768⟩ (by decide) (by decide)) (by decide +kernel)

end Huge
end KmallocKfree
