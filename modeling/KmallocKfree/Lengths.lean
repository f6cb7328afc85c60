import KmallocKfree.LargeRuns

/-!
# Lengths of free nodes

`pmm_init` stores the length of the heap in an `int`. Below 2 GiB it is stored in full,
and then the free list in memory is, in every reached state, the one that exact
arithmetic gives, as long as blocks and headers stay apart. From 2 GiB on it is negative
or truncated.
-/
namespace KmallocKfree

open Prog Region Shape

/-- The whole heap as one node, of its true length. -/
def Platform.whole (p : Platform) : Region := ⟨p.heapStart, p.heapEnd - p.heapStart⟩

/-- The machine of shapes, whose regions have their true lengths: it starts with the
whole heap as one node. -/
def shapes (p : Platform) : Machine (Shape × List Block) Cmd where
  init x := x = (⟨[p.whole], []⟩, [])
  step x c y := ShapeStep x.1 x.2 c y.1 y.2

/-- The sizes stored in the free list are the true lengths of its nodes, which lie in the
heap, as the live blocks do. -/
def Represented (p : Platform) (w : World) : Prop :=
  ∃ sh, (shapes p).Reach (fun _ _ => True) (sh, w.live) ∧
    FreeList w.st.mem (w.st.var .head) sh.free 0 ∧
    (∀ r ∈ sh.free, p.heapStart ≤ r.start ∧ r.stop ≤ p.heapEnd) ∧
    ∀ b ∈ w.live, p.heapStart ≤ b.addr ∧ b.addr + b.size ≤ p.heapEnd

section Lengths

variable {p : Platform} {sh : Shape} {live : List Block} {w : World} {b : Block}

theorem bootShape_eq (h : p.heapEnd - p.heapStart < 2147483648) :
    bootShape p = ⟨[p.whole], []⟩ := by
  have hrec := (Platform.limit_eq h).2
  unfold bootShape Platform.whole
  rw [hrec, Int.toNat_natCast]

/-- The live blocks lie in the heap. -/
theorem Shape.Sound.live_inside (hs : Sound p sh live) (hb : b ∈ live) :
    p.heapStart ≤ b.addr ∧ b.addr + b.size ≤ p.heapEnd := by
  have hlim := p.limit_le
  by_cases hbh : b.Huge
  · obtain ⟨-, hlo, hhi⟩ := hs.huge b hb hbh
    omega
  · obtain ⟨pg, hpg, hhouse⟩ := hs.small b hb hbh
    have hbounds := hhouse.bounds
    have hpaged := hs.paged pg hpg
    omega

theorem keeps_lengths (h₁ : 65536 ∣ p.heapStart) (h₂ : 65536 ∣ p.heapEnd)
    (hlen : p.heapEnd - p.heapStart < 2147483648) :
    Keeps p (AlignedRun p) fun sh live =>
      Mult16 sh ∧ (shapes p).Reach (fun _ _ => True) (sh, live) where
  boot hlong := by
    refine ⟨(keeps_mult16 h₁ h₂).boot hlong, .init ?_⟩
    rw [bootShape_eq hlen]
    rfl
  ok w sh c hinv hF hC := (keeps_mult16 h₁ h₂).ok w sh c hinv hF.1 hC
  step w sh c sh' live' hinv hF hC hstep :=
    ⟨(keeps_mult16 h₁ h₂).step w sh c sh' live' hinv hF.1 hC hstep, hF.2.step c trivial hstep⟩
  barren := (keeps_mult16 h₁ h₂).barren

theorem Fresh.whole_list {s : PmmState} (h : Fresh p s)
    (hlen : p.heapEnd - p.heapStart < 2147483648) :
    FreeList s.mem (s.var .head) [p.whole] 0 := by
  obtain ⟨-, hrec⟩ := Platform.limit_eq hlen
  have hlist := h.freeList (by rw [hrec]; exact Int.natCast_nonneg _)
  rwa [bootShape_eq hlen] at hlist

theorem represented_of_shaped (hlen : p.heapEnd - p.heapStart < 2147483648)
    (h : Shaped p (fun sh live => Mult16 sh ∧ (shapes p).Reach (fun _ _ => True) (sh, live)) w) :
    Represented p w := by
  obtain ⟨sh, hinv, -, hreach⟩ | hbarren := h
  · refine ⟨sh, hreach, hinv.holds.heap, fun r hr => ?_, fun b hb => hinv.sound.live_inside hb⟩
    obtain ⟨-, hlo, hhi⟩ := hinv.sound.free r hr
    exact ⟨hlo, le_trans hhi p.limit_le⟩
  · refine ⟨⟨[p.whole], []⟩, .init ?_, hbarren.fresh.whole_list hlen, ?_, ?_⟩
    · exact congrArg _ hbarren.live
    · intro r hr
      obtain rfl := List.mem_singleton.mp hr
      have hle := p.heapStart_le
      unfold Platform.whole Region.stop
      simp only
      omega
    · simp [hbarren.live]

theorem exists_booted (p : Platform) : ∃ w, Booted p w := by
  obtain ⟨a, s, hexec, -⟩ := wp_exec (wp_pmmInit p blank)
  exact ⟨⟨s, []⟩, blank, s, hexec, rfl⟩

/-- The initial free list describes the whole heap exactly when the heap is shorter than
2 GiB. Then every state of a run stores the true lengths, if each `kfree` of the run spares
page headers and each large request finds room for its header. -/
theorem heap_represented_iff (h₁ : 65536 ∣ p.heapStart) (h₂ : 65536 ∣ p.heapEnd) :
    (p.heapEnd - p.heapStart < 2147483648 ↔
      ∀ w, Booted p w → FreeList w.st.mem (w.st.var .head) [p.whole] 0) ∧
    (p.heapEnd - p.heapStart < 2147483648 →
      ∀ w, (allocator p).Reach (AlignedRun p) w → Represented p w) := by
  refine ⟨⟨fun hlen w hw => hw.fresh.1.whole_list hlen, fun hboot => ?_⟩, fun hlen w hw =>
    represented_of_shaped hlen ((keeps_lengths h₁ h₂ hlen).reach hw)⟩
  obtain ⟨w, hw⟩ := exists_booted p
  have hsize := (hboot w hw).size p.whole (List.mem_singleton_self _)
  have hbounds := (sizeAt_bounds w.st.mem p.whole.start).2
  rw [hsize] at hbounds
  unfold Platform.whole at hbounds
  simp only at hbounds
  omega

/-- On a heap of 512 KiB, after a page and two large blocks, one of them given back. -/
theorem heap_represented_run : ∃ w : World, w.live = [⟨0x167FF0, 40000⟩, ⟨0x100080, 100⟩] ∧
    Represented halfMega w := by
  have hrun : ((runFrom halfMega (AlignedRun halfMega) blank
      [.alloc 0 20000, .alloc 1 100, .alloc 1 40000, .free 0 0x178000]).map World.live) =
        some [⟨0x167FF0, 40000⟩, ⟨0x100080, 100⟩] := by decide +kernel
  obtain ⟨w, hw, hlive⟩ := Option.map_eq_some_iff.mp hrun
  have hruns := (heap_represented_iff (p := halfMega) (by decide) (by decide)).2
  exact ⟨w, hlive, hruns (by decide) w (reach_of_runFrom hw)⟩

/-- A heap of 2 GiB from 1 MiB on. -/
def twoGib : Platform where
  heapStart := 0x100000
  heapEnd := 0x80100000
  cpuCount := 1
  heapStart_pos := halfMega.heapStart_pos
  heapStart_le := by decide
  heapEnd_lt := by decide
  cpuCount_pos := Nat.one_pos
  cpuCount_le := by decide

/-- The length of a heap of 2 GiB is stored as a negative number. -/
theorem heap_misrepresented : ¬ ∀ p : Platform, 65536 ∣ p.heapStart → 65536 ∣ p.heapEnd →
    p.heapEnd - p.heapStart < 4294967296 →
      (∀ w, Booted p w → FreeList w.st.mem (w.st.var .head) [p.whole] 0) ∧
        ∀ w, (allocator p).Reach (fun _ _ => True) w → Represented p w := by
  intro hclaim
  obtain ⟨w, hw⟩ := exists_booted twoGib
  have hlist := (hclaim twoGib (by decide) (by decide) (by decide)).1 w hw
  have hsize := hlist.size twoGib.whole (List.mem_singleton_self _)
  have hstored : sizeAt w.st.mem twoGib.whole.start = -2147483648 := hw.fresh.1.size
  rw [hstored] at hsize
  exact absurd hsize (by decide)

end Lengths
end KmallocKfree
