import KmallocKfree.MixedRuns

/-!
# Large blocks in mixed runs

On a heap whose ends are multiples of 64 KiB, the large blocks with their headers, the
pages and the free nodes stay apart as long as every large request finds room for its
header. `kallocHugeMemory` asks for the block alone: on a node that holds the block but
not the header, it puts the header in front of the node.
-/
namespace KmallocKfree

open Prog Region Shape

/-- The large blocks, with their headers, lie in the heap and apart from the other live
blocks and headers, the pages and the free nodes. -/
structure LargeApart (p : Platform) (w : World) : Prop where
  inside : ∀ b ∈ w.live, b.Huge →
    p.heapStart + headerBytes ≤ b.addr ∧ b.addr + b.size ≤ p.heapEnd
  live : ∀ b ∈ w.live, b.Huge → ∀ c ∈ w.live.erase b,
    b.span.Disj c.region ∧ (c.Huge → b.span.Disj c.span)
  pages : ∀ b ∈ w.live, b.Huge → ∀ q, IsPageHeader p w.st q → b.span.Disj ⟨q, pageBytes⟩
  nodes : ∃ l, FreeList w.st.mem (w.st.var .head) l 0 ∧ ∀ r ∈ l,
    p.heapStart ≤ r.start ∧ r.stop ≤ p.heapEnd ∧ ∀ b ∈ w.live, b.Huge → b.span.Disj r

/-- A page once handed out stays in the list of its CPU after the next command. -/
def PagesStay (p : Platform) (C : World → Cmd → Prop) (w : World) : Prop :=
  ∀ c w', C w c → w.exec p c = some w' → ∀ q, IsPageHeader p w.st q → IsPageHeader p w'.st q

section Pages

variable {p : Platform} {sh sh' : Shape} {live : List Block} {w w' : World} {c : Cmd} {q : ℕ}
  {C : World → Cmd → Prop} {F : Shape → List Block → Prop}

theorem Inv.isPageHeader_iff (h : Inv p w sh) :
    IsPageHeader p w.st q ↔ q ∈ sh.pages.map Page.base := by
  constructor
  · rintro ⟨cpu, hcpu, hq⟩
    rw [h.holds.pageHeaders_eq h.sound hcpu] at hq
    obtain ⟨pg, hpg, rfl⟩ := List.mem_map.mp hq
    exact List.mem_map_of_mem (mem_pagesOf.mp hpg).1
  · intro hq
    obtain ⟨pg, hpg, rfl⟩ := List.mem_map.mp hq
    exact ⟨pg.owner, (h.sound.pages pg hpg).2, h.holds.mem_pageHeaders h.sound hpg⟩

theorem Fresh.pageHeaders_nil {s : PmmState} {cpu : ℕ} (h : Fresh p s) (hcpu : cpu < p.cpuCount) :
    pageHeaders s cpu = [] := by
  have hpath : Path (nextAt s.mem) (s.var (.pagehead cpu)) [] 0 := h.pages cpu hcpu
  refine hpath.follow_eq (List.not_mem_nil) ?_
  have := one_lt_loopBound
  simp only [List.length_nil]
  omega

theorem Barren.no_pages (h : Barren p w) : ¬ IsPageHeader p w.st q := by
  rintro ⟨cpu, hcpu, hq⟩
  rw [h.fresh.pageHeaders_nil hcpu] at hq
  cases hq

/-- Pages are never given back. -/
theorem HeapStep.bases_subset (h : HeapStep sh live c sh') (hq : q ∈ sh.pages.map Page.base) :
    q ∈ sh'.pages.map Page.base := by
  cases h with
  | same _ hbases => rwa [hbases]
  | page _ _ _ _ _ hbases =>
    rw [hbases]
    exact List.mem_cons_of_mem _ hq
  | cut _ _ _ _ _ hbases => rwa [hbases]
  | back _ _ _ hbases => rwa [hbases]

theorem Keeps.pagesStay (hK : Keeps p C F) (h : Shaped p F w) : PagesStay p C w := by
  intro c w' hC hstep q hq
  obtain ⟨sh, sh', ⟨hinv, -⟩, hshape, ⟨hinv', -⟩, -⟩ | ⟨-, rfl⟩ := hK.next h hC hstep
  · rw [hinv'.isPageHeader_iff]
    exact hshape.heap.bases_subset (hinv.isPageHeader_iff.mp hq)
  · exact hq

end Pages

section Apart

variable {p : Platform} {sh : Shape} {live : List Block} {w : World} {b c : Block}

/-- Two live blocks, one of them large. -/
theorem Shape.Sound.large_apart (h : Sound p sh live) (hb : b ∈ live) (hbh : b.Huge)
    (hc : c ∈ live.erase b) : b.span.Disj c.region ∧ (c.Huge → b.span.Disj c.span) := by
  have hsound : Sound p sh (b :: live.erase b) := h.perm (List.perm_cons_erase hb)
  have hrest : Sound p sh (live.erase b) := h.sublist List.erase_sublist
  constructor
  · apply hrest.disj_all _ _ hc
    · intro pg hpg
      exact (h.page_huge hpg hb hbh).symm
    · intro d hd hdh
      exact hsound.huge_huge hbh hd hdh
  · intro hch
    exact hsound.huge_huge hbh hc hch

theorem Inv.largeApart (h : Inv p w sh) : LargeApart p w where
  inside b hb hbh := by
    obtain ⟨-, hlo, hhi⟩ := h.sound.huge b hb hbh
    exact ⟨hlo, le_trans hhi p.limit_le⟩
  live b hb hbh c hc := h.sound.large_apart hb hbh hc
  pages b hb hbh q hq := by
    obtain ⟨pg, hpg, rfl⟩ := List.mem_map.mp (h.isPageHeader_iff.mp hq)
    exact (h.sound.page_huge hpg hb hbh).symm
  nodes := by
    refine ⟨sh.free, h.holds.heap, fun r hr => ?_⟩
    obtain ⟨-, hlo, hhi⟩ := h.sound.free r hr
    refine ⟨hlo, le_trans hhi p.limit_le, fun b hb hbh => ?_⟩
    exact ((h.sound.free_huge hr hb hbh).mono (Region.within_node r)).symm

theorem Barren.largeApart (h : Barren p w) (hlen : 0 ≤ p.recorded) : LargeApart p w where
  inside := by simp [h.live]
  live := by simp [h.live]
  pages := by simp [h.live]
  nodes := by
    refine ⟨(bootShape p).free, h.fresh.freeList hlen, fun r hr => ?_⟩
    obtain rfl := List.mem_singleton.mp hr
    exact ⟨le_rfl, p.limit_le, by simp [h.live]⟩

/-- Large blocks never overlap anything: in every run on an aligned heap, of a recorded
length that is not negative, whose large requests find room for their headers and whose
`kfree`s take no page header for a free node. -/
theorem large_blocks_apart (h₁ : 65536 ∣ p.heapStart) (h₂ : 65536 ∣ p.heapEnd)
    (hlen : 0 ≤ p.recorded) (h : (allocator p).Reach (AlignedRun p) w) :
    LargeApart p w ∧ PagesStay p (AlignedRun p) w := by
  have hshaped := (keeps_mult16 h₁ h₂).reach h
  refine ⟨?_, (keeps_mult16 h₁ h₂).pagesStay hshaped⟩
  obtain ⟨sh, hinv, -⟩ | hbarren := hshaped
  · exact hinv.largeApart
  · exact hbarren.largeApart hlen

/-- Such a run with a page between large blocks, one of them given back. -/
theorem large_blocks_apart_run : ∃ w : World,
    w.live = [⟨0x167FF0, 40000⟩, ⟨0x100080, 100⟩] ∧
      LargeApart halfMega w ∧ PagesStay halfMega (AlignedRun halfMega) w := by
  have hrun : ((runFrom halfMega (AlignedRun halfMega) blank
      [.alloc 0 20000, .alloc 1 100, .alloc 1 40000, .free 0 0x178000]).map World.live) =
        some [⟨0x167FF0, 40000⟩, ⟨0x100080, 100⟩] := by decide +kernel
  obtain ⟨w, hw, hlive⟩ := Option.map_eq_some_iff.mp hrun
  exact ⟨w, hlive, large_blocks_apart (by decide) (by decide) (by decide) (reach_of_runFrom hw)⟩

/-- Of two blocks of 32 KiB at the end of the heap, the upper one is freed and its place
requested again: the node now starts at the old header, and holds the block alone, so the
new header lies in the last bytes of the lower block. -/
theorem large_blocks_overlap : ¬ ∀ (p : Platform) (w : World), 65536 ∣ p.heapStart →
    65536 ∣ p.heapEnd → (allocator p).Reach (fun _ _ => True) w → LargeApart p w := by
  intro hclaim
  have hrun : ((runFrom halfMega (fun _ _ => True) blank
      [.alloc 0 32768, .alloc 0 32768, .free 0 0x178000, .alloc 0 32768]).map World.live) =
        some [⟨0x177FF0, 32768⟩, ⟨0x16FFF0, 32768⟩] := by decide +kernel
  obtain ⟨w, hw, hlive⟩ := Option.map_eq_some_iff.mp hrun
  have hapart := (hclaim halfMega w (by decide) (by decide) (reach_of_runFrom hw)).live
  rw [hlive] at hapart
  have hbad := (hapart ⟨0x177FF0, 32768⟩ (by decide) (by decide) ⟨0x16FFF0, 32768⟩ (by decide)).1
  exact absurd hbad (by decide +kernel)

end Apart
end KmallocKfree
