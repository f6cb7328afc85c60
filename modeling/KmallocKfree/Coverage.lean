import KmallocKfree.Lengths

/-!
# Coverage of the heap in runs of large requests

A freed large block gives its header back only when a free node ends at the header.
While every `kfree` finds such a node, the free list is one node from the start of the
heap on, large blocks are stacked above it, and no byte is lost. A block freed elsewhere
loses the 16 bytes of its header.
-/
namespace KmallocKfree

open Prog Region Shape

/-- Requests above 16 KiB and up to 16 MiB, frees, and owners' writes. -/
def HugeCmd : Cmd → Prop
  | .alloc _ n => 16384 < n ∧ n ≤ 16777216
  | _ => True

instance : DecidablePred HugeCmd
  | .alloc _ n => inferInstanceAs (Decidable (16384 < n ∧ n ≤ 16777216))
  | .free _ _ => inferInstanceAs (Decidable True)
  | .write _ _ => inferInstanceAs (Decidable True)

/-- A free node ends where the header of the large block at `a` starts. -/
def FollowsFree (s : PmmState) (a : ℕ) : Prop :=
  ∃ x ∈ freeNodes s, (x.1 : ℤ) + x.2 + headerBytes = a

instance (s : PmmState) (a : ℕ) : Decidable (FollowsFree s a) :=
  inferInstanceAs (Decidable (∃ x ∈ freeNodes s, _))

/-- A `kfree` finds a free node right before the header of its block. -/
def FreesBehindFree (w : World) : Cmd → Prop
  | .free _ a => FollowsFree w.st a
  | _ => True

instance (w : World) : DecidablePred (FreesBehindFree w)
  | .alloc _ _ => inferInstanceAs (Decidable True)
  | .free _ a => inferInstanceAs (Decidable (FollowsFree w.st a))
  | .write _ _ => inferInstanceAs (Decidable True)

/-- The condition of a run of large requests. -/
def HugeRun (w : World) (c : Cmd) : Prop := HugeCmd c ∧ RoomForHeader w c ∧ FreesBehindFree w c

instance (w : World) (c : Cmd) : Decidable (HugeRun w c) := inferInstanceAs (Decidable (_ ∧ _ ∧ _))

/-- Every byte of the heap belongs to a free node, or to a large block or its header. -/
def Covers (p : Platform) (l : List Region) (live : List Block) : Prop :=
  ∀ x, p.heapStart ≤ x → x < p.heapEnd →
    (∃ r ∈ l, r.Contains x) ∨ ∃ b ∈ live, b.Huge ∧ b.span.Contains x

/-- No byte is lost, and with no live block left the free list is the whole heap. -/
def NothingLost (p : Platform) (w : World) : Prop :=
  ∃ l, FreeList w.st.mem (w.st.var .head) l 0 ∧ Covers p l w.live ∧ (w.live = [] → l = [p.whole])

/-- One node from the start of the heap on, with the live blocks behind it. -/
structure Stacked (p : Platform) (sh : Shape) (live : List Block) : Prop where
  node : ∃ r, sh.free = [r] ∧ r.start = p.heapStart ∧ headerBytes ≤ r.len
  large : ∀ b ∈ live, b.Huge
  covers : Covers p sh.free live

section Stack

variable {p : Platform} {sh sh' : Shape} {live live' : List Block} {c : Cmd} {w : World}
  {b : Block} {r : Region} {l : List Region}

/-- A block cut off a node leaves no byte out. -/
theorem Covers.cut (h : Covers p [r] live) (hb : b.Huge) (haddr : b.addr = r.stop - b.size)
    (hroom : b.size + 32 ≤ r.len) : Covers p [beforeBlock r b.size] (b :: live) := by
  intro x hlo hhi
  obtain ⟨t, ht, hx⟩ | ⟨d, hd, hdh, hx⟩ := h x hlo hhi
  · obtain rfl := List.mem_singleton.mp ht
    by_cases hbelow : x < t.start + (t.len - b.size - headerBytes)
    · left
      refine ⟨_, List.mem_singleton_self _, ?_⟩
      unfold Region.Contains beforeBlock Region.stop
      exact ⟨hx.1, hbelow⟩
    · right
      refine ⟨b, List.mem_cons_self, hb, ?_⟩
      unfold Region.stop at haddr
      unfold Region.Contains Region.stop at hx
      unfold Region.Contains Block.span Region.stop headerBytes
      unfold headerBytes at hbelow
      simp only
      omega
  · exact .inr ⟨d, List.mem_cons_of_mem _ hd, hdh, hx⟩

/-- A block given back to the node before its header leaves no byte out. -/
theorem Covers.back (h : Covers p [r] live) (hadj : r.stop = b.span.start) :
    Covers p [⟨r.start, r.len + b.span.len⟩] (live.erase b) := by
  intro x hlo hhi
  have hgrown : r.Contains x ∨ b.span.Contains x →
      Region.Contains ⟨r.start, r.len + b.span.len⟩ x := by
    unfold Region.Contains Region.stop at *
    simp only
    omega
  obtain ⟨t, ht, hx⟩ | ⟨d, hd, hdh, hx⟩ := h x hlo hhi
  · obtain rfl := List.mem_singleton.mp ht
    exact .inl ⟨_, List.mem_singleton_self _, hgrown (.inl hx)⟩
  · by_cases hdb : d = b
    · subst hdb
      exact .inl ⟨_, List.mem_singleton_self _, hgrown (.inr hx)⟩
    · exact .inr ⟨d, (List.mem_erase_of_ne hdb).mpr hd, hdh, hx⟩

/-- Where the header of a freed block follows a node, the node grows by block and header. -/
theorem giveBack_single (hadj : r.stop = b.span.start) (hlen : 0 < b.span.len) :
    giveBack b.span [r] = [⟨r.start, r.len + b.span.len⟩] := by
  have hbelow : touchingBelow [r] b.span = some r := by
    unfold touchingBelow
    rw [List.find?_cons_of_pos (by simpa using hadj)]
  have habove : touchingAbove [r] b.span = none := by
    unfold touchingAbove
    rw [List.find?_cons_of_neg, List.find?_nil]
    simp only [decide_eq_true_eq]
    unfold Region.stop at *
    omega
  unfold giveBack
  rw [hbelow, habove]
  simp [grow]

/-- The node of a stacked heap ends at the header of a block that follows a free node. -/
theorem FollowsFree.adjacent (h : FollowsFree w.st b.addr) (hinv : Inv p w sh)
    (hfree : sh.free = [r]) : r.stop = b.span.start := by
  obtain ⟨x, hx, heq⟩ := h
  rw [hinv.holds.freeNodes_eq hinv.sound, hfree, List.map_singleton, List.mem_singleton] at hx
  subst hx
  simp only at heq
  unfold Block.span Region.stop
  simp only
  omega

theorem Stacked.step (h : Stacked p sh w.live) (hinv : Inv p w sh) (hC : HugeRun w c)
    (hstep : ShapeStep sh w.live c sh' live') : Stacked p sh' live' := by
  obtain ⟨hcmd, hroom, hbehind⟩ := hC
  obtain ⟨r, hfree, hstart, hlen⟩ := h.node
  have hcovers : Covers p [r] w.live := by
    rw [← hfree]
    exact h.covers
  cases hstep with
  | refuse _ => exact h
  | write => exact h
  | @alloc cpu n a sh' hstep =>
    cases hstep with
    | small hn _ =>
      have hbig : 16384 < n := hcmd.1
      omega
    | @huge l₁ l₂ t hbig hmax hsplit hfit =>
      have hroom : HeaderFits w.st n := hroom
      have hfits := hroom.room hinv.sound hinv.holds.heap hbig hmax hfit
      obtain ⟨rfl, rfl, rfl⟩ : l₁ = [] ∧ t = r ∧ l₂ = [] := by
        rw [hfree] at hsplit
        cases l₁ with
        | nil => simpa [eq_comm] using hsplit
        | cons y l₁ => simp at hsplit
      refine ⟨⟨_, rfl, hstart, ?_⟩, ?_, ?_⟩
      · unfold beforeBlock headerBytes
        simp only
        omega
      · intro d hd
        rcases List.mem_cons.mp hd with rfl | hd
        · exact hbig
        · exact h.large d hd
      · have hcut := hcovers.cut (b := ⟨t.stop - roundSize n, n⟩) hbig rfl hfits
        exact hcut
  | @free cpu b sh' hb hstep =>
    cases hstep with
    | small hbs _ _ => exact absurd (h.large b hb) hbs
    | huge hbh =>
      have hfollows : FollowsFree w.st b.addr := hbehind
      have hadj := hfollows.adjacent hinv hfree
      have hpos : 0 < b.span.len := Nat.add_pos_right _ (Nat.zero_lt_succ _)
      have hback : giveBack b.span sh.free = [⟨r.start, r.len + b.span.len⟩] := by
        rw [hfree]
        exact giveBack_single hadj hpos
      refine ⟨⟨_, hback, hstart, ?_⟩, fun d hd => h.large d (List.mem_of_mem_erase hd), ?_⟩
      · simp only
        omega
      · rw [hback]
        exact hcovers.back hadj

theorem keeps_stacked (hlen : p.heapEnd - p.heapStart < 2147483648) :
    Keeps p HugeRun (Stacked p) where
  boot hlong := by
    rw [bootShape_eq hlen]
    have hrec := (Platform.limit_eq hlen).2
    refine ⟨⟨p.whole, rfl, rfl, ?_⟩, by simp, ?_⟩
    · unfold Platform.whole headerBytes
      simp only
      omega
    · intro x hlo hhi
      have hle := p.heapStart_le
      refine .inl ⟨p.whole, List.mem_singleton_self _, hlo, ?_⟩
      unfold Platform.whole Region.stop
      simp only
      omega
  ok w sh c hinv hstacked hC := by
    obtain ⟨r, hfree, -, hrlen⟩ := hstacked.node
    cases c with
    | alloc cpu n =>
      constructor
      · intro hn
        have hbig : 16384 < n := hC.1.1
        omega
      · intro hbig hmax t hfit
        have hroom : HeaderFits w.st n := hC.2.1
        exact hroom.room hinv.sound hinv.holds.heap hbig hmax hfit
    | free cpu a =>
      rintro b hb rfl
      refine ⟨fun hbs => absurd (hstacked.large b hb) hbs, fun _ t ht => ?_⟩
      rw [hfree, List.mem_singleton] at ht
      rwa [ht]
    | write a v => exact trivial
  step _ _ _ _ _ hinv hstacked hC hstep := hstacked.step hinv hC hstep
  barren w cpu n hbarren hC hbig hmax := hbarren.headerFits hbig hmax hC.2.1

/-- A stacked heap without live blocks is one free node. -/
theorem Stacked.whole (h : Stacked p sh []) (hs : Sound p sh [])
    (hlen : p.heapEnd - p.heapStart < 2147483648) : sh.free = [p.whole] := by
  obtain ⟨r, hfree, hstart, hrlen⟩ := h.node
  have hle := p.heapStart_le
  have hlimit := (Platform.limit_eq hlen).1
  have hstop := (hs.free r (by rw [hfree]; exact List.mem_singleton_self _)).2.2
  unfold headerBytes at hrlen
  have hall : p.heapEnd ≤ r.stop := by
    by_contra hlt
    unfold Region.stop at hlt hstop
    obtain ⟨t, ht, hx⟩ | ⟨b, hb, -⟩ := h.covers r.stop
      (by unfold Region.stop; omega) (by unfold Region.stop; omega)
    · rw [hfree, List.mem_singleton] at ht
      unfold Region.Contains at hx
      rw [ht] at hx
      omega
    · cases hb
  rw [hfree]
  obtain ⟨start, len⟩ := r
  unfold Platform.whole
  unfold Region.stop at hall hstop
  simp only at *
  congr 2
  omega

/-- No heap byte is lost by large allocations: in every run of large requests on a heap
below 2 GiB, whose requests find room for the header and whose `kfree`s find a free node
right before the header. -/
theorem nothing_lost (hlen : p.heapEnd - p.heapStart < 2147483648)
    (h : (allocator p).Reach HugeRun w) : NothingLost p w := by
  obtain ⟨sh, hinv, hstacked⟩ | hbarren := (keeps_stacked hlen).reach h
  · refine ⟨sh.free, hinv.holds.heap, hstacked.covers, ?_⟩
    intro hlive
    have hsound := hinv.sound
    rw [hlive] at hsound hstacked
    exact hstacked.whole hsound hlen
  · refine ⟨[p.whole], hbarren.fresh.whole_list hlen, ?_, fun _ => rfl⟩
    intro x hlo hhi
    have hle := p.heapStart_le
    refine .inl ⟨p.whole, List.mem_singleton_self _, hlo, ?_⟩
    unfold Platform.whole Region.stop
    simp only
    omega

/-- Three blocks are freed in the reverse order: the list is the whole heap again. -/
theorem nothing_lost_run : ∃ w : World, w.live = [] ∧ NothingLost halfMega w := by
  have hrun : ((runFrom halfMega HugeRun blank
      [.alloc 0 20000, .alloc 1 40000, .alloc 0 32768, .free 1 0x15FFE0, .free 0 0x167FF0,
        .free 0 0x178000]).map World.live) = some [] := by decide +kernel
  obtain ⟨w, hw, hlive⟩ := Option.map_eq_some_iff.mp hrun
  exact ⟨w, hlive, nothing_lost (by decide) (reach_of_runFrom hw)⟩

/-- Two blocks are freed in the order they were allocated in: the upper one is freed
behind a live block, and the bytes of its header are lost. -/
theorem header_lost : ¬ ∀ (p : Platform) (w : World),
    (allocator p).Reach (fun _ c => HugeCmd c) w → NothingLost p w := by
  intro hclaim
  have hrun : ((runFrom halfMega (fun _ c => HugeCmd c) blank
      [.alloc 0 32768, .alloc 0 32768, .free 0 0x178000, .free 0 0x16FFF0]).map fun w =>
        decide (w.live = [] ∧ sizeAt w.st.mem 0x100000 ≠ 0x80000)) = some true := by decide +kernel
  obtain ⟨w, hw, hbad⟩ := Option.map_eq_some_iff.mp hrun
  obtain ⟨hlive, hsize⟩ := of_decide_eq_true hbad
  obtain ⟨l, hlist, -, hwhole⟩ := hclaim halfMega w (reach_of_runFrom hw)
  rw [hwhole hlive] at hlist
  exact hsize (hlist.size halfMega.whole (List.mem_singleton_self _))

end Stack
end KmallocKfree
