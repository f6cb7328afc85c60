import KmallocKfree.SmallRuns

/-!
# Runs of small and large requests

What keeps a mixed run sound: `kfree` spares page headers, a large request finds room
for its header, and what is left behind a page holds a node record. On a heap whose
ends are multiples of 64 KiB every node stays a multiple of 16 bytes long, so the last
condition holds by itself.
-/
namespace KmallocKfree

open Prog Region Shape

/-- A large request finds room for its header. -/
def RoomForHeader (w : World) : Cmd → Prop
  | .alloc _ n => HeaderFits w.st n
  | _ => True

/-- A small request leaves nothing behind its page, or a node record. -/
def RoomBehindPage (w : World) : Cmd → Prop
  | .alloc _ n => n ≤ 16384 → RemainderFits w.st
  | _ => True

instance (w : World) : DecidablePred (RoomForHeader w)
  | .alloc _ n => inferInstanceAs (Decidable (HeaderFits w.st n))
  | .free _ _ => inferInstanceAs (Decidable True)
  | .write _ _ => inferInstanceAs (Decidable True)

instance (w : World) : DecidablePred (RoomBehindPage w)
  | .alloc _ n => inferInstanceAs (Decidable (n ≤ 16384 → RemainderFits w.st))
  | .free _ _ => inferInstanceAs (Decidable True)
  | .write _ _ => inferInstanceAs (Decidable True)

/-- Every node holds its record. -/
def Long (sh : Shape) : Prop := ∀ r ∈ sh.free, headerBytes ≤ r.len

/-- Every node is a multiple of 16 bytes long. -/
def Mult16 (sh : Shape) : Prop := ∀ r ∈ sh.free, 16 ∣ r.len

section Steps

variable {p : Platform} {sh sh' : Shape} {live live' : List Block} {c : Cmd} {w : World}
  {b : Block} {r q : Region} {P : Region → Prop}

/-- What a step does to a property of the nodes. -/
theorem HeapStep.forall_free (hs : Sound p sh live) (h : HeapStep sh live c sh')
    (hP : ∀ r ∈ sh.free, P r)
    (hpage : ∀ cpu n r, c = .alloc cpu n → n ≤ 16384 → r ∈ sh.free → pageBytes ≤ r.len →
      (∃ l₁ l₂, sh.free = l₁ ++ r :: l₂ ∧ ∀ x ∈ l₁, x.len < pageBytes) → ∀ q ∈ afterPage r, P q)
    (hcut : ∀ cpu n r, c = .alloc cpu n → 16384 < n → n ≤ 16777216 →
      HighestFit sh.free (roundSize n) r → P (beforeBlock r (roundSize n)))
    (hback : ∀ cpu b, c = .free cpu b.addr → b ∈ live → b.Huge → P (givenBack b.span sh.free)) :
    ∀ r ∈ sh'.free, P r := by
  intro x hx
  cases h with
  | same hfree _ =>
    rw [hfree] at hx
    exact hP x hx
  | @page cpu n l₁ l₂ r _ hn hfree hsmall hfit hfree' _ =>
    have hr : r ∈ sh.free := by rw [hfree]; simp
    rw [hfree', List.mem_append, List.mem_append] at hx
    rcases hx with (hx | hx) | hx
    · exact hP x (by rw [hfree]; simp [hx])
    · exact hpage cpu n r rfl hn hr hfit ⟨l₁, l₂, hfree, hsmall⟩ x hx
    · exact hP x (by rw [hfree]; simp [hx])
  | @cut cpu n l₁ l₂ r _ hbig hmax hfree hfit hfree' _ =>
    rw [hfree', List.mem_append, List.mem_cons] at hx
    rcases hx with hx | rfl | hx
    · exact hP x (by rw [hfree]; simp [hx])
    · exact hcut cpu n r rfl hbig hmax hfit
    · exact hP x (by rw [hfree]; simp [hx])
  | @back cpu b _ hb hbh hfree' _ =>
    have hsound : Sound p sh (b :: live.erase b) := hs.perm (List.perm_cons_erase hb)
    rw [hfree'] at hx
    rcases List.mem_cons.mp ((giveBack_perm (hsound.around hbh)).mem_iff.mp hx) with rfl | hx
    · exact hback cpu b rfl hb hbh
    · exact hP x ((others_sublist _ _).subset hx)

/-- What is left behind a page is clear of everything else when it holds its record. -/
theorem Shape.Sound.clear_afterPage (hs : Sound p sh live) (hfree : sh.free = l₁ ++ r :: l₂)
    (hroom : r.len = pageBytes ∨ pageBytes + headerBytes ≤ r.len) :
    ∀ q ∈ afterPage r, ∀ u ∈ sh.beside live (l₁ ++ l₂), q.node.Disj u := by
  intro q hq u hu
  obtain ⟨hstart, hlen, hne⟩ := mem_afterPage hq
  have hlong := hroom.resolve_left hne
  have hspans := (disjoint_perm (spans_perm hfree)).mp hs.spans
  have hin : q.node.Within r.node := by
    unfold Within Region.node Region.stop
    simp only
    omega
  exact ((List.pairwise_cons.mp hspans).1 u hu).mono hin

theorem roomAfterPage_of (hs : Sound p sh live)
    (h : ∀ l₁ r l₂, sh.free = l₁ ++ r :: l₂ → (∀ x ∈ l₁, x.len < pageBytes) → pageBytes ≤ r.len →
      r.len = pageBytes ∨ pageBytes + headerBytes ≤ r.len) : RoomAfterPage sh live :=
  fun l₁ r l₂ hfree hsmall hfit => hs.clear_afterPage hfree (h l₁ r l₂ hfree hsmall hfit)

/-- The large blocks are powers of two times 32 KiB. -/
theorem Shape.Sound.huge_size (hs : Sound p sh live) (hb : b ∈ live) (hbh : b.Huge) :
    32768 ≤ b.size ∧ 32768 ∣ b.size := by
  have h := roundSize_huge hbh (hs.huge b hb hbh).1
  exact ⟨h.1, h.2.2⟩

theorem Long.back (h : Long sh) (hs : Sound p sh live) (hb : b ∈ live) (hbh : b.Huge) :
    headerBytes ≤ (givenBack b.span sh.free).len := by
  apply givenBack_long h
  have := (hs.huge_size hb hbh).1
  unfold Block.span headerBytes
  simp only
  omega

theorem Long.step (h : Long sh) (hinv : Inv p w sh) (hroom : RoomForHeader w c)
    (hbehind : RoomBehindPage w c) (hstep : HeapStep sh w.live c sh') : Long sh' := by
  refine hstep.forall_free hinv.sound h ?_ ?_ fun cpu b _ hb hbh => h.back hinv.sound hb hbh
  · rintro cpu n r rfl hn hr hfit ⟨l₁, l₂, hfree, hsmall⟩ q hq
    obtain ⟨-, hlen, hne⟩ := mem_afterPage hq
    have := (hbehind hn).first hinv.sound hinv.holds.heap hfree hsmall hfit
    omega
  · rintro cpu n r rfl hbig hmax hfit
    have hfits : HeaderFits w.st n := hroom
    have := hfits.room hinv.sound hinv.holds.heap hbig hmax hfit
    unfold beforeBlock headerBytes
    simp only
    omega

theorem Mult16.long (h : Mult16 sh) (hs : Sound p sh live) : Long sh := by
  intro r hr
  have hdvd := h r hr
  have hpos := (hs.free r hr).1
  unfold headerBytes
  omega

theorem Mult16.behind (h : Mult16 sh) (hr : r ∈ sh.free) (hfit : pageBytes ≤ r.len) :
    r.len = pageBytes ∨ pageBytes + headerBytes ≤ r.len := by
  have hdvd := h r hr
  unfold pageBytes headerBytes at *
  omega

theorem Mult16.room (h : Mult16 sh) (hs : Sound p sh live) : RoomAfterPage sh live := by
  apply roomAfterPage_of hs
  intro l₁ r l₂ hfree _ hfit
  exact h.behind (by rw [hfree]; simp) hfit

theorem Mult16.back (h : Mult16 sh) (hs : Sound p sh live) (hb : b ∈ live) (hbh : b.Huge) :
    16 ∣ (givenBack b.span sh.free).len := by
  have hdvd := (hs.huge_size hb hbh).2
  have hspan : b.span.len = b.size + 16 := rfl
  unfold givenBack headerBytes
  cases hbelow : touchingBelow sh.free b.span with
  | some t =>
    have ht := h t (touchingBelow_some hbelow).1
    cases habove : touchingAbove sh.free b.span with
    | some a =>
      have ha := h a (touchingAbove_some habove).1
      simp only
      omega
    | none =>
      simp only
      omega
  | none =>
    cases habove : touchingAbove sh.free b.span with
    | some a =>
      have ha := h a (touchingAbove_some habove).1
      simp only
      omega
    | none =>
      simp only
      omega

theorem Mult16.step (h : Mult16 sh) (hinv : Inv p w sh) (hroom : RoomForHeader w c)
    (hstep : HeapStep sh w.live c sh') : Mult16 sh' := by
  refine hstep.forall_free hinv.sound h ?_ ?_ fun cpu b _ hb hbh => h.back hinv.sound hb hbh
  · rintro cpu n r rfl hn hr hfit - q hq
    obtain ⟨-, hlen, -⟩ := mem_afterPage hq
    have hdvd := h r hr
    unfold pageBytes at *
    omega
  · rintro cpu n r rfl hbig hmax hfit
    have hfits : HeaderFits w.st n := hroom
    have hle := hfits.room hinv.sound hinv.holds.heap hbig hmax hfit
    have hdvd := h r hfit.1
    have hsize := (roundSize_huge hbig hmax).2.2
    unfold beforeBlock headerBytes
    simp only
    omega

end Steps

section Conditions

variable {p : Platform} {sh : Shape} {live : List Block} {w : World} {c : Cmd}

/-- What the steps of the allocator need of the state, on nodes that hold their records. -/
theorem stepOK_of (hinv : Inv p w sh) (hlong : Long sh) (hspare : SparesHeaders p w c)
    (hroom : RoomForHeader w c)
    (hbehind : ∀ cpu n, c = .alloc cpu n → n ≤ 16384 → RoomAfterPage sh w.live) :
    StepOK p w sh c := by
  cases c with
  | alloc cpu n =>
    constructor
    · exact hbehind cpu n rfl
    · intro hbig hmax r hfit
      have hfits : HeaderFits w.st n := hroom
      exact hfits.room hinv.sound hinv.holds.heap hbig hmax hfit
  | free cpu a =>
    rintro b hb rfl
    exact ⟨fun _ => hspare, fun _ => hlong⟩
  | write a v => exact trivial

/-- The condition of a mixed run on any heap. -/
def MixedRun (p : Platform) (w : World) (c : Cmd) : Prop :=
  SparesHeaders p w c ∧ RoomForHeader w c ∧ RoomBehindPage w c

/-- The condition of a mixed run on a heap whose ends are multiples of 64 KiB. -/
def AlignedRun (p : Platform) (w : World) (c : Cmd) : Prop :=
  SparesHeaders p w c ∧ RoomForHeader w c

instance (p : Platform) (w : World) (c : Cmd) : Decidable (MixedRun p w c) :=
  inferInstanceAs (Decidable (_ ∧ _ ∧ _))

instance (p : Platform) (w : World) (c : Cmd) : Decidable (AlignedRun p w c) :=
  inferInstanceAs (Decidable (_ ∧ _))

theorem keeps_long (p : Platform) : Keeps p (MixedRun p) fun sh _ => Long sh where
  boot hlen r hr := by
    obtain rfl := List.mem_singleton.mp hr
    unfold headerBytes
    simp only
    omega
  ok w sh c hinv hlong hC := by
    obtain ⟨hspare, hroom, hbehind⟩ := hC
    refine stepOK_of hinv hlong hspare hroom ?_
    rintro cpu n rfl hn
    apply roomAfterPage_of hinv.sound
    intro l₁ r l₂ hfree hsmall hfit
    exact (hbehind hn).first hinv.sound hinv.holds.heap hfree hsmall hfit
  step _ _ _ _ _ hinv hlong hC hstep := hlong.step hinv hC.2.1 hC.2.2 hstep.heap
  barren w cpu n hbarren hC hbig hmax := hbarren.headerFits hbig hmax hC.2.1

/-- A heap whose ends are multiples of 64 KiB has a recorded length that is one. -/
theorem Platform.recorded_dvd (h₁ : 65536 ∣ p.heapStart) (h₂ : 65536 ∣ p.heapEnd) :
    (65536 : ℤ) ∣ p.recorded := by
  have hle := p.heapStart_le
  unfold Platform.recorded toInt toWord
  split_ifs <;> omega

theorem keeps_mult16 (h₁ : 65536 ∣ p.heapStart) (h₂ : 65536 ∣ p.heapEnd) :
    Keeps p (AlignedRun p) fun sh _ => Mult16 sh where
  boot hlen r hr := by
    obtain rfl := List.mem_singleton.mp hr
    have := p.recorded_dvd h₁ h₂
    simp only
    omega
  ok w sh c hinv hdvd hC :=
    stepOK_of hinv (hdvd.long hinv.sound) hC.1 hC.2 fun _ _ _ _ => hdvd.room hinv.sound
  step _ _ _ _ _ hinv hdvd hC hstep := hdvd.step hinv hC.2 hstep.heap
  barren w cpu n hbarren hC hbig hmax := hbarren.headerFits hbig hmax hC.2

end Conditions
end KmallocKfree
