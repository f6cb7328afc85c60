import KmallocKfree.Boot

/-!
# Runs and the shape

A condition on commands keeps a property of shapes when it excludes what the source
gets wrong and every step that meets it preserves the property. Every world of a run
of such commands then holds a sound shape with the property, or is a heap too short
to serve any request. The conditions are read off the memory: they speak of the free
list that the links from `head` form.
-/
namespace KmallocKfree

open Prog Region Shape

/-- A heap that serves no request, as `pmm_init` left it. -/
structure Barren (p : Platform) (w : World) : Prop where
  fresh : Fresh p w.st
  live : w.live = []
  short : p.recorded < 32768

/-- The world holds a sound shape with property `F`, or is barren. -/
def Shaped (p : Platform) (F : Shape → List Block → Prop) (w : World) : Prop :=
  (∃ sh, Inv p w sh ∧ F sh w.live) ∨ Barren p w

/-- Commands that meet `C` avoid what the source gets wrong and keep `F`. -/
structure Keeps (p : Platform) (C : World → Cmd → Prop) (F : Shape → List Block → Prop) : Prop where
  boot : 32768 ≤ p.recorded → F (bootShape p) []
  ok : ∀ w sh c, Inv p w sh → F sh w.live → C w c → StepOK p w sh c
  step : ∀ w sh c sh' live', Inv p w sh → F sh w.live → C w c →
    ShapeStep sh w.live c sh' live' → F sh' live'
  barren : ∀ w cpu n, Barren p w → C w (.alloc cpu n) → 16384 < n → n ≤ 16777216 → 0 ≤ p.recorded

section Runs

variable {p : Platform} {C : World → Cmd → Prop} {F : Shape → List Block → Prop} {w w' : World}
  {c : Cmd}

theorem Barren.exec_eq (h : Barren p w) (hstep : w.exec p c = some w')
    (hc : ∀ cpu n, c = .alloc cpu n → 16384 < n → n ≤ 16777216 → 0 ≤ p.recorded) : w' = w :=
  h.fresh.exec_eq h.live h.short hstep hc

theorem Keeps.booted (hK : Keeps p C F) (h : Booted p w) : Shaped p F w := by
  obtain ⟨hfresh, hlive⟩ := h.fresh
  by_cases hshort : p.recorded < 32768
  · exact .inr ⟨hfresh, hlive, hshort⟩
  · obtain ⟨s, live⟩ := w
    obtain rfl : live = [] := hlive
    exact .inl ⟨_, hfresh.inv (by omega), hK.boot (by omega)⟩

/-- What one command does. -/
theorem Keeps.next (hK : Keeps p C F) (h : Shaped p F w) (hC : C w c)
    (hstep : w.exec p c = some w') :
    (∃ sh sh', (Inv p w sh ∧ F sh w.live) ∧ ShapeStep sh w.live c sh' w'.live ∧
      (Inv p w' sh' ∧ F sh' w'.live) ∧ ((∀ a v, c ≠ .write a v) → Untouched w w')) ∨
    (Barren p w ∧ w' = w) := by
  obtain ⟨sh, hinv, hF⟩ | hbarren := h
  · left
    obtain ⟨sh', hshape, hinv', hsame⟩ := exec_refines hinv (hK.ok w sh c hinv hF hC) hstep
    exact ⟨sh, sh', ⟨hinv, hF⟩, hshape, ⟨hinv', hK.step w sh c sh' _ hinv hF hC hshape⟩, hsame⟩
  · right
    refine ⟨hbarren, hbarren.exec_eq hstep ?_⟩
    rintro cpu n rfl hbig hmax
    exact hK.barren w cpu n hbarren hC hbig hmax

theorem Keeps.step_shaped (hK : Keeps p C F) (h : Shaped p F w) (hC : C w c)
    (hstep : w.exec p c = some w') : Shaped p F w' := by
  obtain ⟨-, sh', -, -, hnext, -⟩ | ⟨hbarren, rfl⟩ := hK.next h hC hstep
  · exact .inl ⟨sh', hnext⟩
  · exact .inr hbarren

/-- Every world of a run whose commands meet `C` is shaped. -/
theorem Keeps.reach (hK : Keeps p C F) (h : (allocator p).Reach C w) : Shaped p F w :=
  h.invariant (fun _ => hK.booted) fun _ _ _ _ hw hC hstep => hK.step_shaped hw hC hstep

/-- No call changes a byte of the blocks that stay live. -/
theorem Keeps.untouched (hK : Keeps p C F) (h : Shaped p F w) (hC : C w c)
    (hstep : w.exec p c = some w') (hne : ∀ a v, c ≠ .write a v) : Untouched w w' := by
  obtain ⟨-, -, -, -, -, hsame⟩ | ⟨hbarren, rfl⟩ := hK.next h hC hstep
  · exact hsame hne
  · intro b hb
    rw [hbarren.live] at hb
    cases hb

end Runs

section FreeNodes

/-- The free list that the links from `head` form: addresses and stored sizes. -/
def freeNodes (s : PmmState) : List (ℕ × ℤ) :=
  (follow (nextAt s.mem) loopBound (s.var .head)).map fun x => (x, sizeAt s.mem x)

/-- The node that `kallocHugeMemory` cuts a block of `size` bytes from. -/
def HighestNode (s : PmmState) (size : ℕ) (x : ℕ × ℤ) : Prop :=
  x ∈ freeNodes s ∧ size ≤ toSize x.2 ∧ ∀ y ∈ freeNodes s, size ≤ toSize y.2 → y.1 ≤ x.1

/-- That node has room for the block, its header and a node record. The source only
asks for the block. -/
def HeaderFits (s : PmmState) (n : ℕ) : Prop :=
  16384 < n → n ≤ 16777216 → ∀ x ∈ freeNodes s, HighestNode s (roundSize n) x →
    (roundSize n + 32 : ℕ) ≤ x.2

/-- What is left of the first node that holds a page is nothing, or holds a node record. -/
def RemainderFits (s : PmmState) : Prop :=
  ∀ x ∈ (freeNodes s).find? fun x => decide ((pageBytes : ℤ) ≤ x.2),
    x.2 = pageBytes ∨ (pageBytes + headerBytes : ℕ) ≤ x.2

instance (s : PmmState) (size : ℕ) (x : ℕ × ℤ) : Decidable (HighestNode s size x) :=
  inferInstanceAs (Decidable (_ ∧ _ ∧ _))

instance (s : PmmState) (n : ℕ) : Decidable (HeaderFits s n) :=
  inferInstanceAs (Decidable (_ → _ → _))

instance (s : PmmState) : Decidable (RemainderFits s) :=
  inferInstanceAs (Decidable (∀ x ∈ (freeNodes s).find? _, _))

variable {p : Platform} {sh : Shape} {live : List Block} {s : PmmState} {n size : ℕ} {r : Region}

/-- The free nodes in memory are those of the shape. -/
theorem Shape.Sound.freeNodes_eq (hs : Sound p sh live)
    (h : FreeList s.mem (s.var .head) sh.free 0) :
    freeNodes s = sh.free.map fun r => (r.start, (r.len : ℤ)) := by
  have hpath : follow (nextAt s.mem) loopBound (s.var .head) = sh.free.map Region.start := by
    refine h.path.follow_eq ?_ (by rw [List.length_map]; exact hs.free_count)
    intro h0
    obtain ⟨r, hr, hr0⟩ := List.mem_map.mp h0
    have := hs.free_pos hr
    omega
  unfold freeNodes
  rw [hpath, List.map_map]
  refine List.map_congr_left fun r hr => ?_
  simp only [Function.comp_apply, h.size r hr]

theorem Holds.freeNodes_eq (hs : Sound p sh live) (h : Holds p sh live s.mem s.var) :
    freeNodes s = sh.free.map fun r => (r.start, (r.len : ℤ)) := hs.freeNodes_eq h.heap

theorem Shape.Sound.len_lt (hs : Sound p sh live) (hr : r ∈ sh.free) : r.len < 2147483648 := by
  obtain ⟨-, hlo, hhi⟩ := hs.free r hr
  have hlim := p.limit_lt
  unfold Region.stop at hhi
  omega

theorem Shape.Sound.highestNode (hs : Sound p sh live)
    (h : FreeList s.mem (s.var .head) sh.free 0)
    (hfit : HighestFit sh.free size r) : HighestNode s size (r.start, (r.len : ℤ)) := by
  obtain ⟨hr, hlen, hbest⟩ := hfit
  have hmax := hs.len_lt hr
  unfold HighestNode
  rw [hs.freeNodes_eq h]
  refine ⟨List.mem_map_of_mem hr, ?_, ?_⟩
  · rw [toSize_natCast (by omega)]
    exact hlen
  · intro y hy hfit
    obtain ⟨t, ht, rfl⟩ := List.mem_map.mp hy
    have htmax := hs.len_lt ht
    rw [toSize_natCast (by omega)] at hfit
    exact hbest t ht hfit

/-- The node of the shape that a large request is cut from has room for the header. -/
theorem HeaderFits.room (hfits : HeaderFits s n) (hs : Sound p sh live)
    (h : FreeList s.mem (s.var .head) sh.free 0) (hbig : 16384 < n) (hmax : n ≤ 16777216)
    (hfit : HighestFit sh.free (roundSize n) r) : roundSize n + 32 ≤ r.len := by
  have hnode := hs.highestNode h hfit
  have := hfits hbig hmax _ hnode.1 hnode
  simpa only [Nat.cast_le] using this

theorem Fresh.freeNodes_eq (h : Fresh p s) : freeNodes s = [(p.heapStart, p.recorded)] := by
  have hfollow : follow (nextAt s.mem) loopBound (s.var .head) = [p.heapStart] := by
    refine h.node_path.follow_eq ?_ one_lt_loopBound
    have := p.heapStart_pos
    simp only [List.mem_singleton]
    omega
  unfold freeNodes
  rw [hfollow, List.map_singleton, h.size]

/-- A large request on a negative recorded length leaves no room for the header. -/
theorem Barren.headerFits {w : World} (h : Barren p w) (hbig : 16384 < n) (hmax : n ≤ 16777216)
    (hfits : HeaderFits w.st n) : 0 ≤ p.recorded := by
  by_contra hneg
  have hlow : -2147483648 ≤ p.recorded := (toInt_bounds (toWord_lt _)).1
  have hnodes := h.fresh.freeNodes_eq
  have hsize := (roundSize_huge hbig hmax).2.1
  have hbignode : roundSize n ≤ toSize p.recorded := by
    unfold toSize
    omega
  have hmem : (p.heapStart, p.recorded) ∈ freeNodes w.st := by
    rw [hnodes]
    exact List.mem_singleton_self _
  have hnode : HighestNode w.st (roundSize n) (p.heapStart, p.recorded) := by
    refine ⟨hmem, hbignode, ?_⟩
    rw [hnodes]
    simp
  have := hfits hbig hmax _ hmem hnode
  simp only at this
  omega

/-- The first node that holds a page leaves room behind the page. -/
theorem RemainderFits.first (hfits : RemainderFits s) (hs : Sound p sh live)
    (h : FreeList s.mem (s.var .head) sh.free 0) {l₁ l₂ : List Region}
    (hfree : sh.free = l₁ ++ r :: l₂)
    (hsmall : ∀ x ∈ l₁, x.len < pageBytes) (hfit : pageBytes ≤ r.len) :
    r.len = pageBytes ∨ pageBytes + headerBytes ≤ r.len := by
  have hfind : ((freeNodes s).find? fun x => decide ((pageBytes : ℤ) ≤ x.2)) =
      some (r.start, (r.len : ℤ)) := by
    rw [hs.freeNodes_eq h, hfree, List.map_append, List.map_cons, List.find?_append]
    have hnone : ((l₁.map fun r => (r.start, (r.len : ℤ))).find? fun x =>
        decide ((pageBytes : ℤ) ≤ x.2)) = none := by
      refine List.find?_eq_none.mpr fun x hx => ?_
      obtain ⟨t, ht, rfl⟩ := List.mem_map.mp hx
      have := hsmall t ht
      simp only [decide_eq_true_eq, Nat.cast_le]
      omega
    rw [hnone, Option.none_or, List.find?_cons_of_pos]
    simpa only [decide_eq_true_eq, Nat.cast_le] using hfit
  have := hfits _ hfind
  simpa only [Nat.cast_inj, Nat.cast_le] using this

end FreeNodes
end KmallocKfree
