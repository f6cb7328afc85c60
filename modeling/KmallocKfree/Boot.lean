import KmallocKfree.Step

/-!
# After `pmm_init`

The whole heap is one free node, whose size is the length of the heap as an `int`
holds it. A heap whose recorded length is below 32 KiB serves no request at all, and a
negative one no small request: such a heap stays as it was.
-/
namespace KmallocKfree

open Prog Region Shape
open ByteMemory (Mem)

/-- The state that `pmm_init` leaves. -/
structure Fresh (p : Platform) (s : PmmState) : Prop where
  head : s.var .head = p.heapStart
  next : nextAt s.mem p.heapStart = 0
  size : sizeAt s.mem p.heapStart = p.recorded
  pages : ∀ cpu < p.cpuCount, s.var (.pagehead cpu) = 0
  unlocked : Unlocked p s

section Init

variable {p : Platform} {s : PmmState} {w : World}

theorem wp_lockinit {F : Footprint Struct Global Lock} {l : Lock} {Q : Unit → PmmState → Prop}
    (hF : F.locks l) : wp F.Allows (lockinit l) s Q ↔ Q () (s.setLock l 0) := wp_unlock hF

theorem wp_initPagelists (n i : ℕ) : wp anyFoot.Allows (initPagelists n i) s fun _ s' =>
    s'.mem = s.mem ∧ s'.var .head = s.var .head ∧ s'.lock .heapLock = s.lock .heapLock ∧
      (∀ j < i, s'.var (.pagehead j) = s.var (.pagehead j) ∧
        s'.lock (.pagelist j) = s.lock (.pagelist j)) ∧
      ∀ j, i ≤ j → j < i + n → s'.var (.pagehead j) = 0 ∧ s'.lock (.pagelist j) = 0 := by
  induction n generalizing i s with
  | zero => exact ⟨rfl, rfl, rfl, fun _ _ => ⟨rfl, rfl⟩, fun j h₁ h₂ => absurd h₂ (by omega)⟩
  | succ n ih =>
    rw [initPagelists, wp_bind, wp_setGlobal trivial, wp_bind, wp_lockinit trivial]
    refine wp_post (ih (i + 1)) ?_
    rintro _ t ⟨hmem, hhead, hheap, hbelow, hfrom⟩
    refine ⟨hmem, hhead, hheap, fun j hj => ?_, fun j h₁ h₂ => ?_⟩
    · obtain ⟨h₁, h₂⟩ := hbelow j (by omega)
      rw [h₁, h₂]
      have hne : j ≠ i := by omega
      simp [hne]
    · by_cases hj : j = i
      · obtain ⟨h₁, h₂⟩ := hbelow j (by omega)
        rw [h₁, h₂, hj]
        simp
      · exact hfrom j (by omega) (by omega)

theorem wp_pmmInit (p : Platform) (s : PmmState) :
    wp anyFoot.Allows (pmmInit p) s fun _ s' => Fresh p s' := by
  have hpos := p.heapStart_pos
  have hle := p.heapStart_le
  have hlt := p.heapEnd_lt
  have hown : anyFoot.Owns .freenode p.heapStart 16 :=
    ⟨⟨hpos.ne', trivial, fun _ _ _ => trivial⟩, fun _ _ _ => trivial⟩
  unfold pmmInit
  rw [wp_bind, wp_setGlobal trivial, wp_bind, wp_getGlobal trivial, wp_bind, wp_check]
  simp only [Store.setVar_var, if_true]
  refine ⟨hpos.ne', ?_⟩
  rw [wp_bind, wp_writeSize hown, wp_bind, wp_writePtr hown, wp_bind, wp_lockinit trivial, wp_bind]
  refine wp_post (wp_initPagelists p.cpuCount 0) ?_
  rintro _ t ⟨hmem, hhead, -, -, hall⟩
  rw [wp_lockinit trivial]
  refine ⟨?_, ?_, ?_, fun cpu hcpu => ?_, ?_, fun cpu hcpu => ?_⟩
  · rw [Store.setLock_var, hhead]
    simp
  · rw [Store.setLock_mem, hmem]
    exact nextAt_setNextAt _ _ (by omega)
  · rw [Store.setLock_mem, hmem]
    refine (sizeAt_setNextAt _ _ _).trans ((sizeAt_setSizeAt_toInt _ _ _).trans ?_)
    rw [subPtr_of_le hle hlt]
    rfl
  · exact (hall cpu (Nat.zero_le _) (by omega)).1
  · simp
  · rw [Store.setLock_lock, if_neg (by rintro ⟨⟩)]
    exact (hall cpu (Nat.zero_le _) (by omega)).2

theorem Booted.fresh (h : Booted p w) : Fresh p w.st ∧ w.live = [] := by
  obtain ⟨s, s', hexec, rfl⟩ := h
  have hfresh := wp_result (wp_pmmInit p s) hexec
  exact ⟨hfresh, rfl⟩

/-- The shape of the heap after `pmm_init`. -/
def bootShape (p : Platform) : Shape := ⟨[⟨p.heapStart, p.recorded.toNat⟩], []⟩

theorem Fresh.freeList (h : Fresh p s) (hlen : 0 ≤ p.recorded) :
    FreeList s.mem (s.var .head) (bootShape p).free 0 := by
  refine FreeList.cons.mpr ⟨h.head, ?_, FreeList.nil.mpr h.next⟩
  rw [h.size]
  exact (Int.toNat_of_nonneg hlen).symm

/-- A heap with a positive recorded length starts in a sound shape. -/
theorem Fresh.inv (h : Fresh p s) (hlen : 0 < p.recorded) : Inv p ⟨s, []⟩ (bootShape p) where
  sound := by
    refine ⟨by simp [bootShape], ?_, ?_, by simp [bootShape], by simp, by simp, by simp⟩
    · exact List.pairwise_singleton _ _
    · intro r hr
      obtain rfl := List.mem_singleton.mp hr
      refine ⟨?_, le_rfl, le_rfl⟩
      simp only
      omega
  holds := ⟨h.freeList hlen.le, fun cpu hcpu => h.pages cpu hcpu, by simp [bootShape], by simp⟩
  unlocked := h.unlocked

end Init

section Barren

variable {p : Platform} {s : PmmState} {w w' : World} {c : Cmd} {cpu n : ℕ}

theorem Fresh.node_path (h : Fresh p s) : Path (nextAt s.mem) (s.var .head) [p.heapStart] 0 :=
  ⟨h.head, h.next⟩

theorem node_sees (p : Platform) : anyFoot.Sees .freenode p.heapStart 16 :=
  ⟨p.heapStart_pos.ne', trivial, fun _ _ _ => trivial⟩

theorem one_lt_loopBound : 1 < loopBound := by
  unfold loopBound
  exact Nat.one_lt_two_pow (by omega)

/-- A small request on a heap that is too short stops in an assertion. -/
theorem Fresh.exec_small (h : Fresh p s) (hcpu : cpu < p.cpuCount) (hn : n ≤ 16384)
    (hshort : p.recorded < 65536) :
    Prog.exec (kalloc p cpu n) s = .error (.assertion .firstPageAllocated) := by
  rw [kalloc_small hn]
  have hpage : wp anyFoot.Allows allockpage (s.setLock (.pagelist cpu) 1) fun page s' =>
      page = 0 ∧ s' = s.setLock (.pagelist cpu) 1 := by
    refine wp_allockpage_none h.node_path ?_ one_lt_loopBound (pagelist_ne_heap h.unlocked.1)
      trivial trivial ?_
    · intro x hx
      obtain rfl := List.mem_singleton.mp hx
      exact node_sees p
    · intro x hx
      obtain rfl := List.mem_singleton.mp hx
      rw [Store.setLock_mem, h.size]
      exact hshort
  exact exec_kallocSmall_nopage hcpu (h.pages cpu hcpu) (h.unlocked.2 cpu hcpu) (exec_of_wp hpage) _

/-- A large request on a heap that is too short is refused. -/
theorem Fresh.wp_huge (h : Fresh p s) (hlen : 0 ≤ p.recorded) (hshort : p.recorded < 32768)
    (hbig : 16384 < n) (hmax : n ≤ 16777216) :
    wp (callFoot (bootShape p) [] []).Allows (kalloc p cpu n) s fun a t => a = 0 ∧ t = s := by
  have hsize := (roundSize_huge hbig hmax).1
  have hnofit : ∀ r, ¬ HighestFit (bootShape p).free (roundSize n) r := by
    rintro r ⟨hr, hfit, -⟩
    obtain rfl := List.mem_singleton.mp hr
    simp only at hfit
    omega
  have hlimit := p.limit_max
  have howns : ∀ x ∈ (bootShape p).free,
      (callFoot (bootShape p) [] []).Owns .freenode x.start 16 := by
    intro x hx
    obtain rfl := List.mem_singleton.mp hx
    exact ⟨⟨p.heapStart_pos.ne', .inr ⟨_, hx, .inl (node_record _)⟩, fun _ _ _ => trivial⟩,
      fun _ _ _ b hb => absurd hb (List.not_mem_nil)⟩
  have hmaxs : ∀ x ∈ (bootShape p).free, x.stop < 18446744073709551616 := by
    intro x hx
    obtain rfl := List.mem_singleton.mp hx
    exact hlimit
  rw [kalloc_huge hbig hmax]
  refine wp_post (wp_kallocHugeMemory (h.freeList hlen) h.unlocked.1 trivial trivial howns
    one_lt_loopBound (List.pairwise_singleton _ _) (by omega) hmaxs
    (fun r hr => absurd hr (hnofit r)) fun r hr => absurd hr (hnofit r)) ?_
  rintro a t ⟨-, -, ⟨rfl, rfl, -⟩ | ⟨l₁, r, l₂, -, hr, -⟩⟩
  · exact ⟨rfl, rfl⟩
  · exact absurd hr (hnofit r)

theorem Fresh.exec_huge (h : Fresh p s) (hlen : 0 ≤ p.recorded) (hshort : p.recorded < 32768)
    (hbig : 16384 < n) : Prog.exec (kalloc p cpu n) s = .ok (0, s) := by
  by_cases hmax : n ≤ 16777216
  · exact exec_of_wp (h.wp_huge hlen hshort hbig hmax)
  · rw [kalloc_toolarge (by omega)]
    rfl

/-- A heap that is too short stays as it is. -/
theorem Fresh.exec_eq (h : Fresh p w.st) (hlive : w.live = []) (hshort : p.recorded < 32768)
    (hstep : w.exec p c = some w')
    (hc : ∀ cpu n, c = .alloc cpu n → 16384 < n → n ≤ 16777216 → 0 ≤ p.recorded) : w' = w := by
  cases c with
  | alloc cpu n =>
    obtain ⟨hcpu, r, t, hexec, rfl⟩ := exec_alloc_some hstep
    rcases Nat.lt_or_ge 16384 n with hbig | hn
    · have hsame : Prog.exec (kalloc p cpu n) w.st = .ok (0, w.st) := by
        rcases Nat.lt_or_ge 16777216 n with hmax | hmax
        · rw [kalloc_toolarge hmax]
          rfl
        · exact h.exec_huge (hc cpu n rfl hbig hmax) hshort hbig
      rw [hsame] at hexec
      cases hexec
      rfl
    · rw [h.exec_small hcpu hn (by omega)] at hexec
      cases hexec
  | free cpu a =>
    obtain ⟨-, b, -, hb, -⟩ := exec_free_some hstep
    rw [hlive] at hb
    cases hb
  | write a v =>
    obtain ⟨⟨b, hb, -⟩, -⟩ := exec_write_some hstep
    rw [hlive] at hb
    cases hb

end Barren
end KmallocKfree
