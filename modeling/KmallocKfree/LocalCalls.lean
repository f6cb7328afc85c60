import KmallocKfree.Invariant

/-!
# Calls that stay in the page lists

The searches of `kalloc` and `kfree` over the page lists change nothing. In a state whose
lists are null-terminated lists of disjoint pages, a call is therefore the operation on
the page that its search finds, under the lock of the caller's list.
-/
namespace KmallocKfree

open Prog Region
open ByteMemory (Mem)

/-- The page lists lead through the pages `L cpu`, which are disjoint and lie in the heap. -/
structure Listed (p : Platform) (s : PmmState) (L : ℕ → List ℕ) : Prop where
  path : ∀ cpu < p.cpuCount, Path (nextAt s.mem) (s.var (.pagehead cpu)) (L cpu) 0
  nodup : ∀ cpu < p.cpuCount, (L cpu).Nodup
  inside : ∀ cpu < p.cpuCount, ∀ q ∈ L cpu, p.heapStart ≤ q ∧ q + pageBytes ≤ p.heapEnd
  apart : ∀ i < p.cpuCount, ∀ j < p.cpuCount, ∀ q ∈ L i, ∀ q' ∈ L j, q ≠ q' →
    q + pageBytes ≤ q' ∨ q' + pageBytes ≤ q

/-- The address `ptr` lies in the page at `q`, behind its first byte. -/
def InSpan (q ptr : ℕ) : Prop := q < ptr ∧ ptr < q + pageBytes

instance (q ptr : ℕ) : Decidable (InSpan q ptr) := inferInstanceAs (Decidable (_ ∧ _))

/-- The page at `q` has the class `c` and a free block. -/
def HasSized (m : Mem) (c q : ℕ) : Prop := toSize (sizeAt m q) = c ∧ 0 < wordAt m q

/-- The page at `q` is completely empty. -/
def HasEmpty (m : Mem) (q : ℕ) : Prop := sizeAt m q = 0 ∧ 0 < wordAt m q

instance (m : Mem) (c q : ℕ) : Decidable (HasSized m c q) := inferInstanceAs (Decidable (_ ∧ _))
instance (m : Mem) (q : ℕ) : Decidable (HasEmpty m q) := inferInstanceAs (Decidable (_ ∧ _))

section Listed

variable {p : Platform} {s t : PmmState} {L : ℕ → List ℕ} {F : Footprint Struct Global Lock}
  {cpu i k n q ptr : ℕ} {A B : List ℕ}

theorem Listed.pos (h : Listed p s L) (hk : k < p.cpuCount) (hq : q ∈ L k) :
    0 < q ∧ q + pageBytes < 18446744073709551616 := by
  have hin := h.inside k hk q hq
  have hstart := p.heapStart_pos
  have hend := p.heapEnd_lt
  omega

/-- A walk over a page list ends. -/
theorem Listed.count (h : Listed p s L) (hk : k < p.cpuCount) : (L k).length < loopBound := by
  refine length_lt_loopBound (h.nodup k hk) (fun h0 => ?_) fun x hx => ?_
  · have := (h.pos hk h0).1
    omega
  · have := (h.pos hk hx).2
    omega

/-- The lists do not depend on the locks. -/
theorem Listed.setLock (h : Listed p s L) (l : Lock) (v : ℕ) : Listed p (s.setLock l v) L :=
  ⟨h.path, h.nodup, h.inside, h.apart⟩

/-- Two pages around one address are the same page. -/
theorem Listed.unique (h : Listed p s L) {k' q' : ℕ} (hk : k < p.cpuCount) (hk' : k' < p.cpuCount)
    (hq : q ∈ L k) (hq' : q' ∈ L k') (hin : InSpan q ptr) (hin' : InSpan q' ptr) : q = q' := by
  by_contra hne
  have hapart := h.apart k hk k' hk' q hq q' hq' hne
  unfold InSpan at hin hin'
  omega

/-- The scan over the page lists finds the page of `ptr`, if there is one. -/
theorem Listed.wp_scanCpus {Q : ℕ × Bool → PmmState → Prop} (h : Listed p s L)
    (hsees : ∀ k < p.cpuCount, ∀ q ∈ L k, F.Sees .pageheader q 16) (hget : ∀ x, F.gets x)
    (hin : i + n ≤ p.cpuCount)
    (hnone : (∀ k, i ≤ k → k < i + n → ∀ q ∈ L k, ¬ InSpan q ptr) → Q (0, false) s)
    (hsome : ∀ k < p.cpuCount, ∀ q ∈ L k, InSpan q ptr → Q (q, true) s) :
    wp F.Allows (scanCpus ptr n i) s Q := by
  induction n generalizing i with
  | zero => exact hnone fun k h₁ h₂ => absurd h₂ (by omega)
  | succ n ih =>
    rw [scanCpus, wp_bind, wp_getGlobal (hget _), wp_bind]
    refine wp_scanPagelist (h.path i (by omega)) (hsees i (by omega)) (h.count (by omega)) ?_
    have htest : ∀ q ∈ L i, (q < ptr ∧ ptr < addPtr q pageBytes) ↔ InSpan q ptr := by
      intro q hq
      rw [addPtr_of_lt (h.pos (by omega) hq).2]
      rfl
    cases hf : (L i).find? fun x => decide (x < ptr ∧ ptr < addPtr x pageBytes) with
    | some q =>
      have hq := List.mem_of_find?_eq_some hf
      have hqin : InSpan q ptr := (htest q hq).mp (by simpa using List.find?_some hf)
      simpa using hsome i (by omega) q hq hqin
    | none =>
      simp only [Option.map_none, Option.getD_none, Bool.false_eq_true, if_false]
      apply ih (by omega)
      intro hrest
      apply hnone
      intro k h₁ h₂ q hq hqin
      by_cases hki : k = i
      · subst hki
        exact List.find?_eq_none.mp hf q hq (by simpa using (htest q hq).mpr hqin)
      · exact hrest k (by omega) (by omega) q hq hqin

end Listed

section Reductions

variable {p : Platform} {s t : PmmState} {L : ℕ → List ℕ} {α : Type}
  {cpu k n q ptr : ℕ} {A B : List ℕ} {l : Lock}

theorem exec_lock (hl : s.lock l = 0) :
    Prog.exec (lock l : Code Unit) s = .ok ((), s.setLock l 1) :=
  exec_of_wp ((wp_lock (F := anyFoot) trivial hl).mpr ⟨rfl, rfl⟩)

/-- A program that starts with a lock goes on in the state with the lock taken. -/
theorem exec_locked (hl : s.lock l = 0) (c : Code α) :
    Prog.exec (do lock l; c) s = Prog.exec c (s.setLock l 1) := by
  rw [exec_bind, exec_lock hl]

theorem sees_any {x : ℕ} {k : Struct} (hx : x ≠ 0) : anyFoot.Sees k x 16 :=
  ⟨hx, trivial, fun _ _ _ => trivial⟩

theorem Listed.sees (h : Listed p s L) (hk : k < p.cpuCount) :
    ∀ x ∈ L k, anyFoot.Sees .pageheader x 16 := fun _ hx => sees_any (h.pos hk hx).1.ne'

/-- `kfree` of an address in a page of some list is the page branch on that page. -/
theorem Listed.exec_kfree (h : Listed p s L) (hlock : s.lock (.pagelist cpu) = 0)
    (hk : k < p.cpuCount) (hq : q ∈ L k) (hin : InSpan q ptr) :
    Prog.exec (kfree p cpu ptr) s =
      Prog.exec (do lock (.pagelist cpu); kfreePage cpu q ptr) s := by
  have hnull : ptr ≠ 0 := by unfold InSpan at hin; omega
  have hscan : Prog.exec (scanCpus ptr p.cpuCount 0) (s.setLock (.pagelist cpu) 1) =
      .ok ((q, true), s.setLock (.pagelist cpu) 1) := by
    apply exec_of_wp (P := anyFoot.Allows)
    have hlisted := h.setLock (.pagelist cpu) 1
    apply hlisted.wp_scanCpus (fun k hk => hlisted.sees hk) (fun _ => trivial) (by omega)
    · intro hnone
      exact absurd hin (hnone k (Nat.zero_le _) (by omega) q hq)
    · intro k' hk' q' hq' hin'
      rw [h.unique hk hk' hq hq' hin hin']
      exact ⟨rfl, rfl⟩
  rw [exec_locked hlock]
  unfold kfree
  rw [exec_bind]
  simp only [check, hnull, ne_eq, not_false_eq_true, if_true, Prog.exec]
  rw [exec_locked hlock, exec_bind, hscan]
  simp only [(h.pos hk hq).1.ne', not_false_eq_true, if_true]
  rw [exec_bind]
  rfl

/-- A small request of a CPU with pages goes on with the search for a page of its class. -/
theorem Listed.exec_kalloc (h : Listed p s L) (hcpu : cpu < p.cpuCount) (hn : n ≤ 16384)
    (hne : L cpu ≠ []) :
    Prog.exec (kalloc p cpu n) s = Prog.exec (kallocPaged cpu (roundSize n)) s := by
  have hhead : s.var (.pagehead cpu) ≠ 0 := by
    obtain ⟨x, rest, hx⟩ := List.exists_cons_of_ne_nil hne
    have hpath := h.path cpu hcpu
    rw [hx] at hpath
    rw [hpath.1]
    exact (h.pos hcpu (show x ∈ L cpu by rw [hx]; simp)).1.ne'
  have hsmall : Prog.exec (kallocSmall p cpu (roundSize n)) s =
      Prog.exec (kallocPaged cpu (roundSize n)) s := by
    unfold kallocSmall
    rw [exec_bind]
    simp only [check, hcpu.le, if_true, Prog.exec]
    rw [exec_bind]
    simp only [getGlobal, perform, Prog.exec, Op.run, hhead, if_false]
  unfold kalloc
  split_ifs with h₁ h₂ h₃
  · exact hsmall
  · omega
  · omega
  · exact hsmall

/-- The search of the fast path. -/
theorem Listed.exec_findSized (h : Listed p s L) (hcpu : cpu < p.cpuCount) (c : ℕ) :
    Prog.exec (findSized c (s.var (.pagehead cpu))) s =
      .ok (((L cpu).find? fun x => decide (HasSized s.mem c x)).getD 0, s) :=
  exec_of_wp (wp_findSized (h.path cpu hcpu) (h.sees hcpu) (h.count hcpu) ⟨rfl, rfl⟩)

/-- The search of the slow path. -/
theorem Listed.exec_findEmpty (h : Listed p s L) (hcpu : cpu < p.cpuCount) :
    Prog.exec (findEmpty (s.var (.pagehead cpu))) s =
      .ok (((L cpu).find? fun x => decide (HasEmpty s.mem x)).getD 0, s) :=
  exec_of_wp (wp_findEmpty (h.path cpu hcpu) (h.sees hcpu) (h.count hcpu) ⟨rfl, rfl⟩)

theorem find_split {P : ℕ → Prop} [DecidablePred P] (hA : ∀ x ∈ A, ¬ P x) (hq : P q) :
    ((A ++ q :: B).find? fun x => decide (P x)).getD 0 = q := by
  have hnone : A.find? (fun x => decide (P x)) = none := by
    apply List.find?_eq_none.mpr
    intro x hx
    simpa using hA x hx
  rw [List.find?_append, hnone, Option.none_or, List.find?_cons_of_pos (by simpa using hq)]
  rfl

theorem find_none {P : ℕ → Prop} [DecidablePred P] (hA : ∀ x ∈ A, ¬ P x) :
    (A.find? fun x => decide (P x)).getD 0 = 0 := by
  have hnone : A.find? (fun x => decide (P x)) = none := by
    apply List.find?_eq_none.mpr
    intro x hx
    simpa using hA x hx
  rw [hnone]
  rfl

/-- A request that finds a page of its class with a free block is served by that page. -/
theorem Listed.exec_kalloc_fast (h : Listed p s L) (hcpu : cpu < p.cpuCount) (hn : n ≤ 16384)
    (hlock : s.lock (.pagelist cpu) = 0) (hsplit : L cpu = A ++ q :: B)
    (hA : ∀ x ∈ A, ¬ HasSized s.mem (roundSize n) x) (hq : HasSized s.mem (roundSize n) q) :
    Prog.exec (kalloc p cpu n) s =
      Prog.exec (do lock (.pagelist cpu); kallocFast cpu q (roundSize n)) s := by
  have hpos := (h.pos hcpu (show q ∈ L cpu by rw [hsplit]; simp)).1
  have hfind := (h.setLock (.pagelist cpu) 1).exec_findSized hcpu (roundSize n)
  rw [hsplit, Store.setLock_mem, find_split hA hq] at hfind
  rw [h.exec_kalloc hcpu hn (by rw [hsplit]; simp), exec_locked hlock]
  unfold kallocPaged
  rw [exec_locked hlock, exec_bind]
  simp only [getGlobal, perform, Prog.exec, Op.run]
  rw [exec_bind, hfind]
  simp only [hpos.ne', ne_eq, not_false_eq_true, if_true]

/-- A request that finds no page of its class with a free block takes the slow path. -/
theorem Listed.exec_kalloc_slow (h : Listed p s L) (hcpu : cpu < p.cpuCount) (hn : n ≤ 16384)
    (hlock : s.lock (.pagelist cpu) = 0) (hne : L cpu ≠ [])
    (hnone : ∀ x ∈ L cpu, ¬ HasSized s.mem (roundSize n) x) :
    Prog.exec (kalloc p cpu n) s =
      Prog.exec (do lock (.pagelist cpu); kallocSlow cpu (roundSize n)) s := by
  have hfind := (h.setLock (.pagelist cpu) 1).exec_findSized hcpu (roundSize n)
  rw [Store.setLock_mem, find_none hnone] at hfind
  rw [h.exec_kalloc hcpu hn hne, exec_locked hlock]
  unfold kallocPaged
  rw [exec_locked hlock, exec_bind]
  simp only [getGlobal, perform, Prog.exec, Op.run]
  rw [exec_bind, hfind]
  simp only [ne_eq, not_true_eq_false, if_false]

/-- The slow path on an empty page `q`. -/
def kallocRecycle (cpuno q size : ℕ) : Code ℕ := do
  Pageheader.setSize q size
  takeFirstBlock cpuno q size

/-- A request that finds an empty page, and none of its class, takes that page. -/
theorem Listed.exec_kalloc_recycle (h : Listed p s L) (hcpu : cpu < p.cpuCount) (hn : n ≤ 16384)
    (hlock : s.lock (.pagelist cpu) = 0) (hsplit : L cpu = A ++ q :: B)
    (hnone : ∀ x ∈ L cpu, ¬ HasSized s.mem (roundSize n) x)
    (hA : ∀ x ∈ A, ¬ HasEmpty s.mem x) (hq : HasEmpty s.mem q) :
    Prog.exec (kalloc p cpu n) s =
      Prog.exec (do lock (.pagelist cpu); kallocRecycle cpu q (roundSize n)) s := by
  have hpos := (h.pos hcpu (show q ∈ L cpu by rw [hsplit]; simp)).1
  have hfind := (h.setLock (.pagelist cpu) 1).exec_findEmpty hcpu
  rw [hsplit, Store.setLock_mem, find_split hA hq] at hfind
  rw [h.exec_kalloc_slow hcpu hn hlock (by rw [hsplit]; simp) hnone, exec_locked hlock,
    exec_locked hlock]
  unfold kallocSlow
  rw [exec_bind]
  simp only [getGlobal, perform, Prog.exec, Op.run]
  rw [exec_bind, hfind]
  simp only [hpos.ne', ne_eq, not_false_eq_true, if_true]
  rfl

end Reductions
end KmallocKfree
