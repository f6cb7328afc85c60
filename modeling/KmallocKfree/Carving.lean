import KmallocKfree.Lengths

/-!
# A page is carved off the heap

`allockpage` on any well-formed free list. It takes the first node that can hold a page:
the list then covers what it covered before without that page, the other nodes stay
linked in their order, and only bytes of the node and the link of its predecessor are
written. Without such a node nothing changes.
-/
namespace KmallocKfree

open Prog Region
open ByteMemory (Mem)

/-- A well-formed free list of the heap: disjoint nodes of a positive multiple of 16 bytes
below 2 GiB, in any order of addresses. -/
structure HeapList (s : PmmState) (l : List Region) : Prop where
  list : FreeList s.mem (s.var .head) l 0
  disj : l.Pairwise Disj
  size : ∀ r ∈ l, 0 < r.len ∧ 16 ∣ r.len ∧ r.len < 2147483648
  place : ∀ r ∈ l, 0 < r.start ∧ r.stop ≤ 18446744073709551616

/-- The page at the front of node `r` was carved off the list `l₁ ++ r :: l₂`. -/
structure Carved (s s' : PmmState) (l₁ : List Region) (r : Region) (l₂ : List Region) : Prop where
  list : HeapList s' (l₁ ++ afterPage r ++ l₂)
  within : Within ⟨r.start, pageBytes⟩ r
  covered : ∀ x, Covered (l₁ ++ afterPage r ++ l₂) x ↔
    Covered (l₁ ++ r :: l₂) x ∧ ¬ Region.Contains ⟨r.start, pageBytes⟩ x
  mem : ∀ x, ¬ r.Contains x → (∀ q ∈ l₁.getLast?, ¬ Region.Contains ⟨q.start, 8⟩ x) →
    s'.mem x = s.mem x
  var : ∀ x, x ≠ .head → s'.var x = s.var x
  lock : s'.lock = s.lock

section Carving

variable {s s' : PmmState} {l l₁ l₂ : List Region} {r q : Region}

/-- What `allockpage` touches when it takes from node `r`. -/
def carveFoot (l₁ : List Region) (r : Region) : Footprint Struct Global Lock where
  reads _ := True
  writes x := r.Contains x ∨ ∃ q ∈ l₁.getLast?, Region.Contains ⟨q.start, 8⟩ x
  derefs k _ := k = .freenode
  gets x := x = .head
  sets x := x = .head
  locks l := l = .heapLock

theorem HeapList.long (h : HeapList s l) (hr : r ∈ l) : 16 ≤ r.len := by
  obtain ⟨hpos, hdvd, -⟩ := h.size r hr
  exact Nat.le_of_dvd hpos hdvd

theorem HeapList.separated (h : HeapList s l) : Separated l :=
  h.disj.imp_of_mem fun hx hy hd => hd.apart (h.long hx) (h.long hy)

/-- The walk over the list ends. -/
theorem HeapList.count (h : HeapList s l) : l.length < loopBound := by
  rw [← List.length_map (f := Region.start)]
  refine length_lt_loopBound h.separated.nodup (fun h0 => ?_) fun x hx => ?_
  · obtain ⟨r, hr, hr0⟩ := List.mem_map.mp h0
    have := (h.place r hr).1
    omega
  · obtain ⟨r, hr, rfl⟩ := List.mem_map.mp hx
    have hlong := h.long hr
    have := (h.place r hr).2
    unfold Region.stop at this
    omega

theorem HeapList.takable (h : HeapList s (l₁ ++ r :: l₂)) :
    Takable (carveFoot l₁ r) l₁ r l₂ where
  sees x hx := ⟨(h.place x hx).1.ne', rfl, fun _ _ _ => trivial⟩
  node := by
    have hmem : r ∈ l₁ ++ r :: l₂ := by simp
    have hlong := h.long hmem
    refine ⟨⟨(h.place r hmem).1.ne', rfl, fun _ _ _ => trivial⟩, ?_⟩
    intro x hlo hhi
    left
    unfold Region.Contains Region.stop
    omega
  link q hq x hlo hhi := .inr ⟨q, hq, hlo, hhi⟩
  get := rfl
  set := rfl

/-- The list after the page was carved off. -/
theorem HeapList.carve (h : HeapList s (l₁ ++ r :: l₂)) (hfit : pageBytes ≤ r.len)
    (hlist : FreeList s'.mem (s'.var .head) (l₁ ++ afterPage r ++ l₂) 0) :
    HeapList s' (l₁ ++ afterPage r ++ l₂) := by
  have hpb : pageBytes = 65536 := rfl
  have hmem : r ∈ l₁ ++ r :: l₂ := by simp
  have hold : ∀ x ∈ l₁ ++ afterPage r ++ l₂, x ∈ l₁ ++ r :: l₂ ∨ x ∈ afterPage r := by
    intro x hx
    simp only [List.mem_append, List.mem_cons] at hx ⊢
    tauto
  have hwithin : ∀ x ∈ afterPage r, x.Within r := by
    intro x hx
    obtain ⟨hstart, hlen, -⟩ := mem_afterPage hx
    unfold Within Region.stop
    omega
  refine ⟨hlist, ?_, ?_, ?_⟩
  · have hperm : (l₁ ++ r :: l₂).Perm (r :: (l₁ ++ l₂)) := List.perm_middle
    obtain ⟨hr, hrest⟩ := List.pairwise_cons.mp ((disjoint_perm hperm).mp h.disj)
    have hperm' : (l₁ ++ afterPage r ++ l₂).Perm (afterPage r ++ (l₁ ++ l₂)) := by
      rw [List.append_assoc]
      exact List.perm_append_comm_assoc _ _ _
    apply (disjoint_perm hperm').mpr
    refine List.pairwise_append.mpr ⟨?_, hrest, ?_⟩
    · unfold afterPage
      split_ifs
      · exact List.Pairwise.nil
      · exact List.pairwise_singleton _ _
    · intro x hx u hu
      exact (hr u hu).mono (hwithin x hx)
  · intro x hx
    obtain hx | hx := hold x hx
    · exact h.size x hx
    · obtain ⟨-, hdvd, hlt⟩ := h.size r hmem
      obtain ⟨-, hlen, hne⟩ := mem_afterPage hx
      omega
  · intro x hx
    obtain hx | hx := hold x hx
    · exact h.place x hx
    · obtain ⟨hpos, hmax⟩ := h.place r hmem
      obtain ⟨hlo, hhi⟩ := hwithin x hx
      omega

/-- The list covers what it covered, without the page. -/
theorem HeapList.carve_covered (h : HeapList s (l₁ ++ r :: l₂)) (hfit : pageBytes ≤ r.len) (x : ℕ) :
    Covered (l₁ ++ afterPage r ++ l₂) x ↔
      Covered (l₁ ++ r :: l₂) x ∧ ¬ Region.Contains ⟨r.start, pageBytes⟩ x := by
  have hpage : Region.Contains ⟨r.start, pageBytes⟩ x → r.Contains x := by
    unfold Region.Contains Region.stop
    simp only
    omega
  have hothers : Region.Contains ⟨r.start, pageBytes⟩ x → ¬ Covered (l₁ ++ l₂) x := fun hx =>
    not_covered_of_contains h.disj (hpage hx)
  have hrest : Covered (afterPage r) x ↔
      r.Contains x ∧ ¬ Region.Contains ⟨r.start, pageBytes⟩ x := by
    unfold afterPage Region.Contains Region.stop
    split_ifs with hlen
    · rw [covered_nil, false_iff]
      simp only
      omega
    · rw [covered_cons, covered_nil, or_false]
      unfold Region.Contains Region.stop
      simp only
      omega
  simp only [covered_append, covered_cons, hrest] at hothers ⊢
  tauto

/-- `allockpage` carves exactly one page: it takes the first node that can hold one, or
changes nothing. -/
theorem allockpage_carves (h : HeapList s l) (hlock : s.lock .heapLock = 0) :
    ((∃ r ∈ l, pageBytes ≤ r.len) → ∃ l₁ r l₂ s', l = l₁ ++ r :: l₂ ∧
      Prog.exec allockpage s = .ok (r.start, s') ∧ Carved s s' l₁ r l₂) ∧
    ((∀ r ∈ l, r.len < pageBytes) → Prog.exec allockpage s = .ok (0, s)) := by
  constructor
  · rintro ⟨x, hx, hxfit⟩
    obtain hsmall | ⟨l₁, r, l₂, rfl, hsmall, hfit⟩ := firstFit_cases l
    · have := hsmall x hx
      omega
    · have hmem : r ∈ l₁ ++ r :: l₂ := by simp
      have hmax := (h.place r hmem).2
      have hnew : r.len ≠ pageBytes → (carveFoot l₁ r).Owns .freenode (r.start + pageBytes) 16 ∧
          ∀ y ∈ l₁ ++ l₂, Apart (r.start + pageBytes) y.start := by
        intro hne
        have hdvd := (h.size r hmem).2.1
        have hpb : pageBytes = 65536 := rfl
        have hroom : pageBytes + 16 ≤ r.len := by omega
        constructor
        · refine ⟨⟨by omega, rfl, fun _ _ _ => trivial⟩, fun y hlo hhi => .inl ?_⟩
          unfold Region.Contains Region.stop
          omega
        · intro y hy
          have hd := disjoint_of_mem h.disj hy
          have hlong := h.long (show y ∈ l₁ ++ r :: l₂ by
            simp only [List.mem_append, List.mem_cons] at hy ⊢
            tauto)
          unfold Disj Region.stop at hd
          unfold Apart
          omega
      have hwp := wp_frame (wp_allockpage (F := carveFoot l₁ r) h.list hlock rfl h.takable h.count
        h.separated hsmall hfit hmax hnew)
      obtain ⟨page, s', hexec, ⟨rfl, hlist, hlock', -⟩, hframe⟩ := wp_exec hwp
      refine ⟨l₁, r, l₂, s', rfl, hexec, h.carve hfit hlist, ?_, h.carve_covered hfit, ?_, ?_,
        hlock'⟩
      · unfold Within Region.stop
        simp only
        omega
      · intro x hout hlink
        apply hframe.mem
        rintro (hx | ⟨q, hq, hx⟩)
        · exact hout hx
        · exact hlink q hq hx
      · intro x hx
        exact hframe.var x hx
  · intro hsmall
    apply exec_of_wp (P := (carveFoot [] ⟨0, 0⟩).Allows)
    refine wp_allockpage_none h.list.path ?_ ?_ hlock rfl rfl ?_
    · intro x hx
      obtain ⟨r, hr, rfl⟩ := List.mem_map.mp hx
      exact ⟨(h.place r hr).1.ne', rfl, fun _ _ _ => trivial⟩
    · rw [List.length_map]
      exact h.count
    · intro x hx
      obtain ⟨r, hr, rfl⟩ := List.mem_map.mp hx
      rw [h.list.size r hr]
      exact_mod_cast hsmall r hr

/-- The node in the middle of three is exactly a page, the one before it is too small. -/
theorem allockpage_carves_inner : ∃ s s',
    HeapList s [⟨0x177FF0, 0x8000⟩, ⟨0x15FFD0, 0x10000⟩, ⟨0x100000, 0x57FC0⟩] ∧
    Prog.exec allockpage s = .ok (0x15FFD0, s') ∧
    HeapList s' [⟨0x177FF0, 0x8000⟩, ⟨0x100000, 0x57FC0⟩] := by
  have hrun : ((runFrom halfMega (fun _ _ => True) blank
      [.alloc 0 32768, .alloc 0 32768, .alloc 0 65536, .alloc 0 32768, .free 0 0x15FFE0,
        .free 0 0x178000]).map fun w => decide (FreeList w.st.mem (w.st.var .head)
          [⟨0x177FF0, 0x8000⟩, ⟨0x15FFD0, 0x10000⟩, ⟨0x100000, 0x57FC0⟩] 0 ∧
          w.st.lock .heapLock = 0 ∧
          (Prog.exec allockpage w.st).toOption.map Prod.fst = some 0x15FFD0)) = some true := by
    decide +kernel
  obtain ⟨w, -, hlast⟩ := Option.map_eq_some_iff.mp hrun
  obtain ⟨hfree, hlock, haddr⟩ := of_decide_eq_true hlast
  have hlist : HeapList w.st [⟨0x177FF0, 0x8000⟩, ⟨0x15FFD0, 0x10000⟩, ⟨0x100000, 0x57FC0⟩] :=
    ⟨hfree, by decide, by decide, by decide⟩
  obtain ⟨l₁, r, l₂, s', hsplit, hexec, hcarved⟩ :=
    (allockpage_carves hlist hlock).1 (by decide)
  rw [hexec] at haddr
  have hstart : r.start = 0x15FFD0 := Option.some.inj haddr
  obtain ⟨rfl, rfl, rfl⟩ : l₁ = [⟨0x177FF0, 0x8000⟩] ∧ r = ⟨0x15FFD0, 0x10000⟩ ∧
      l₂ = [⟨0x100000, 0x57FC0⟩] := by
    cases l₁ with
    | nil =>
      obtain ⟨rfl, -⟩ := List.cons.inj hsplit
      exact absurd hstart (by decide)
    | cons x l₁ =>
      obtain ⟨rfl, htail⟩ := List.cons.inj hsplit
      cases l₁ with
      | nil =>
        obtain ⟨rfl, rfl⟩ := List.cons.inj htail
        exact ⟨rfl, rfl, rfl⟩
      | cons y l₁ =>
        obtain ⟨rfl, hlast⟩ := List.cons.inj htail
        cases l₁ with
        | nil =>
          obtain ⟨rfl, -⟩ := List.cons.inj hlast
          exact absurd hstart (by decide)
        | cons z l₁ => simp at hlast
  exact ⟨w.st, s', hlist, hexec, hcarved.list⟩

end Carving
end KmallocKfree
