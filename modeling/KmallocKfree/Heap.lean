import KmallocKfree.Loops

/-!
# The heap free list

The specifications of the functions that work on the list starting at `head`:
`allockpage` cuts a page off the front of the first node that can hold one,
`kallocHugeMemory` cuts a block with its header off the tail of the highest node
that can hold it, and the huge branch of `kfree` gives a block back, joined with
the free nodes that touch it.
-/
namespace KmallocKfree

open Prog

/-- The bytes that a node of the free list occupies: its region, and its record
when the region is shorter than the record. -/
def Region.node (r : Region) : Region := ⟨r.start, max r.len headerBytes⟩

/-- The address of the last region of a list; 0 for the empty list. -/
def lastStart (l : List Region) : ℕ := (l.map Region.start).getLastD 0

@[simp] theorem lastStart_nil : lastStart [] = 0 := rfl

@[simp] theorem lastStart_concat (l : List Region) (q : Region) :
    lastStart (l ++ [q]) = q.start := by
  simp [lastStart]

/-- What remains of a node after a page is cut off its front. -/
def afterPage (r : Region) : List Region :=
  if r.len = pageBytes then [] else [⟨r.start + pageBytes, r.len - pageBytes⟩]

theorem mem_afterPage {q r : Region} (hq : q ∈ afterPage r) : q.start = r.start + pageBytes ∧
    q.len = r.len - pageBytes ∧ r.len ≠ pageBytes := by
  unfold afterPage at hq
  split_ifs at hq with hlen
  · simp at hq
  · rw [List.mem_singleton.mp hq]
    exact ⟨rfl, rfl, hlen⟩

/-- The first node that can hold a page, if there is one. -/
theorem firstFit_cases (l : List Region) : (∀ x ∈ l, x.len < pageBytes) ∨
    ∃ l₁ r l₂, l = l₁ ++ r :: l₂ ∧ (∀ x ∈ l₁, x.len < pageBytes) ∧ pageBytes ≤ r.len := by
  induction l with
  | nil => exact .inl (by simp)
  | cons x l ih =>
    by_cases hx : pageBytes ≤ x.len
    · exact .inr ⟨[], x, l, rfl, by simp, hx⟩
    · rcases ih with hall | ⟨l₁, r, l₂, rfl, hsmall, hfit⟩
      · exact .inl (List.forall_mem_cons.mpr ⟨not_le.mp hx, hall⟩)
      · exact .inr ⟨x :: l₁, r, l₂, rfl, List.forall_mem_cons.mpr ⟨not_le.mp hx, hsmall⟩, hfit⟩

section Rules

variable {F : Footprint Struct Global Lock} {s : PmmState} {l : Lock}
  {Q : Unit → PmmState → Prop}

theorem wp_lock (hF : F.locks l) (hl : s.lock l = 0) :
    wp F.Allows (lock l) s Q ↔ Q () (s.setLock l 1) := by
  have h₁ : F.Allows (.acquire l) := hF
  have h₂ : F.Allows (.peek l) := hF
  simp [lock, perform, wp, h₁, h₂, Op.run, hl]

theorem wp_unlock (hF : F.locks l) :
    wp F.Allows (unlock l) s Q ↔ Q () (s.setLock l 0) := by
  have h₁ : F.Allows (.put l 0) := hF
  simp [unlock, perform, wp, h₁, Op.run]

/-- Taking and releasing a free lock leaves the lock words as they were. -/
theorem setLock_restore (hl : s.lock l = 0) :
    (fun k => if k = l then 0 else if k = l then 1 else s.lock k) = s.lock := by
  funext k
  split_ifs with h
  · rw [h, hl]
  · rfl

theorem setLock_setLock (hl : s.lock l = 0) : (s.setLock l 1).setLock l 0 = s := by
  obtain ⟨m, v, w⟩ := s
  simp only [Store.setLock]
  exact congrArg (Store.mk m v) (setLock_restore hl)

end Rules

section Allockpage

variable {F : Footprint Struct Global Lock} {s : PmmState} {h : ℕ} {l l₁ l₂ : List Region}
  {q r : Region}

/-- A list of nodes that `F` may walk. -/
structure Walkable (F : Footprint Struct Global Lock) (l : List Region) : Prop where
  sees : ∀ r ∈ l, F.Sees .freenode r.start 16
  len : l.length < loopBound

theorem Walkable.starts (h : Walkable F l) : ∀ x ∈ l.map Region.start, F.Sees .freenode x 16 := by
  intro x hx
  obtain ⟨r, hr, rfl⟩ := List.mem_map.mp hx
  exact h.sees r hr

lemma walkList_firstFit {m : ByteMemory.Mem} (pre : ℕ) (hsize : ∀ x ∈ l₁, sizeAt m x.start = x.len)
    (hsmall : ∀ x ∈ l₁, x.len < pageBytes) (hr : sizeAt m r.start = r.len)
    (hfit : pageBytes ≤ r.len) :
    walkList (fun x (_ : ℕ) => if (pageBytes : ℤ) ≤ sizeAt m x then .inr (x, ‹ℕ›) else .inl x)
      (fun pre => (0, pre)) ((l₁ ++ r :: l₂).map Region.start) pre =
      (r.start, (l₁.map Region.start).getLastD pre) := by
  induction l₁ generalizing pre with
  | nil => simp [walkList, hr, hfit]
  | cons x l₁ ih =>
    have hx : sizeAt m x.start = x.len := hsize x List.mem_cons_self
    have hlt : ¬ (pageBytes : ℤ) ≤ (x.len : ℤ) := by
      have := hsmall x List.mem_cons_self
      omega
    have ih := ih x.start (fun y hy => hsize y (List.mem_cons_of_mem _ hy))
      (fun y hy => hsmall y (List.mem_cons_of_mem _ hy))
    simp only [List.cons_append, List.map_cons, walkList, hx, if_neg hlt, ih,
      List.getLastD_cons]

lemma walkList_firstFit_none {m : ByteMemory.Mem} {L : List ℕ} (pre : ℕ)
    (hsmall : ∀ x ∈ L, sizeAt m x < pageBytes) :
    (walkList (fun x (_ : ℕ) => if (pageBytes : ℤ) ≤ sizeAt m x then .inr (x, ‹ℕ›) else .inl x)
      (fun pre => (0, pre)) L pre).1 = 0 := by
  induction L generalizing pre with
  | nil => rfl
  | cons x L ih =>
    have hx := hsmall x List.mem_cons_self
    have ih := ih x fun y hy => hsmall y (List.mem_cons_of_mem _ hy)
    simp only [walkList, if_neg (not_le.mpr hx), ih]

theorem wp_firstFit {L : List ℕ} {Q : ℕ × ℕ → PmmState → Prop}
    (hpath : Path (nextAt s.mem) h L 0) (hsees : ∀ x ∈ L, F.Sees .freenode x 16)
    (hlen : L.length < loopBound)
    (hQ : Q (walkList (fun x (pre : ℕ) =>
      if (pageBytes : ℤ) ≤ sizeAt s.mem x then .inr (x, pre) else .inl x)
      (fun pre => (0, pre)) L 0) s) : wp F.Allows (firstFit h) s Q := by
  unfold firstFit
  refine wp_walk (nextAt s.mem) _ hpath (fun x hx => (hsees x hx).ne_null) hlen ?_ ?_ hQ
  · intro x hx pre
    rw [wp_bind, wp_readSize (hsees x hx), wp_ite]
    split_ifs <;> simp only [wp_pure, and_self]
  · intro x hx
    rw [wp_readPtr (hsees x hx)]
    exact ⟨rfl, rfl⟩

/-- What `allockpage` may touch to take from node `r`: it reads the nodes, and writes the
record of `r` and the link of the node before it. -/
structure Takable (F : Footprint Struct Global Lock) (l₁ : List Region) (r : Region)
    (l₂ : List Region) : Prop where
  sees : ∀ x ∈ l₁ ++ r :: l₂, F.Sees .freenode x.start 16
  node : F.Owns .freenode r.start 16
  link : ∀ q ∈ l₁.getLast?, ∀ x, q.start ≤ x → x < q.start + 8 → F.writes x
  get : F.gets .head
  set : F.sets .head

/-- Where all nodes are owned, any of them may be taken from. -/
theorem Takable.of_owns (h : ∀ x ∈ l₁ ++ r :: l₂, F.Owns .freenode x.start 16)
    (hget : F.gets .head) (hset : F.sets .head) : Takable F l₁ r l₂ where
  sees x hx := (h x hx).toSees
  node := h r (by simp)
  link q hq x hlo hhi := by
    have hmem : q ∈ l₁ := List.mem_of_mem_getLast? hq
    exact (h q (by simp [hmem])).writes x hlo (by omega)
  get := hget
  set := hset

/-- The whole node leaves the list. -/
theorem wp_takeWholeNode (hl : FreeList s.mem (s.var .head) (l₁ ++ r :: l₂) 0)
    (ht : Takable F l₁ r l₂) (hsep : Separated (l₁ ++ r :: l₂)) :
    wp F.Allows (takeWholeNode r.start (lastStart l₁)) s fun _ s' =>
      FreeList s'.mem (s'.var .head) (l₁ ++ l₂) 0 ∧ s'.lock = s.lock := by
  have hr := ht.node
  obtain ⟨c, h₁, h₂⟩ := FreeList.append.mp hl
  obtain ⟨rfl, -, hrest⟩ := FreeList.cons.mp h₂
  unfold takeWholeNode
  rcases List.eq_nil_or_concat' l₁ with rfl | ⟨l₀, q, rfl⟩
  · have hhead : s.var .head = r.start := FreeList.nil.mp h₁
    simp only [lastStart_nil, ne_eq, not_true_eq_false, if_false, wp_bind, wp_getGlobal ht.get,
      wp_check, hhead, true_and, wp_readPtr hr.toSees, wp_setGlobal ht.set]
    exact ⟨hrest, rfl⟩
  · have hq := ht.sees q (by simp)
    have hlink := ht.link q (by simp)
    have happ : ∀ t ∈ l₀ ++ r :: l₂, Apart q.start t.start := fun t ht =>
      Separated.apart (by simpa using hsep) ht
    simp only [lastStart_concat, hq.ne_null, ne_eq, not_false_eq_true, if_true, wp_bind,
      wp_readPtr hq, wp_check, h₁.last_next, true_and, wp_readPtr hr.toSees,
      wp_writeLink hq hlink]
    exact ⟨h₁.splice hrest (nextAt_lt _ _) (fun t ht => happ t (by simp [ht]))
      (fun t ht => happ t (by simp [ht])), rfl⟩

/-- The node moves up by one page. -/
theorem wp_splitNode (hl : FreeList s.mem (s.var .head) (l₁ ++ r :: l₂) 0)
    (ht : Takable F l₁ r l₂) (hsep : Separated (l₁ ++ r :: l₂))
    (hlen : pageBytes < r.len) (hmax : r.stop ≤ 18446744073709551616)
    (hnew : F.Owns .freenode (r.start + pageBytes) 16)
    (hapart : ∀ x ∈ l₁ ++ l₂, Apart (r.start + pageBytes) x.start) :
    wp F.Allows (splitNode r.start (lastStart l₁)) s fun _ s' =>
      FreeList s'.mem (s'.var .head)
        (l₁ ++ ⟨r.start + pageBytes, r.len - pageBytes⟩ :: l₂) 0 ∧ s'.lock = s.lock := by
  have hr := ht.node
  obtain ⟨c, h₁, h₂⟩ := FreeList.append.mp hl
  obtain ⟨rfl, hsize, hrest⟩ := FreeList.cons.mp h₂
  have hbounds := sizeAt_bounds s.mem r.start
  have hpage : addPtr r.start pageBytes = r.start + pageBytes :=
    addPtr_of_lt (by unfold Region.stop at hmax; omega)
  have hpb : pageBytes = 65536 := rfl
  have hself : Apart (r.start + pageBytes) r.start := .inr (by omega)
  set n := r.start + pageBytes with hn
  set m₁ := setNextAt s.mem n (nextAt s.mem r.start) with hm₁
  set m₂ := setSizeAt m₁ n (sizeAt s.mem r.start - pageBytes) with hm₂
  have hsize₁ : sizeAt m₁ r.start = sizeAt s.mem r.start :=
    (SameRecord.setNextAt hself _).size
  have hsame : ∀ x, Apart n x → SameRecord s.mem m₂ x := fun x hx =>
    (SameRecord.setNextAt hx _).trans (.setSizeAt hx _)
  have hnode : FreeList m₂ n (⟨n, r.len - pageBytes⟩ :: l₂) 0 := by
    refine FreeList.cons.mpr ⟨rfl, ?_, ?_⟩
    · rw [hm₂, sizeAt_setSizeAt _ _ (by omega) (by omega), hsize]
      simp only
      omega
    · rw [hm₂, nextAt_setSizeAt, hm₁, nextAt_setNextAt _ _ (nextAt_lt _ _)]
      exact hrest.frame fun x hx => hsame _ (hapart x (by simp [hx]))
  unfold splitNode
  simp only [hpage, wp_bind, wp_readSize hr.toSees, wp_check, wp_readPtr hr.toSees,
    wp_writePtr hnew, wp_writeSize hnew, Store.setMem_mem, ← hm₁, hsize₁, ← hm₂]
  refine ⟨by rw [hsize]; exact_mod_cast hlen, ?_⟩
  rcases List.eq_nil_or_concat' l₁ with rfl | ⟨l₀, q, rfl⟩
  · have hhead : s.var .head = r.start := FreeList.nil.mp h₁
    simp only [lastStart_nil, if_true, wp_bind, wp_getGlobal ht.get, Store.setMem_var, hhead,
      wp_check, true_and, wp_setGlobal ht.set]
    exact ⟨hnode, rfl⟩
  · have hq := ht.sees q (by simp)
    have hlink := ht.link q (by simp)
    have happ : ∀ t ∈ l₀ ++ r :: l₂, Apart q.start t.start := fun t ht =>
      Separated.apart (by simpa using hsep) ht
    have hqn : Apart n q.start := hapart q (by simp)
    have hlast : nextAt m₂ q.start = r.start := (hsame _ hqn).next.trans h₁.last_next
    have h₁' : FreeList m₂ (s.var .head) (l₀ ++ [q]) r.start :=
      h₁.frame fun x hx => hsame _ (hapart x (List.mem_append_left _ hx))
    simp only [lastStart_concat, hq.ne_null, if_false, wp_bind, wp_readPtr hq,
      Store.setMem_mem, hlast, wp_check, true_and, wp_writeLink hq hlink]
    refine ⟨h₁'.splice hnode (by unfold Region.stop at hmax; omega)
      (fun t ht => happ t (by simp [ht])) (fun t ht => ?_), rfl⟩
    rcases List.mem_cons.mp ht with rfl | ht
    · exact hqn.symm
    · exact happ t (by simp [ht])

/-- `allockpage` takes the first node that can hold a page. -/
theorem wp_allockpage (hl : FreeList s.mem (s.var .head) (l₁ ++ r :: l₂) 0)
    (hlock : s.lock .heapLock = 0) (hF : F.locks .heapLock) (ht : Takable F l₁ r l₂)
    (hcount : (l₁ ++ r :: l₂).length < loopBound) (hsep : Separated (l₁ ++ r :: l₂))
    (hsmall : ∀ x ∈ l₁, x.len < pageBytes) (hfit : pageBytes ≤ r.len)
    (hmax : r.stop ≤ 18446744073709551616)
    (hnew : r.len ≠ pageBytes → F.Owns .freenode (r.start + pageBytes) 16 ∧
      ∀ x ∈ l₁ ++ l₂, Apart (r.start + pageBytes) x.start) :
    wp F.Allows allockpage s fun page s' =>
      page = r.start ∧ FreeList s'.mem (s'.var .head) (l₁ ++ afterPage r ++ l₂) 0 ∧
        s'.lock = s.lock ∧ ∀ x, r.start ≤ x → x < r.start + headerBytes → s'.mem x = 0 := by
  have hr := ht.node
  have hsize : sizeAt s.mem r.start = r.len := hl.size r (by simp)
  have hw : Walkable F (l₁ ++ r :: l₂) := ⟨ht.sees, hcount⟩
  have hmem : F.Owns .freenode r.start headerBytes := hr
  -- after the node has left the list or moved up, its old record is cleared
  have hclear : ∀ (u : PmmState) (l : List Region),
      FreeList u.mem (u.var .head) l 0 → u.lock = (s.setLock .heapLock 1).lock →
      (∀ x ∈ l, Apart r.start x.start) →
      wp F.Allows (do
        memset0 .freenode r.start headerBytes
        unlock .heapLock
        pure r.start : Code ℕ) u fun page s' =>
        page = r.start ∧ FreeList s'.mem (s'.var .head) l 0 ∧ s'.lock = s.lock ∧
          ∀ x, r.start ≤ x → x < r.start + headerBytes → s'.mem x = 0 := by
    intro u l hu hul happ
    simp only [wp_bind, wp_memset0 hmem, wp_unlock hF, wp_pure]
    refine ⟨trivial, hu.frame fun x hx => .fill ?_, ?_, fun x h₁ h₂ =>
      ByteMemory.fill_inside h₁ h₂⟩
    · have := happ x hx
      unfold Apart at this
      unfold headerBytes
      omega
    · funext k
      simp only [Store.setLock_lock, Store.setMem_lock, hul]
      split_ifs with hk
      · rw [hk, hlock]
      · rfl
  unfold allockpage
  rw [wp_bind, wp_lock hF hlock, wp_bind, wp_getGlobal ht.get, wp_bind]
  refine wp_firstFit hl.path hw.starts (by rw [List.length_map]; exact hcount) ?_
  rw [Store.setLock_mem, walkList_firstFit 0 (fun x hx => hl.size x (by simp [hx])) hsmall hsize
    hfit]
  change wp F.Allows (if r.start ≠ 0 then _ else _) _ _
  rw [if_pos hr.ne_null, wp_bind, wp_readSize hr.toSees, Store.setLock_mem, hsize]
  have hcast : ((r.len : ℤ) = pageBytes) ↔ r.len = pageBytes := by exact_mod_cast Iff.rfl
  have happ : ∀ x ∈ l₁ ++ l₂, Apart r.start x.start := fun x hx => hsep.apart hx
  by_cases hexact : r.len = pageBytes
  · simp only [hcast, if_pos hexact, wp_bind (takeWholeNode _ _)]
    refine wp_post (wp_takeWholeNode (s := s.setLock .heapLock 1) hl ht hsep) ?_
    rintro _ u ⟨hu, hul⟩
    have := hclear u _ hu hul happ
    simpa [afterPage, hexact] using this
  · obtain ⟨hown, hap⟩ := hnew hexact
    simp only [hcast, if_neg hexact]
    rw [wp_bind]
    refine wp_post
      (wp_splitNode (s := s.setLock .heapLock 1) hl ht hsep (by omega) hmax hown hap) ?_
    rintro _ u ⟨hu, hul⟩
    have hupper : Apart r.start (r.start + pageBytes) := .inl (by unfold pageBytes; omega)
    have := hclear u _ hu hul fun x hx => by
      rcases List.mem_append.mp hx with hx | hx
      · exact happ x (by simp [hx])
      · rcases List.mem_cons.mp hx with rfl | hx
        · exact hupper
        · exact happ x (by simp [hx])
    simpa [afterPage, hexact] using this

/-- Without a node that can hold a page, `allockpage` changes nothing. -/
theorem wp_allockpage_none {L : List ℕ} (hpath : Path (nextAt s.mem) (s.var .head) L 0)
    (hsees : ∀ x ∈ L, F.Sees .freenode x 16) (hlen : L.length < loopBound)
    (hlock : s.lock .heapLock = 0) (hF : F.locks .heapLock) (hget : F.gets .head)
    (hsmall : ∀ x ∈ L, sizeAt s.mem x < pageBytes) :
    wp F.Allows allockpage s fun page s' => page = 0 ∧ s' = s := by
  unfold allockpage
  rw [wp_bind, wp_lock hF hlock, wp_bind, wp_getGlobal hget, wp_bind]
  refine wp_firstFit hpath hsees hlen ?_
  rw [Store.setLock_mem, walkList_firstFit_none 0 hsmall]
  simp only [ne_eq, not_true_eq_false, if_false, wp_bind, wp_unlock hF, wp_pure,
    setLock_setLock hlock, and_self]

end Allockpage

section Huge

variable {F : Footprint Struct Global Lock} {s : PmmState} {h : ℕ} {l l₁ l₂ : List Region}
  {q r : Region} {size : ℕ}

/-- `r` is the highest node of `l` that can hold `size` bytes. -/
def HighestFit (l : List Region) (size : ℕ) (r : Region) : Prop :=
  r ∈ l ∧ size ≤ r.len ∧ ∀ t ∈ l, size ≤ t.len → t.start ≤ r.start

/-- The search for the highest fitting node, on addresses. -/
theorem wp_highestFit_at {L : List ℕ} {Q : ℕ → PmmState → Prop}
    (hpath : Path (nextAt s.mem) h L 0) (hsees : ∀ x ∈ L, F.Sees .freenode x 16)
    (hlen : L.length < loopBound)
    (hnone : (∀ x ∈ L, ¬ size ≤ toSize (sizeAt s.mem x)) → Q 0 s)
    (hsome : ∀ x ∈ L, size ≤ toSize (sizeAt s.mem x) →
      (∀ y ∈ L, size ≤ toSize (sizeAt s.mem y) → y ≤ x) → Q x s) :
    wp F.Allows (highestFit size h) s Q := by
  have hpos : ∀ x ∈ L, x ≠ 0 := fun x hx => (hsees x hx).ne_null
  unfold highestFit
  refine wp_walk (nextAt s.mem) (fun x acc => .inl
      (pick (fun x => size ≤ toSize (sizeAt s.mem x)) (· < ·) acc x)) hpath hpos hlen ?_ ?_ ?_
  · intro x hx acc
    rw [wp_bind, wp_readSize (hsees x hx), wp_ite]
    unfold pick
    split_ifs <;> simp only [wp_pure, and_self]
  · intro x hx
    rw [wp_readPtr (hsees x hx)]
    exact ⟨rfl, rfl⟩
  · rw [walkList_foldl]
    obtain ⟨h0, hall⟩ | ⟨hmem, hp, hbest⟩ :=
      foldl_pick (p := fun x => size ≤ toSize (sizeAt s.mem x)) (R := (· < ·)) L hpos
    · rw [h0]
      exact hnone hall
    · exact hsome _ hmem hp fun y hy hfit => not_lt.mp (hbest y hy hfit)

theorem wp_highestFit {Q : ℕ → PmmState → Prop} (hl : FreeList s.mem h l 0)
    (hw : Walkable F l)
    (hnone : (∀ r ∈ l, r.len < size) → Q 0 s)
    (hsome : ∀ r, HighestFit l size r → Q r.start s) :
    wp F.Allows (highestFit size h) s Q := by
  have hsize : ∀ r ∈ l, toSize (sizeAt s.mem r.start) = r.len := by
    intro r hr
    have hb := sizeAt_bounds s.mem r.start
    rw [hl.size r hr] at hb ⊢
    exact toSize_natCast (by omega)
  apply wp_highestFit_at hl.path hw.starts (by rw [List.length_map]; exact hw.len)
  · intro hall
    apply hnone
    intro r hr
    have := hall r.start (List.mem_map_of_mem hr)
    rw [hsize r hr] at this
    omega
  · intro x hx hfit hbest
    obtain ⟨r, hr, rfl⟩ := List.mem_map.mp hx
    rw [hsize r hr] at hfit
    refine hsome r ⟨hr, hfit, fun t ht htfit => ?_⟩
    exact hbest t.start (List.mem_map_of_mem ht) (by rwa [hsize t ht])

/-- What `kallocHugeMemory` leaves of the node it cuts a block from. -/
def beforeBlock (r : Region) (size : ℕ) : Region := ⟨r.start, r.len - size - headerBytes⟩

/-- With room for the block, its header and a node record in front of them,
`kallocHugeMemory` cuts the block off the tail of the highest fitting node. -/
theorem wp_kallocHugeMemory (hl : FreeList s.mem (s.var .head) l 0)
    (hlock : s.lock .heapLock = 0) (hF : F.locks .heapLock) (hget : F.gets .head)
    (howns : ∀ x ∈ l, F.Owns .freenode x.start 16) (hcount : l.length < loopBound)
    (hsep : Separated l) (hpos : 0 < size)
    (hmax : ∀ x ∈ l, x.stop < 18446744073709551616)
    (hroom : ∀ x, HighestFit l size x → size + 32 ≤ x.len)
    (hheader : ∀ x, HighestFit l size x →
      F.Owns .header (x.stop - size - headerBytes) 16 ∧
        ∀ t ∈ l, t ≠ x → Apart (x.stop - size - headerBytes) t.start) :
    wp F.Allows (kallocHugeMemory size) s fun ret s' =>
      s'.lock = s.lock ∧ s'.var = s.var ∧
      ((ret = 0 ∧ s' = s ∧ ∀ r ∈ l, r.len < size) ∨
        ∃ l₁ r l₂, l = l₁ ++ r :: l₂ ∧ HighestFit l size r ∧ ret = r.stop - size ∧
          FreeList s'.mem (s.var .head) (l₁ ++ beforeBlock r size :: l₂) 0 ∧
          sizeAt s'.mem (ret - headerBytes) = size ∧
          wordAt s'.mem (ret - headerBytes) = toWord hugeMagic) := by
  unfold kallocHugeMemory
  rw [wp_bind, wp_lock hF hlock, wp_bind, wp_getGlobal hget, wp_bind]
  refine wp_highestFit (l := l) hl ⟨fun x hx => (howns x hx).toSees, hcount⟩
    (fun hnone => ?_) (fun r hr => ?_)
  · simp only [ne_eq, not_true_eq_false, if_false, wp_bind, wp_unlock hF, wp_pure,
      setLock_setLock hlock, true_and]
    exact .inl hnone
  · obtain ⟨l₁, l₂, rfl⟩ := List.append_of_mem hr.1
    have hown := howns r hr.1
    have hlen : sizeAt s.mem r.start = r.len := hl.size r hr.1
    have hlenmax := (sizeAt_bounds s.mem r.start).2
    have hmax := hmax r hr.1
    have hroom := hroom r hr
    obtain ⟨hhdr, hfar⟩ := hheader r hr
    have hapart : ∀ t ∈ l₁ ++ l₂, Apart r.start t.start := fun t ht => hsep.apart ht
    unfold Region.stop headerBytes at *
    set ret := r.start + r.len - size with hret
    have haddr : subPtr (addPtr r.start (toSize (r.len : ℤ))) size = ret := by
      rw [toSize_natCast (by omega), addPtr_of_lt hmax, subPtr_of_le (by omega) hmax]
    have hheader : subPtr ret 16 = ret - 16 := subPtr_of_le (by omega) (by omega)
    have hrest : subPtr (ret - 16) r.start = r.len - size - 16 := by
      rw [subPtr_of_le (by omega) (by omega)]
      omega
    have hown₂ : Apart (ret - 16) r.start := .inr (by omega)
    have hclear : ∀ t ∈ l₁ ++ beforeBlock r size :: l₂, Apart (ret - 16) t.start := by
      intro t ht
      by_cases hts : t.start = r.start
      · rw [hts]
        exact hown₂
      · refine hfar t ?_ (by rintro rfl; exact hts rfl)
        simp only [List.mem_append, List.mem_cons] at ht ⊢
        rcases ht with h | rfl | h
        · exact .inl h
        · exact absurd rfl hts
        · exact .inr (.inr h)
    have hlist : FreeList (setSizeAt s.mem r.start (r.len - size - 16 : ℕ)) (s.var .head)
        (l₁ ++ beforeBlock r size :: l₂) 0 := hl.resize (by omega) hapart
    simp only [ne_eq, hown.ne_null, not_false_eq_true, if_true, wp_bind, wp_readSize hown.toSees,
      Store.setLock_mem, hlen, haddr, hheader, hrest, wp_writeSize hown, wp_writeSize hhdr,
      wp_writeMagic hhdr, wp_unlock hF, wp_pure, Store.setMem_mem]
    refine ⟨setLock_restore hlock, rfl, .inr ⟨l₁, r, l₂, rfl, hr, rfl, ?_, ?_, ?_⟩⟩
    · exact hlist.frame fun t ht => (SameRecord.setSizeAt (hclear t ht) _).trans
        (.setWordAt (hclear t ht) _)
    · rw [sizeAt_setWordAt, sizeAt_setSizeAt _ _ (by omega) (by omega)]
    · exact wordAt_setWordAt _ _ (toWord_lt _)

end Huge
end KmallocKfree
