import KmallocKfree.PageRelease

/-!
# Freeing a small block

The page branch of `kfree`. The walk over the nodes of a page that is full, or was
full before, runs on into page headers. As long as no header on that walk touches
the freed block, the branch does what it is for: the block joins the free nodes
that touch it.
-/
namespace KmallocKfree

open Prog Region
open ByteMemory (Mem)

/-- What the page branch of `kfree` may touch, and the addresses `T` that the walk
over the page's list visits after its nodes. -/
structure FreeSite (F : Footprint Struct Global Lock) (pg : Page) (t : Region)
    (T : List ℕ) : Prop extends Freeable pg t where
  outside : ∀ q ∈ T, q = pg.base ∨ q + 16 ≤ pg.base ∨ pg.base + pageBytes ≤ q
  nodup : T.Nodup
  count : pg.runs.length + T.length + 1 < loopBound
  header : F.Updates .pageheader pg.base
  nodes : ∀ r ∈ pg.runs, F.Owns .pagefreenode r.start 16
  node : F.Owns .pagefreenode t.start 16
  walk : ∀ q ∈ T, F.Sees .pagefreenode q 16
  bytes : F.Owns .bytes t.start t.len

namespace FreeSite

variable {F : Footprint Struct Global Lock} {pg : Page} {t r a b : Region} {T : List ℕ}

theorem around (h : FreeSite F pg t T) :
    Around pg.runs t T (pg.base + 16) (pg.base + pageBytes) :=
  { h.toFreeable.around with
    outside := fun q hq => by
      have := h.outside q hq
      omega }

theorem apart_walk (h : FreeSite F pg t T) (hr : r ∈ pg.runs) {q : ℕ} (hq : q ∈ T) :
    Apart r.start q := by
  have hout := h.outside q hq
  have hc := h.cls.ge
  have hr' := (h.valid.run r hr).bounds
  unfold Region.stop at hr'
  unfold Apart
  omega

/-- The walk visits no address twice. -/
theorem walk_nodup (h : FreeSite F pg t T) : (pg.runs.map Region.start ++ T).Nodup :=
  (List.nodup_cons.mp (h.toFreeable.walk_nodup h.outside h.nodup)).2

end FreeSite

section Branches

variable {F : Footprint Struct Global Lock} {s : PmmState} {pg : Page} {t a b : Region}
  {T : List ℕ} {e k : ℕ}

theorem Spread.of_starts {base : ℕ} {l l' : List Region} (h : Spread base l)
    (hs : l'.map Region.start = l.map Region.start) : Spread base l' := by
  refine ⟨h.1.of_starts hs, fun r hr => ?_⟩
  have hmem : r.start ∈ l.map Region.start := by
    rw [← hs]
    exact List.mem_map_of_mem hr
  obtain ⟨x, hx, hxr⟩ := List.mem_map.mp hmem
  rw [← hxr]
  exact h.2 x hx

/-- Growing one node does not make another one the head. -/
theorem head?_grow_of_ne (k : ℕ) {l : List Region} (hlt : b.start < a.start) :
    (grow b k l).head? = some a ↔ l.head? = some a := by
  cases l with
  | nil => rfl
  | cons r l =>
    change some (if r = b then (⟨r.start, r.len + k⟩ : Region) else r) = some a ↔ some r = some a
    split_ifs with hrb
    · subst hrb
      constructor
      · intro h
        cases h
        exact absurd hlt (lt_irrefl _)
      · intro h
        cases h
        exact absurd hlt (lt_irrefl _)
    · rfl

/-- Deleting the upper neighbour from the list in which the lower one has grown. -/
theorem wp_pageUnlink (h : FreeSite F pg t T) (hb : b ∈ pg.runs) (ha : a ∈ pg.runs)
    (hlt : b.start < a.start) (hl : PageList s.mem pg.base pg.cls (grow b k pg.runs) e)
    (hT : Path (nextAt s.mem) e T 0) :
    wp F.Allows (pageUnlink pg.base b.start a.start) s fun _ s' =>
      PageList s'.mem pg.base pg.cls
        (if pg.runs.head? = some a then
          (grow b k pg.runs).dropWhile fun r => decide (r.start ≠ b.start)
        else (grow b k pg.runs).erase a) e ∧
        nextAt s'.mem pg.base = nextAt s.mem pg.base ∧ s'.var = s.var ∧ s'.lock = s.lock := by
  have hne : a ≠ b := by rintro rfl; omega
  have hstarts := grow_starts b k pg.runs
  have hspread : Spread pg.base (grow b k pg.runs) := h.valid.spread.of_starts hstarts
  have hmem : ∀ r ∈ grow b k pg.runs, ∃ x ∈ pg.runs, r.start = x.start := fun r hr =>
    exists_of_mem_grow hr
  have hown : ∀ r ∈ grow b k pg.runs, F.Owns .pagefreenode r.start 16 := by
    intro r hr
    obtain ⟨x, hx, hrx⟩ := hmem r hr
    rw [hrx]
    exact h.nodes x hx
  have hblock : ∀ r ∈ grow b k pg.runs, AtBlock pg.base pg.cls r.start := by
    intro r hr
    obtain ⟨x, hx, hrx⟩ := hmem r hr
    rw [hrx]
    exact h.atBlock hx
  have hnil : grow b k pg.runs ≠ [] := List.ne_nil_of_mem (mem_grow_of_ne k ha hne)
  obtain ⟨l₁, l₂, hsplit⟩ := List.append_of_mem (mem_grow_of_ne k ha hne)
  have hb' : (⟨b.start, b.len + k⟩ : Region) ∈ grow b k pg.runs :=
    List.mem_map.mpr ⟨b, hb, if_pos rfl⟩
  have hhead : pg.runs.head? = some a ↔ l₁ = [] := by
    rw [← head?_grow_of_ne k hlt, hsplit]
    cases l₁ with
    | nil => simp
    | cons x l₁ =>
      have hxa : x ≠ a := by
        rintro rfl
        have hnd := hspread.1.nodup_list
        rw [hsplit] at hnd
        simp at hnd
      simpa using hxa
  have hwalk := hl.walk (T := T) (by rwa [endOf, if_neg hnil])
  have hnd : ((grow b k pg.runs).map Region.start ++ T).Nodup := by
    rw [hstarts]
    exact h.walk_nodup
  have hsees : ∀ x ∈ (grow b k pg.runs).map Region.start ++ T, F.Sees .pagefreenode x 16 :=
    List.forall_mem_append.mpr ⟨sees_starts hown, h.walk⟩
  have hlen : ((grow b k pg.runs).map Region.start ++ T).length < loopBound := by
    rw [List.length_append, List.length_map, grow_length]
    have := h.count
    omega
  unfold pageUnlink
  rw [wp_bind, wp_freeListHead hl h.cls h.valid.max hblock h.header.toSees, wp_bind]
  rw [hsplit, List.map_append, List.map_cons, List.append_assoc, List.cons_append]
    at hwalk hnd hsees hlen
  rw [hsplit] at hl hspread hown ⊢
  refine wp_predecessor_before hwalk hnd hsees hlen ?_
  rcases List.eq_nil_or_concat' l₁ with rfl | ⟨l₀, q, rfl⟩
  · have hzero : (List.map Region.start ([] : List Region)).getLastD 0 = 0 := rfl
    rw [hzero, if_neg (by simp), wp_setFreeListHead hl.size h.cls h.valid.max
      (h.atBlock hb) h.header, if_pos (hhead.mpr rfl)]
    obtain ⟨u, v, huv⟩ := List.append_of_mem hb'
    rw [hsplit] at huv
    rw [huv] at hl hspread ⊢
    have hu : ∀ x ∈ u, x.start ≠ b.start := by
      intro x hx heq
      have := hspread.1.apart (t := x) (by simp [hx])
      unfold Apart at this
      simp only at this
      omega
    have hdrop : (u ++ ⟨b.start, b.len + k⟩ :: v).dropWhile (fun r => decide (r.start ≠ b.start)) =
        ⟨b.start, b.len + k⟩ :: v := @dropWhile_split u v ⟨b.start, b.len + k⟩ hu
    rw [hdrop]
    exact ⟨hl.restart hspread ((h.atBlock hb).index (by have := h.cls.ge; omega)).2.2,
      nextAt_setWordAt _ _ _, rfl, rfl⟩
  · have hno : pg.runs.head? ≠ some a := fun h => by simpa using hhead.mp h
    have hq := hown q (by simp)
    have hlast : ((l₀ ++ [q]).map Region.start).getLastD 0 = q.start := lastStart_concat l₀ q
    rw [hlast, if_pos hq.ne_null]
    simp only [wp_bind, wp_readPtr (h.nodes a ha).toSees, wp_writePtr hq, Store.setMem_mem,
      if_neg hno]
    rw [List.append_assoc, List.singleton_append] at hl hspread
    have herase : (l₀ ++ [q] ++ a :: l₂).erase a = l₀ ++ q :: l₂ := by
      rw [erase_split (by simpa using hspread.1.nodup_list), List.append_assoc,
        List.singleton_append]
    rw [herase]
    exact ⟨hl.unlink hspread, (SameRecord.setNextAt (hspread.2 q (by simp)).symm _).next, rfl, rfl⟩

/-- The list of the page ends where the walk left the nodes when `t` was pushed. -/
theorem Page.tail_released (pg : Page) (l : List Region) :
    ({ pg with runs := l, looped := pg.looped || pg.runs.isEmpty } : Page).tail =
      endOf pg.base pg.runs pg.tail := by
  unfold Page.tail endOf
  cases pg.runs <;> cases pg.looped <;> rfl

/-- Memory `m` holds the page after block `t` was freed. The nodes of a page that became
empty are still in place behind its header. -/
structure Released (m : Mem) (pg : Page) (t : Region) : Prop where
  size : sizeAt m pg.base = (pg.freed t).cls
  index : wordAt m pg.base = indexOf pg.base pg.cls (pg.release t)
  list : ∃ a, FreeList m a (pg.release t) (endOf pg.base pg.runs pg.tail)
  magic : ∀ r ∈ pg.release t, wordAt m r.start = toWord pageMagic

theorem Page.freed_cls (pg : Page) (t : Region) :
    (pg.freed t).cls = if (joined t pg.runs).len = pageBytes - pg.cls then 0 else pg.cls := by
  unfold Page.freed
  split_ifs <;> rfl

theorem released_of_list {m : Mem} (hne : (joined t pg.runs).len ≠ pageBytes - pg.cls)
    (hl : PageList m pg.base pg.cls (pg.release t) (endOf pg.base pg.runs pg.tail)) :
    Released m pg t where
  size := by rw [Page.freed_cls, if_neg hne, hl.size]
  index := hl.index
  list := hl.list
  magic := hl.magic

/-- The page after block `t` was freed, as the shape has it. -/
theorem Released.repr (h : Freeable pg t) {m : Mem} (hm : Released m pg t) :
    (pg.freed t).Repr m := by
  have hc := h.cls.ge
  by_cases hall : (joined t pg.runs).len = pageBytes - pg.cls
  · have hsize := hm.size
    rw [Page.freed_cls, if_pos hall] at hsize
    rw [Page.freed, if_pos hall]
    have hindex := h.index_of_all hall (List.ne_nil_of_mem h.joined_mem_release)
    exact ⟨hsize, hm.index.trans hindex, ⟨_, FreeList.nil.mpr rfl⟩, by simp⟩
  · have hsize := hm.size
    rw [Page.freed_cls, if_neg hall] at hsize
    rw [Page.freed, if_neg hall]
    refine (@Page.repr_iff m { pg with
      runs := pg.release t, looped := pg.looped || pg.runs.isEmpty } (by
        change pg.cls ≠ 0
        omega)).mpr ?_
    rw [Page.tail_released]
    exact ⟨hsize, hm.index, hm.list, hm.magic⟩

/-- The page is marked empty when the joined node is all of it. -/
theorem wp_markFreed (h : FreeSite F pg t T)
    (hl : PageList s.mem pg.base pg.cls (pg.release t) (endOf pg.base pg.runs pg.tail))
    (hj : joined t pg.runs ∈ pg.release t)
    (hsees : F.Sees .pagefreenode (joined t pg.runs).start 16) :
    wp F.Allows (markIfEmpty pg.base (joined t pg.runs).start) s fun _ s' =>
      Released s'.mem pg t ∧ nextAt s'.mem pg.base = nextAt s.mem pg.base ∧
        s'.var = s.var ∧ s'.lock = s.lock := by
  have hc := h.cls.ge
  have hcle := h.cls.le
  have hpb : pageBytes = 65536 := rfl
  obtain ⟨x, hx⟩ := hl.list
  have hcast : ((joined t pg.runs).len : ℤ) = (pageBytes : ℤ) - pg.cls ↔
      (joined t pg.runs).len = pageBytes - pg.cls := by omega
  have hapart : ∀ r ∈ pg.release t, Apart pg.base r.start := by
    intro r hr
    have hrun := (h.release_isRun hr).bounds
    unfold Apart
    omega
  rw [wp_markIfEmpty hl.size hsees h.header, hx.size _ hj]
  split_ifs with hall
  · rw [hcast] at hall
    refine ⟨⟨?_, ?_, ⟨x, hx.frame fun r hr => .setSizeAt (hapart r hr) _⟩, ?_⟩,
      nextAt_setSizeAt _ _ _, rfl, rfl⟩
    · rw [Page.freed_cls, if_pos hall]
      exact sizeAt_setSizeAt _ _ (by omega) (by omega)
    · exact (wordAt_setSizeAt _ _ _).trans hl.index
    · exact fun r hr => (SameRecord.setSizeAt (hapart r hr) _).word.trans (hl.magic r hr)
  · exact ⟨released_of_list (fun h' => hall (hcast.mpr h')) hl, rfl, rfl, rfl⟩

theorem wp_mergeBefore (h : FreeSite F pg t T) (hb : touchingBelow pg.runs t = some b)
    (hl : PageList s.mem pg.base pg.cls pg.runs pg.tail)
    (hT : Path (nextAt s.mem) (endOf pg.base pg.runs pg.tail) T 0) {x : ℕ}
    (hx : (∃ a, touchingAbove pg.runs t = some a ∧ x = a.start ∧ t.stop = x) ∨
      (touchingAbove pg.runs t = none ∧ t.stop ≠ x)) :
    wp F.Allows (mergeBefore pg.base t.start b.start x) s fun _ s' =>
      Released s'.mem pg t ∧ nextAt s'.mem pg.base = nextAt s.mem pg.base ∧
        s'.var = s.var ∧ s'.lock = s.lock := by
  obtain ⟨hbm, hbt⟩ := touchingBelow_some hb
  have hbown := h.nodes b hbm
  have hspread := h.valid.spread
  have hne : pg.runs ≠ [] := List.ne_nil_of_mem hbm
  have hend : endOf pg.base pg.runs pg.tail = pg.tail := if_neg hne
  have hbb := (h.valid.run b hbm).bounds
  have htb := h.start_bounds
  have hcle := h.cls.le
  have hpb : pageBytes = 65536 := rfl
  have hmax := h.valid.max
  have hlen := h.len
  obtain ⟨y, hy⟩ := hl.list
  have hbsize : sizeAt s.mem b.start = b.len := hy.size b hbm
  unfold Region.stop at hbb htb
  have hcast : (b.len : ℤ) + pg.cls = ((b.len + t.len : ℕ) : ℤ) := by omega
  have hgrow : PageList (setSizeAt s.mem b.start ((b.len + t.len : ℕ) : ℤ)) pg.base pg.cls
      (grow b t.len pg.runs) pg.tail :=
    PageList.regrow (k := 0) (by rwa [grow_zero]) hspread hbm (by omega)
  have htoSize : toSize (pg.cls : ℤ) = pg.cls := toSize_natCast (by omega)
  have hstop : addPtr t.start pg.cls = t.stop := by
    rw [← hlen]
    exact addPtr_of_lt (by omega)
  have hbase : SameRecord s.mem (setSizeAt s.mem b.start ((b.len + t.len : ℕ) : ℤ)) pg.base :=
    .setSizeAt (hspread.2 b hbm).symm _
  unfold mergeBefore
  simp only [wp_bind, wp_readSize hbown.toSees, hbsize, wp_readSize h.header.toSees, hl.size,
    hcast, wp_writeSize hbown, Store.setMem_mem, hgrow.size, htoSize, hstop, wp_ite]
  rcases hx with ⟨a, ha, rfl, heq⟩ | ⟨hnone, hne'⟩
  · rw [if_pos heq]
    obtain ⟨ham, hat⟩ := touchingAbove_some ha
    have hlt := h.below_lt_above hb ha
    have hba : a ≠ b := by rintro rfl; omega
    have haown := h.nodes a ham
    have hab := (h.valid.run a ham).bounds
    unfold Region.stop at hab
    have hapart : Apart b.start a.start := by
      obtain ⟨u, v, huv⟩ := List.append_of_mem hbm
      have hsep := hspread.1
      rw [huv] at hsep ham
      exact hsep.apart (by simpa [hba] using ham)
    have hasize : sizeAt (setSizeAt s.mem b.start ((b.len + t.len : ℕ) : ℤ)) a.start = a.len :=
      (SameRecord.setSizeAt hapart _).size.trans (hy.size a ham)
    have hbsize' : sizeAt (setSizeAt s.mem b.start ((b.len + t.len : ℕ) : ℤ)) b.start =
        ((b.len + t.len : ℕ) : ℤ) := sizeAt_setSizeAt _ _ (by omega) (by omega)
    have hcast' : ((b.len + t.len : ℕ) : ℤ) + a.len = ((b.len + (t.len + a.len) : ℕ) : ℤ) := by
      push_cast
      omega
    have hgrow' := hgrow.regrow hspread hbm (n := t.len + a.len) (by omega)
    simp only [wp_readSize haown.toSees, hasize, hbsize', Store.setMem_mem, hcast']
    set m := setSizeAt (setSizeAt s.mem b.start ((b.len + t.len : ℕ) : ℤ)) b.start
      ((b.len + (t.len + a.len) : ℕ) : ℤ) with hm
    have hmbase : SameRecord s.mem m pg.base :=
      hbase.trans (.setSizeAt (hspread.2 b hbm).symm _)
    have hrel : pg.release t = if pg.runs.head? = some a then
        (grow b (t.len + a.len) pg.runs).dropWhile fun r => decide (r.start ≠ b.start)
        else (grow b (t.len + a.len) pg.runs).erase a := by simp only [Page.release, hb, ha]
    have hjoin : joined t pg.runs = ⟨b.start, b.len + (t.len + a.len)⟩ := by
      simp only [joined, hb, ha]
    refine wp_post (wp_pageUnlink (s := (s.setMem _).setMem m) h hbm ham hlt hgrow' ?_) ?_
    · rw [hend] at hT
      exact hT.congr fun q hq => ((SameRecord.setSizeAt (h.apart_walk hbm hq) _).trans
        (.setSizeAt (h.apart_walk hbm hq) _)).next
    · rintro _ v ⟨hv, hvnext, hvvar, hvlock⟩
      rw [← hrel] at hv
      have hmark := wp_markFreed (s := v) h (by rw [hend]; exact hv)
        h.joined_mem_release (by rw [hjoin]; exact hbown.toSees)
      rw [hjoin] at hmark
      exact wp_post hmark fun _ w hw => ⟨hw.1, hw.2.1.trans (hvnext.trans hmbase.next),
        hw.2.2.1.trans hvvar, hw.2.2.2.trans hvlock⟩
  · rw [if_neg hne']
    have hrel : pg.release t = grow b t.len pg.runs := by simp only [Page.release, hb, hnone]
    have hjoin : joined t pg.runs = ⟨b.start, b.len + t.len⟩ := by simp only [joined, hb, hnone]
    have hmark := wp_markFreed (s := s.setMem (setSizeAt s.mem b.start ((b.len + t.len : ℕ) : ℤ))) h
      (by rw [hrel, hend]; exact hgrow) h.joined_mem_release
      (by rw [hjoin]; exact hbown.toSees)
    rw [hjoin] at hmark
    exact wp_post hmark fun _ v hv => ⟨hv.1, hv.2.1.trans hbase.next, hv.2.2⟩

/-- Pushing a node changes no link that the rest of the walk follows. -/
theorem pushMem_next (h : FreeSite F pg t T) (m : Mem) (n x : ℕ) {q : ℕ}
    (hq : q = pg.base ∨ q ∈ T) :
    nextAt (pushMem m pg.base pg.cls t.start n x) q = nextAt m q := by
  have hout : q = pg.base ∨ q + 16 ≤ pg.base ∨ pg.base + pageBytes ≤ q :=
    hq.elim .inl (h.outside q)
  have hb := h.start_bounds
  have hc := h.cls.ge
  have hle := h.cls.le
  have hlen := h.len
  have hpb : pageBytes = 65536 := rfl
  unfold Region.stop at hb
  have hapart : Apart t.start q := by
    unfold Apart
    omega
  have hsame := ((SameRecord.setWordAt (m := m) hapart (toWord pageMagic)).trans
    (.setSizeAt hapart n)).trans (.setNextAt hapart x)
  unfold pushMem
  by_cases hqb : q = pg.base
  · subst hqb
    rw [nextAt_setWordAt]
    exact hsame.next
  · have hbq : Apart pg.base q := by
      unfold Apart
      omega
    exact (SameRecord.setWordAt hbq _).next.trans hsame.next

/-- The writes that make `t` the first node of the list. -/
theorem FreeSite.push (h : FreeSite F pg t T) {m : Mem} {n : ℕ} (hn : n < 2147483648)
    (hl : PageList m pg.base pg.cls pg.runs pg.tail) :
    PageList (pushMem m pg.base pg.cls t.start n (headOf pg.base pg.runs)) pg.base pg.cls
      (⟨t.start, n⟩ :: pg.runs) (endOf pg.base pg.runs pg.tail) := by
  have hc := h.cls.ge
  have hmax := h.valid.max
  refine hl.push h.valid.spread (fun r hr => h.apart_node hr) h.apart_base hn
    (h.block.index (by omega)).2.2 ?_
  cases hr : pg.runs with
  | nil => exact lt_of_le_of_lt (Nat.le_add_right _ _) hmax
  | cons r l =>
    have := (h.valid.run r (by rw [hr]; simp)).bounds
    unfold Region.stop at this
    change r.start < _
    omega

/-- The lines of `pushNode` and `mergeAfter` that link the block in, once its magic is set and
its size is known. -/
theorem wp_linkFirst (h : FreeSite F pg t T) {β : Type} {f : ℕ → Code β}
    (hl : PageList s.mem pg.base pg.cls pg.runs pg.tail) (n : ℕ) (Q : β → PmmState → Prop) :
    wp F.Allows (do
        Pagefreenode.setSize t.start n
        let oldpfhead ← freeListHead pg.base
        Pagefreenode.setNext t.start oldpfhead
        setFreeListHead pg.base t.start
        let index ← Pageheader.pagefreeheadIndex pg.base
        f index) (s.setMem (setWordAt s.mem t.start (toWord pageMagic))) Q ↔
      wp F.Allows (f ((t.start - pg.base) / pg.cls)) (s.setMem
        (pushMem s.mem pg.base pg.cls t.start n (headOf pg.base pg.runs))) Q := by
  have hc := h.cls.ge
  have hframe : PageList (setSizeAt (setWordAt s.mem t.start (toWord pageMagic)) t.start n)
      pg.base pg.cls pg.runs pg.tail :=
    hl.frame ((SameRecord.setWordAt h.apart_base _).trans (.setSizeAt h.apart_base _))
      fun r hr => (SameRecord.setWordAt (h.apart_node hr) _).trans (.setSizeAt (h.apart_node hr) _)
  have hsize : sizeAt (setNextAt (setSizeAt (setWordAt s.mem t.start (toWord pageMagic)) t.start
      n) t.start (headOf pg.base pg.runs)) pg.base = pg.cls :=
    (SameRecord.setNextAt h.apart_base _).size.trans hframe.size
  have hmem : setWordAt (setNextAt (setSizeAt (setWordAt s.mem t.start (toWord pageMagic)) t.start
      n) t.start (headOf pg.base pg.runs)) pg.base ((t.start - pg.base) / pg.cls) =
      pushMem s.mem pg.base pg.cls t.start n (headOf pg.base pg.runs) := rfl
  have hword : wordAt (pushMem s.mem pg.base pg.cls t.start n (headOf pg.base pg.runs))
      pg.base = (t.start - pg.base) / pg.cls :=
    wordAt_setWordAt _ _ (h.block.index (show 0 < pg.cls by omega)).2.2
  simp only [wp_bind, wp_writeSize h.node, Store.setMem_mem]
  rw [wp_freeListHead hframe h.cls h.valid.max (fun r hr => h.atBlock hr) h.header.toSees]
  simp only [wp_writePtr h.node, Store.setMem_mem]
  rw [wp_setFreeListHead (c := pg.cls) hsize h.cls h.valid.max h.block h.header]
  simp only [wp_readWord h.header.toSees, Store.setMem_mem, hmem, hword]
  rfl

theorem wp_pushNode_mem (h : FreeSite F pg t T)
    (hl : PageList s.mem pg.base pg.cls pg.runs pg.tail) (Q : Unit → PmmState → Prop) :
    wp F.Allows (pushNode pg.base t.start) s Q ↔ Q () (s.setMem
      (pushMem s.mem pg.base pg.cls t.start t.len (headOf pg.base pg.runs))) := by
  have hc := h.cls.ge
  have hsize : sizeAt (setWordAt s.mem t.start (toWord pageMagic)) pg.base = pg.cls :=
    (SameRecord.setWordAt h.apart_base _).size.trans hl.size
  have hindex := h.block.index (show 0 < pg.cls by omega)
  rw [pushNode, wp_bind, wp_writeMagic h.node, wp_bind, wp_readSize h.header.toSees,
    Store.setMem_mem, hsize, wp_linkFirst h hl, wp_check, h.len]
  exact ⟨fun hQ => hQ.2, fun hQ => ⟨hindex.2.1, hQ⟩⟩

/-- `mergeAfter` puts the block in front of the list, and then unlinks the node that it takes
in. -/
theorem wp_mergeAfter_mem (h : FreeSite F pg t T)
    (hl : PageList s.mem pg.base pg.cls pg.runs pg.tail) {a d n : ℕ}
    (hsees : F.Sees .pagefreenode a 16) (hapart : Apart t.start a) (hd : sizeAt s.mem a = (d : ℤ))
    (hn : pg.cls + d = n) (hlt : n < 2147483648) (Q : Unit → PmmState → Prop) :
    wp F.Allows (mergeAfter pg.base t.start a) s Q ↔
      wp F.Allows (do
          let h ← predecessor Pagefreenode.next a t.start
          let rest ← Pagefreenode.next a
          Pagefreenode.setNext h rest
          markIfEmpty pg.base t.start) (s.setMem
        (pushMem s.mem pg.base pg.cls t.start n (headOf pg.base pg.runs))) Q := by
  have hc := h.cls.ge
  have hsize : sizeAt (setWordAt s.mem t.start (toWord pageMagic)) pg.base = pg.cls :=
    (SameRecord.setWordAt h.apart_base _).size.trans hl.size
  have hasize : sizeAt (setWordAt s.mem t.start (toWord pageMagic)) a = d :=
    (SameRecord.setWordAt hapart _).size.trans hd
  have hcast : (pg.cls : ℤ) + d = (n : ℤ) := by omega
  have hindex := h.block.index (show 0 < pg.cls by omega)
  have hblock : ∀ r ∈ (⟨t.start, n⟩ : Region) :: pg.runs, AtBlock pg.base pg.cls r.start := by
    intro r hr
    rcases List.mem_cons.mp hr with rfl | hr
    · exact h.block
    · exact h.atBlock hr
  rw [mergeAfter, wp_bind, wp_writeMagic h.node, wp_bind, wp_readSize h.header.toSees,
    Store.setMem_mem, hsize, wp_bind, wp_readSize hsees, Store.setMem_mem, hasize, hcast,
    wp_linkFirst h hl, wp_bind, wp_check, wp_bind,
    wp_freeListHead (h.push hlt hl) h.cls h.valid.max hblock h.header.toSees]
  exact ⟨fun hQ => hQ.2, fun hQ => ⟨hindex.2.1, hQ⟩⟩

theorem wp_pushNode (h : FreeSite F pg t T) (hb : touchingBelow pg.runs t = none)
    (ha : touchingAbove pg.runs t = none)
    (hl : PageList s.mem pg.base pg.cls pg.runs pg.tail) :
    wp F.Allows (pushNode pg.base t.start) s fun _ s' =>
      Released s'.mem pg t ∧ nextAt s'.mem pg.base = nextAt s.mem pg.base ∧
        s'.var = s.var ∧ s'.lock = s.lock := by
  have hc := h.cls.ge
  have hcle := h.cls.le
  have hpb : pageBytes = 65536 := rfl
  have hrel : pg.release t = t :: pg.runs := by simp only [Page.release, hb, ha]
  have hjoin : joined t pg.runs = t := by simp only [joined, hb, ha]
  have hpush := h.push (n := t.len) (by have := h.len; omega) hl
  rw [wp_pushNode_mem h hl]
  refine ⟨released_of_list ?_ ?_, pushMem_next h _ _ _ (.inl rfl), rfl, rfl⟩
  · rw [hjoin, h.len]
    omega
  · rw [hrel]
    exact hpush

theorem wp_mergeAfter (h : FreeSite F pg t T) (hb : touchingBelow pg.runs t = none)
    (ha : touchingAbove pg.runs t = some a)
    (hl : PageList s.mem pg.base pg.cls pg.runs pg.tail)
    (hT : Path (nextAt s.mem) (endOf pg.base pg.runs pg.tail) T 0) :
    wp F.Allows (mergeAfter pg.base t.start a.start) s fun _ s' =>
      Released s'.mem pg t ∧ nextAt s'.mem pg.base = nextAt s.mem pg.base ∧
        s'.var = s.var ∧ s'.lock = s.lock := by
  have hc := h.cls.ge
  have hpb : pageBytes = 65536 := rfl
  have hmax := h.valid.max
  obtain ⟨ham, hat⟩ := touchingAbove_some ha
  have hab := (h.valid.run a ham).bounds
  unfold Region.stop at hab
  have haown := h.nodes a ham
  have htb := h.start_bounds
  have hlen := h.len
  set n := t.len + a.len with hn
  set new : Region := ⟨t.start, n⟩ with hnew
  have hrel : pg.release t = new :: pg.runs.erase a := by simp only [Page.release, hb, ha, hnew, hn]
  have hjoin : joined t pg.runs = new := by simp only [joined, hb, ha, hnew, hn]
  have hpush := h.push (n := n) (by unfold Region.stop at htb; omega) hl
  obtain ⟨y, hy⟩ := hl.list
  set m := pushMem s.mem pg.base pg.cls t.start n (headOf pg.base pg.runs) with hm
  have hown : ∀ r ∈ new :: pg.runs, F.Owns .pagefreenode r.start 16 := by
    intro r hr
    rcases List.mem_cons.mp hr with rfl | hr
    · exact h.node
    · exact h.nodes r hr
  have hspread : Spread pg.base (new :: pg.runs) := by
    refine ⟨List.pairwise_cons.mpr ⟨fun r hr => h.apart_node hr, h.valid.spread.1⟩, ?_⟩
    intro r hr
    rcases List.mem_cons.mp hr with rfl | hr
    · exact h.apart_base.symm
    · exact h.valid.spread.2 r hr
  have hnd : ((new :: pg.runs).map Region.start ++ T).Nodup := by
    rw [List.map_cons, List.cons_append]
    exact h.toFreeable.walk_nodup h.outside h.nodup
  have hwalk := hpush.walk (T := T) (by
    rw [endOf, if_neg (by simp)]
    exact hT.congr fun q hq => pushMem_next h _ _ _ (.inr hq))
  rw [wp_mergeAfter_mem h hl haown.toSees (h.apart_node ham) (hy.size a ham)
    (show pg.cls + a.len = n by omega) (by omega), ← hm, wp_bind]
  obtain ⟨l₀, q, l₂, hsplit, herase⟩ := exists_before (r := new) ham h.valid.separated.nodup_list
  have hqown := hown q (by rw [hsplit]; simp)
  have hlast : ((l₀ ++ [q]).map Region.start).getLastD 0 = q.start := lastStart_concat l₀ q
  have hstarts : (new :: pg.runs).map Region.start ++ T =
      (l₀ ++ [q]).map Region.start ++ a.start :: (l₂.map Region.start ++ T) := by
    rw [hsplit, List.map_append, List.map_cons, List.append_assoc, List.cons_append]
  have hsees : ∀ x ∈ (new :: pg.runs).map Region.start ++ T, F.Sees .pagefreenode x 16 :=
    List.forall_mem_append.mpr ⟨sees_starts hown, h.walk⟩
  have hlen' : ((new :: pg.runs).map Region.start ++ T).length < loopBound := by
    have := h.count
    rw [List.length_append, List.length_map, List.length_cons]
    omega
  rw [hstarts] at hwalk hnd hsees hlen'
  refine wp_predecessor_before hwalk hnd hsees hlen' ?_
  rw [hlast]
  simp only [wp_bind, wp_readPtr haown.toSees, wp_writePtr hqown, Store.setMem_mem]
  rw [hsplit, List.append_assoc, List.singleton_append] at hpush hspread
  have hunlink := hpush.unlink hspread
  have hqbase : SameRecord m (setNextAt m q.start (nextAt m a.start)) pg.base :=
    .setNextAt (hspread.2 q (by simp)).symm _
  have hmark := wp_markFreed (s := s.setMem (setNextAt m q.start (nextAt m a.start))) h
    (by rw [hrel, herase]; exact hunlink) h.joined_mem_release (by rw [hjoin]; exact h.node.toSees)
  rw [hjoin] at hmark
  exact wp_post hmark fun _ v hv => ⟨hv.1, hv.2.1.trans (hqbase.next.trans
    (pushMem_next h _ _ _ (.inl rfl))), hv.2.2⟩

/-- Clearing the freed block touches no record. -/
theorem FreeSite.fill (h : FreeSite F pg t T) {q : ℕ} (m : Mem)
    (hq : (∃ r ∈ pg.runs, r.start = q) ∨ q = pg.base ∨ q ∈ T) :
    SameRecord m (ByteMemory.fill m t.start t.len 0) q := by
  have hb := h.start_bounds
  have hc := h.cls.ge
  refine .fill ?_
  unfold Region.stop at hb
  rcases hq with ⟨r, hr, rfl⟩ | rfl | hq
  · have hd := h.apart r hr
    have hr' := (h.valid.run r hr).bounds
    unfold Disj Region.stop at hd
    omega
  · omega
  · have hout := h.outside q hq
    omega

/-- The page branch of `kfree`, when no header on the walk touches the block. -/
theorem wp_kfreePage_released {cpu : ℕ} (h : FreeSite F pg t T)
    (hl : PageList s.mem pg.base pg.cls pg.runs pg.tail)
    (hT : Path (nextAt s.mem) (endOf pg.base pg.runs pg.tail) T 0)
    (hbelow : ∀ q ∈ T, stopAt s.mem q ≠ t.start) (habove : ∀ q ∈ T, q ≠ t.stop)
    (hF : F.locks (.pagelist cpu)) :
    wp F.Allows (kfreePage cpu pg.base t.start) s fun _ s' =>
      Released s'.mem pg t ∧ nextAt s'.mem pg.base = nextAt s.mem pg.base ∧
        s'.var = s.var ∧ s'.lock = (s.setLock (.pagelist cpu) 0).lock := by
  have hc := h.cls.ge
  have hcle := h.cls.le
  have hmax := h.valid.max
  have htoSize : toSize (pg.cls : ℤ) = t.len := by
    rw [h.len]
    exact toSize_natCast (by omega)
  have htb := h.start_bounds
  have hstop : addPtr t.start t.len = t.stop := by
    unfold Region.stop at *
    exact addPtr_of_lt (by omega)
  set u := s.setMem (ByteMemory.fill s.mem t.start t.len 0) with hu
  have hlu : PageList u.mem pg.base pg.cls pg.runs pg.tail :=
    hl.frame (h.fill s.mem (.inr (.inl rfl))) fun r hr => h.fill s.mem (.inl ⟨r, hr, rfl⟩)
  have hTu : Path (nextAt u.mem) (endOf pg.base pg.runs pg.tail) T 0 :=
    hT.congr fun q hq => (h.fill s.mem (.inr (.inr hq))).next
  have hbase : nextAt u.mem pg.base = nextAt s.mem pg.base :=
    (h.fill s.mem (.inr (.inl rfl))).next
  have hsees : ∀ x ∈ pg.runs.map Region.start ++ T, F.Sees .pagefreenode x 16 :=
    List.forall_mem_append.mpr ⟨sees_starts h.nodes, h.walk⟩
  have hlen : (pg.runs.map Region.start ++ T).length < loopBound := by
    have := h.count
    rw [List.length_append, List.length_map]
    omega
  have hstopAt : ∀ r ∈ pg.runs, stopAt u.mem r.start = r.stop := by
    intro r hr
    obtain ⟨x, hx⟩ := hlu.list
    have hrb := (h.valid.run r hr).bounds
    exact hx.stopAt_eq hr (by omega)
  have hbelow' : ∀ q ∈ T, stopAt u.mem q ≠ t.start := by
    intro q hq
    have hsize : sizeAt u.mem q = sizeAt s.mem q := (h.fill s.mem (.inr (.inr hq))).size
    rw [stopAt, hsize]
    exact hbelow q hq
  -- every branch ends with the release of the lock
  have hdone : ∀ v : PmmState, (Released v.mem pg t ∧
      nextAt v.mem pg.base = nextAt u.mem pg.base ∧ v.var = u.var ∧ v.lock = u.lock) →
      wp F.Allows (unlock (.pagelist cpu)) v fun _ s' =>
        Released s'.mem pg t ∧ nextAt s'.mem pg.base = nextAt s.mem pg.base ∧
          s'.var = s.var ∧ s'.lock = (s.setLock (.pagelist cpu) 0).lock := by
    rintro v ⟨hrepr, hnext, hvar, hlock⟩
    rw [wp_unlock hF]
    refine ⟨hrepr, hnext.trans hbase, hvar, ?_⟩
    simp only [Store.setLock, hlock, hu, Store.setMem_lock]
  unfold kfreePage
  simp only [wp_bind, wp_readSize h.header.toSees, hl.size, htoSize, wp_memset0 h.bytes]
  rw [← hu, wp_freeListHead hlu h.cls hmax (fun r hr => h.atBlock hr) h.header.toSees]
  refine wp_neighbours (hlu.walk hTu) hsees hlen fun b' a' hb' ha' => ?_
  have hbelow_cases := h.around.below_cases hstopAt hbelow' hb'
  have habove_cases := h.around.above_cases habove ha'
  refine wp_endsAt (fun hp => ?_) ?_
  · rcases hb' with ⟨rfl, -⟩ | ⟨hmem, -⟩
    · exact absurd rfl hp
    · exact hsees b' hmem
  rcases hbelow_cases with ⟨b, hb, rfl⟩ | ⟨hnone, hne⟩
  · obtain ⟨hbm, hbt⟩ := touchingBelow_some hb
    have hmerge : b.start ≠ 0 ∧ stopAt u.mem b.start = t.start :=
      ⟨(h.nodes b hbm).ne_null, (hstopAt b hbm).trans hbt⟩
    simp only [hmerge, ne_eq, not_false_eq_true, and_self, decide_true, if_true, wp_bind]
    exact wp_post (wp_mergeBefore h hb hlu hTu habove_cases) fun _ v hv => hdone v hv
  · have hmerge : ¬ (b' ≠ 0 ∧ stopAt u.mem b' = t.start) := fun h => hne.elim h.1 fun h' => h' h.2
    simp only [hmerge, decide_false, if_false, Bool.false_eq_true, wp_bind,
      wp_readSize h.header.toSees, hlu.size, htoSize, hstop]
    rcases habove_cases with ⟨a, ha, rfl, heq⟩ | ⟨hnone', hne'⟩
    · rw [if_pos heq, wp_bind]
      exact wp_post (wp_mergeAfter h hnone ha hlu hTu) fun _ v hv => hdone v hv
    · rw [if_neg hne', wp_bind]
      exact wp_post (wp_pushNode h hnone hnone' hlu) fun _ v hv => hdone v hv

/-- The page that the branch leaves behind. -/
theorem wp_kfreePage {cpu : ℕ} (h : FreeSite F pg t T)
    (hl : PageList s.mem pg.base pg.cls pg.runs pg.tail)
    (hT : Path (nextAt s.mem) (endOf pg.base pg.runs pg.tail) T 0)
    (hbelow : ∀ q ∈ T, stopAt s.mem q ≠ t.start) (habove : ∀ q ∈ T, q ≠ t.stop)
    (hF : F.locks (.pagelist cpu)) :
    wp F.Allows (kfreePage cpu pg.base t.start) s fun _ s' =>
      (pg.freed t).Repr s'.mem ∧ nextAt s'.mem pg.base = nextAt s.mem pg.base ∧
        s'.var = s.var ∧ s'.lock = (s.setLock (.pagelist cpu) 0).lock :=
  wp_post (wp_kfreePage_released h hl hT hbelow habove hF) fun _ _ hv =>
    ⟨hv.1.repr h.toFreeable, hv.2⟩

end Branches
end KmallocKfree
