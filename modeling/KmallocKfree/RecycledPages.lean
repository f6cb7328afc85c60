import KmallocKfree.OneBlock
import KmallocKfree.Carving

/-!
# Recycled and new pages

A page gets its first free node in three places of `kalloc`: when a CPU gets its first
page, when the slow path adds a page, and when it reuses an empty one. Seen by offsets
from its start the page is the same in all three cases once the block was handed out:
the recycled page relies on the index 1 that the merges in `kfree` left behind.
-/
namespace KmallocKfree

open Prog Region Shape
open ByteMemory (Mem)

/-- A page by offsets: the block handed out last, the header and the free nodes. -/
structure PageView where
  block : ℕ
  cls : ℕ
  index : ℕ
  nodes : List Region
  deriving DecidableEq

/-- The page at `base` looks like `v` after the block `ret` was handed out, cleared. -/
structure Shows (m : Mem) (base ret : ℕ) (v : PageView) : Prop where
  block : ret = base + v.block
  size : sizeAt m base = v.cls
  index : wordAt m base = v.index
  list : FreeList m (base + v.index * v.cls) (v.nodes.map fun r => ⟨base + r.start, r.len⟩) 0
  magic : ∀ r ∈ v.nodes, wordAt m (base + r.start) = toWord pageMagic
  clear : ∀ x, ret ≤ x → x < ret + v.cls → m x = 0

/-- The view of a page of class `c` that has handed out its first block. -/
def freshView (c : ℕ) : PageView := ⟨c, c, 2, [⟨2 * c, pageBytes - 2 * c⟩]⟩

/-- The heap has room for a page, and its lock is free. -/
structure Supplied (p : Platform) (s : PmmState) (l : List Region) : Prop where
  list : HeapList s l
  inside : ∀ r ∈ l, p.heapStart ≤ r.start ∧ r.stop ≤ p.heapEnd
  room : ∃ r ∈ l, pageBytes ≤ r.len
  unlocked : s.lock .heapLock = 0

/-- A request of CPU `cpu` that the empty page at `base` serves. -/
structure Recycles (p : Platform) (s : PmmState) (L : ℕ → List ℕ) (cpu n base : ℕ) : Prop where
  listed : Listed p s L
  cpu_lt : cpu < p.cpuCount
  unlocked : s.lock (.pagelist cpu) = 0
  first : ∃ A B, L cpu = A ++ base :: B ∧ ∀ x ∈ A, ¬ HasEmpty s.mem x
  none_sized : ∀ x ∈ L cpu, ¬ HasSized s.mem (roundSize n) x
  size : sizeAt s.mem base = 0
  index : wordAt s.mem base = 1

/-- The first request of CPU `cpu`. -/
structure Starts (p : Platform) (s : PmmState) (l : List Region) (cpu : ℕ) : Prop where
  supplied : Supplied p s l
  cpu_lt : cpu < p.cpuCount
  unlocked : s.lock (.pagelist cpu) = 0
  head : s.var (.pagehead cpu) = 0

/-- A request of CPU `cpu` that none of its pages can serve. -/
structure Adds (p : Platform) (s : PmmState) (l : List Region) (L : ℕ → List ℕ)
    (cpu n : ℕ) : Prop where
  listed : Listed p s L
  supplied : Supplied p s l
  cpu_lt : cpu < p.cpuCount
  unlocked : s.lock (.pagelist cpu) = 0
  has_page : L cpu ≠ []
  none_sized : ∀ x ∈ L cpu, ¬ HasSized s.mem (roundSize n) x
  none_empty : ∀ x ∈ L cpu, ¬ HasEmpty s.mem x

section Cleared

variable {s s' : PmmState} {cpu ph size ret : ℕ}

theorem exec_memset0 {p n : ℕ} (h : Prog.exec (memset0 .bytes p n : Code Unit) s = .ok ((), s')) :
    s' = s.setMem (ByteMemory.fill s.mem p n 0) := by
  have hrun : Prog.exec (memset0 .bytes p n : Code Unit) s =
      if p = 0 then .error .nullDereference
      else .ok ((), s.setMem (ByteMemory.fill s.mem p n 0)) := by
    unfold memset0 perform
    rw [exec_bind]
    simp only [Prog.exec, Op.run]
    split_ifs <;> rfl
  rw [hrun] at h
  split_ifs at h
  cases h
  rfl

theorem exec_unlock {l : Lock} (h : Prog.exec (unlock l : Code Unit) s = .ok ((), s')) :
    s'.mem = s.mem := by
  cases h
  rfl

/-- The last steps of the fast path clear the block. -/
theorem clears_last {fd n : ℕ} {l : Lock}
    (h : Prog.exec (do unlock l; memset0 .bytes fd n; pure fd : Code ℕ) s = .ok (ret, s')) (x : ℕ)
    (hlo : ret ≤ x) (hhi : x < ret + n) : s'.mem x = 0 := by
  obtain ⟨_, u, -, h⟩ := exec_bind_ok h
  obtain ⟨_, v, hfill, h⟩ := exec_bind_ok h
  rw [exec_pure] at h
  cases h
  rw [exec_memset0 hfill]
  exact ByteMemory.fill_inside hlo hhi

/-- The fast path clears its block. -/
theorem kallocFast_clears (h : Prog.exec (kallocFast cpu ph size) s = .ok (ret, s')) (x : ℕ)
    (hlo : ret ≤ x) (hhi : x < ret + size) : s'.mem x = 0 := by
  unfold kallocFast at h
  obtain ⟨pageSize, s₁, -, h⟩ := exec_bind_ok h
  obtain ⟨_, s₂, -, h⟩ := exec_bind_ok h
  obtain ⟨index, s₃, -, h⟩ := exec_bind_ok h
  obtain ⟨nodeSize, s₄, -, h⟩ := exec_bind_ok h
  split_ifs at h with hfits
  · obtain ⟨_, s₅, -, h⟩ := exec_bind_ok h
    obtain ⟨rest, s₆, -, h⟩ := exec_bind_ok h
    split_ifs at h with hrest
    · obtain ⟨_, s₇, -, h⟩ := exec_bind_ok h
      exact clears_last h x hlo hhi
    · obtain ⟨_, s₇, -, h⟩ := exec_bind_ok h
      exact clears_last h x hlo hhi
  · obtain ⟨_, s₅, -, h⟩ := exec_bind_ok h
    cases h

/-- So does the slow path. -/
theorem takeFirstBlock_clears (h : Prog.exec (takeFirstBlock cpu ph size) s = .ok (ret, s'))
    (x : ℕ) (hlo : ret ≤ x) (hhi : x < ret + size) : s'.mem x = 0 := by
  unfold takeFirstBlock at h
  obtain ⟨index, s₁, -, h⟩ := exec_bind_ok h
  obtain ⟨_, s₂, -, h⟩ := exec_bind_ok h
  obtain ⟨_, s₃, -, h⟩ := exec_bind_ok h
  obtain ⟨index₁, s₄, -, h⟩ := exec_bind_ok h
  obtain ⟨_, s₅, -, h⟩ := exec_bind_ok h
  obtain ⟨index₂, s₆, -, h⟩ := exec_bind_ok h
  obtain ⟨_, s₇, -, h⟩ := exec_bind_ok h
  obtain ⟨index₃, s₈, -, h⟩ := exec_bind_ok h
  obtain ⟨_, s₉, -, h⟩ := exec_bind_ok h
  obtain ⟨_, u, hfill, h⟩ := exec_bind_ok h
  obtain ⟨_, v, hunlock, h⟩ := exec_bind_ok h
  rw [exec_pure] at h
  cases h
  rw [exec_unlock hunlock, exec_memset0 hfill]
  exact ByteMemory.fill_inside hlo hhi

end Cleared

section Served

variable {p : Platform} {s : PmmState} {L : ℕ → List ℕ} {cpu k n base c ret : ℕ} {A B : List ℕ}
  {l : List Region} {pg : Page} {t : Region} {m : Mem}

/-- What the representation of a page says to a reader of offsets. -/
theorem shows_fresh (hc : SizeClass c) (hrepr : (Page.fresh 0 base c).Repr m)
    (hclear : ∀ x, base + c ≤ x → x < base + c + c → m x = 0) :
    Shows m base (base + c) (freshView c) := by
  have hge := hc.ge
  have hindex : (Page.fresh 0 base c).index = 2 := by
    rw [Page.index, if_neg (show (Page.fresh 0 base c).cls ≠ 0 by
      change c ≠ 0
      omega)]
    exact index_mul_add (by omega)
  obtain ⟨a, ha⟩ := hrepr.list
  refine ⟨rfl, hrepr.size, hrepr.index.trans hindex, ?_, ?_, hclear⟩
  · rw [ha.start_eq] at ha
    exact ha
  · intro r hr
    obtain rfl := List.mem_singleton.mp hr
    exact hrepr.magic _ (List.mem_singleton_self _)

/-- The slow path on an empty page that the caller owns. -/
theorem wp_kallocRecycle {F : Footprint Struct Global Lock} (hc : SizeClass c)
    (hmax : base + pageBytes < 18446744073709551616) (hindex : wordAt s.mem base = 1)
    (hown : OwnsPage F base) (hF : F.locks (.pagelist cpu)) :
    wp F.Allows (kallocRecycle cpu base c) s fun ret s' =>
      ret = base + c ∧ (Page.fresh 0 base c).Repr s'.mem ∧
        nextAt s'.mem base = nextAt s.mem base := by
  have hle := hc.le
  have hpb : pageBytes = 65536 := rfl
  have hhead : F.Owns .pageheader base 16 := hown _ _ _ le_rfl (by omega)
  unfold kallocRecycle
  rw [wp_bind, wp_writeSize hhead]
  refine wp_post (wp_takeFirstBlock hc hmax ?_ ?_ (.of_owns hhead)
    (hown _ _ _ (by omega) (by omega)) (hown _ _ _ (by omega) (by omega)) hF)
    fun _ _ hv => ⟨hv.1, hv.2.1, ?_⟩
  · exact sizeAt_setSizeAt _ _ (by omega) (by omega)
  · exact (wordAt_setSizeAt _ _ _).trans hindex
  · exact hv.2.2.1.trans (nextAt_setSizeAt _ _ _)

/-- A recycled page. -/
theorem Listed.serves_recycled (h : Listed p s L) (hcpu : cpu < p.cpuCount) (hn : n ≤ 16384)
    (hlock : s.lock (.pagelist cpu) = 0) (hsplit : L cpu = A ++ base :: B)
    (hnone : ∀ x ∈ L cpu, ¬ HasSized s.mem (roundSize n) x) (hA : ∀ x ∈ A, ¬ HasEmpty s.mem x)
    (hsize : sizeAt s.mem base = 0) (hindex : wordAt s.mem base = 1) :
    ∃ ret s', Prog.exec (kalloc p cpu n) s = .ok (ret, s') ∧
      Shows s'.mem base ret (freshView (roundSize n)) := by
  have hc := sizeClass_roundSize hn
  obtain ⟨hpos, hmax⟩ := h.pos hcpu (show base ∈ L cpu by rw [hsplit]; simp)
  have hempty : HasEmpty s.mem base := ⟨hsize, by omega⟩
  have hwp := wp_kallocRecycle (s := s.setLock (.pagelist cpu) 1) hc hmax hindex
    (anyFoot_ownsPage hpos) (show anyFoot.locks (.pagelist cpu) from trivial)
  obtain ⟨ret, s', hexec, rfl, hrepr, -⟩ := wp_exec hwp
  refine ⟨_, s', ?_, shows_fresh hc hrepr ?_⟩
  · rw [h.exec_kalloc_recycle hcpu hn hlock hsplit hnone hA hempty, exec_locked hlock, ← hexec]
  · obtain ⟨_, u, -, htake⟩ := exec_bind_ok hexec
    exact takeFirstBlock_clears htake

/-- The page that a supplied heap gives. -/
theorem Supplied.gives (h : Supplied p s l) : ∃ page s', Prog.exec allockpage s = .ok (page, s') ∧
    p.heapStart ≤ page ∧ page + pageBytes ≤ p.heapEnd ∧ (∀ x, x ≠ .head → s'.var x = s.var x) ∧
    s'.lock = s.lock := by
  obtain ⟨l₁, r, l₂, s', rfl, hexec, hcarved⟩ := (allockpage_carves h.list h.unlocked).1 h.room
  have hin := h.inside r (by simp)
  have hwithin := hcarved.within
  unfold Within Region.stop at hwithin
  unfold Region.stop at hin
  exact ⟨r.start, s', hexec, hin.1, by simp only at hwithin; omega, hcarved.var, hcarved.lock⟩

theorem Supplied.setLock (h : Supplied p s l) (cpu v : ℕ) :
    Supplied p (s.setLock (.pagelist cpu) v) l := by
  refine ⟨⟨h.list.list, h.list.disj, h.list.size, h.list.place⟩, h.inside, h.room, ?_⟩
  rw [Store.setLock_lock, if_neg (by simp)]
  exact h.unlocked

/-- The first page of a CPU, which the fast path then finds. -/
theorem Supplied.serves_first (h : Supplied p s l) (hcpu : cpu < p.cpuCount) (hn : n ≤ 16384)
    (hlock : s.lock (.pagelist cpu) = 0) (hhead : s.var (.pagehead cpu) = 0) :
    ∃ ret s', Prog.exec (kalloc p cpu n) s = .ok (ret, s') ∧
      Shows s'.mem (s'.var (.pagehead cpu)) ret (freshView (roundSize n)) := by
  have hc := sizeClass_roundSize hn
  have hle := hc.le
  have hpb : pageBytes = 65536 := rfl
  have hstart := p.heapStart_pos
  have hend := p.heapEnd_lt
  set c := roundSize n with hcdef
  obtain ⟨page, u, hpage, hlo, hhi, hvar, hulock⟩ := (h.setLock cpu 1).gives
  have hown := anyFoot_ownsPage (show 0 < page by omega)
  have hvalid : (Page.whole 0 page c).Valid := Page.whole_valid hc (by omega) (by omega)
  -- the new page heads the list of the CPU, with all its blocks free
  have hinit : wp anyFoot.Allows (do
      setGlobal (.pagehead cpu) page
      let page ← getGlobal (.pagehead cpu)
      check .firstPageAllocated (page ≠ 0)
      initFirstPage page c
      unlock (.pagelist cpu) : Code Unit) u fun _ v =>
      (Page.whole 0 page c).Repr v.mem ∧ nextAt v.mem page = 0 ∧ v.var (.pagehead cpu) = page ∧
        v.lock (.pagelist cpu) = 0 := by
    rw [wp_bind, wp_setGlobal trivial, wp_bind, wp_getGlobal trivial, wp_bind, wp_check,
      Store.setVar_var, if_pos rfl]
    refine ⟨by omega, ?_⟩
    rw [wp_bind]
    refine wp_post (@wp_initFirstPage anyFoot (u.setVar (.pagehead cpu) page) 0 page c hc
      (by omega) (hown _ _ _ le_rfl (by omega)) (hown _ _ _ (by omega) (by omega))) ?_
    rintro _ v ⟨hrepr, hnext, hv, -⟩
    rw [wp_unlock trivial]
    refine ⟨hrepr, hnext, ?_, by simp⟩
    rw [Store.setLock_var, hv, Store.setVar_var, if_pos rfl]
  obtain ⟨_, v, hfirst, hrepr, hnext, hvhead, hvlock⟩ := wp_exec hinit
  have hserve := wp_kallocFast_own (s := v.setLock (.pagelist cpu) 1) hvalid hrepr rfl hown
    (show anyFoot.locks (.pagelist cpu) from trivial)
  obtain ⟨ret, s', hfast, rfl, hpop, -, hs'var, -⟩ := wp_exec hserve
  have hkallocFirst : Prog.exec (kallocFirst cpu c) s = .ok ((), v) := by
    unfold kallocFirst
    rw [exec_locked hlock, exec_bind, hpage]
    exact hfirst
  have hfind : Prog.exec (findSized c page) (v.setLock (.pagelist cpu) 1) =
      .ok (page, v.setLock (.pagelist cpu) 1) := by
    have hsized : HasSized v.mem c page :=
      (sized_iff hvalid hrepr hc).mpr ⟨rfl, by simp [Page.whole]⟩
    refine exec_of_wp (P := anyFoot.Allows)
      (wp_findSized (l := [page]) ⟨rfl, hnext⟩ ?_ ?_ ⟨?_, rfl⟩)
    · intro x hx
      rw [List.mem_singleton.mp hx]
      exact sees_any (by omega)
    · apply length_lt_loopBound (List.nodup_singleton _)
      · rw [List.mem_singleton]
        omega
      · intro x hx
        rw [List.mem_singleton.mp hx]
        omega
    · exact find_split (A := []) (B := []) (by simp) hsized
  have hpaged : Prog.exec (kallocPaged cpu c) v = .ok (page + c, s') := by
    unfold kallocPaged
    rw [exec_locked hvlock, exec_bind]
    simp only [getGlobal, perform, Prog.exec, Op.run, Store.setLock_var, hvhead]
    rw [exec_bind, hfind]
    simp only [show page ≠ 0 by omega, ne_eq, not_false_eq_true, if_true]
    exact hfast
  refine ⟨page + c, s', ?_, ?_⟩
  · rw [kalloc_small hn]
    unfold kallocSmall
    rw [exec_bind]
    simp only [check, hcpu.le, if_true, Prog.exec]
    rw [exec_bind]
    simp only [getGlobal, perform, Prog.exec, Op.run, hhead, if_true]
    rw [exec_bind, hkallocFirst]
    exact hpaged
  · rw [hs'var, Store.setLock_var, hvhead]
    rw [Page.pop_whole hc] at hpop
    exact shows_fresh hc hpop (kallocFast_clears hfast)

/-- A page that the slow path adds. -/
theorem Listed.serves_added (h : Listed p s L) (hs : Supplied p s l) (hcpu : cpu < p.cpuCount)
    (hn : n ≤ 16384) (hlock : s.lock (.pagelist cpu) = 0) (hne : L cpu ≠ [])
    (hnone : ∀ x ∈ L cpu, ¬ HasSized s.mem (roundSize n) x)
    (hempty : ∀ x ∈ L cpu, ¬ HasEmpty s.mem x) :
    ∃ ret s', Prog.exec (kalloc p cpu n) s = .ok (ret, s') ∧
      Shows s'.mem (s'.var (.pagehead cpu)) ret (freshView (roundSize n)) := by
  have hc := sizeClass_roundSize hn
  have hle := hc.le
  have hpb : pageBytes = 65536 := rfl
  have hstart := p.heapStart_pos
  have hend := p.heapEnd_lt
  set c := roundSize n with hcdef
  obtain ⟨page, u, hpage, hlo, hhi, hvar, hulock⟩ := (hs.setLock cpu 1).gives
  have hown := anyFoot_ownsPage (show 0 < page by omega)
  have hhead : anyFoot.Owns .pageheader page 16 := hown _ _ _ le_rfl (by omega)
  set code : Code ℕ := do
    let rest ← getGlobal (.pagehead cpu)
    Pageheader.setNext page rest
    Pageheader.setSize page c
    Pageheader.setPagefreeheadIndex page 1
    setGlobal (.pagehead cpu) page
    takeFirstBlock cpu page c with hcode
  have hwp : wp anyFoot.Allows code u fun ret v =>
      (ret = page + c ∧ (Page.fresh 0 page c).Repr v.mem) ∧ v.var (.pagehead cpu) = page := by
    rw [hcode, wp_bind, wp_getGlobal trivial, wp_bind, wp_writePtr hhead, wp_bind,
      wp_writeSize hhead, wp_bind, wp_writeWord hhead, wp_bind, wp_setGlobal trivial]
    refine wp_post (@wp_takeFirstBlock anyFoot _ 0 page c cpu hc (by omega) ?_ ?_ (.of_owns hhead)
      (hown _ _ _ (by omega) (by omega)) (hown _ _ _ (by omega) (by omega)) trivial) ?_
    · exact (sizeAt_setWordAt _ _ _).trans (sizeAt_setSizeAt _ _ (by omega) (by omega))
    · exact wordAt_setWordAt _ _ (by omega)
    · rintro ret v ⟨hret, hrepr, -, hv, -⟩
      refine ⟨⟨hret, hrepr⟩, ?_⟩
      rw [hv, Store.setVar_var, if_pos rfl]
  obtain ⟨ret, s', hexec, ⟨rfl, hrepr⟩, hs'head⟩ := wp_exec hwp
  refine ⟨page + c, s', ?_, ?_⟩
  · have hfind := (h.setLock (.pagelist cpu) 1).exec_findEmpty hcpu
    rw [Store.setLock_mem, find_none hempty] at hfind
    rw [h.exec_kalloc_slow hcpu hn hlock hne hnone, exec_locked hlock]
    unfold kallocSlow
    rw [exec_bind]
    simp only [getGlobal, perform, Prog.exec, Op.run]
    rw [exec_bind, hfind]
    simp only [ne_eq, not_true_eq_false, if_false]
    rw [exec_bind, hpage]
    simp only [show page ≠ 0 by omega, not_false_eq_true, if_true]
    exact hexec
  · rw [hs'head]
    refine shows_fresh hc hrepr ?_
    obtain ⟨_, _, -, hexec⟩ := exec_bind_ok hexec
    obtain ⟨_, _, -, hexec⟩ := exec_bind_ok hexec
    obtain ⟨_, _, -, hexec⟩ := exec_bind_ok hexec
    obtain ⟨_, _, -, hexec⟩ := exec_bind_ok hexec
    obtain ⟨_, _, -, htake⟩ := exec_bind_ok hexec
    exact takeFirstBlock_clears htake

/-- A block whose freeing empties its page was the only live block of it. -/
theorem Freeable.only (h : Freeable pg t)
    (hall : (joined t pg.runs).len = pageBytes - pg.cls) {b : Region} (hb : Freeable pg b) :
    b = t := by
  have hge := h.cls.ge
  obtain ⟨hj, ho⟩ := h.whole_of_len hall
  have hbounds := hb.start_bounds
  have hblen := hb.len
  have htlen := h.len
  unfold Region.stop at hbounds
  -- the first byte of `b` was free, or is a byte of `t`
  have hcov : Covered pg.runs b.start ∨ t.Contains b.start := by
    apply (h.around.covered_joined b.start).mp
    rw [hj, ho]
    refine ⟨_, List.mem_singleton_self _, ?_⟩
    unfold Region.Contains Region.stop
    simp only
    omega
  obtain ⟨r, hr, hrb⟩ | htb := hcov
  · exact absurd ⟨le_rfl, by unfold Region.stop; omega⟩ ((hb.apart r hr).not_contains hrb)
  · obtain ⟨i, -, hi, -⟩ := h.block
    obtain ⟨j, -, hj, -⟩ := hb.block
    unfold Region.Contains Region.stop at htb
    have hij : i = j := by
      rw [hi, hj, htlen] at htb
      have hle : i ≤ j := Nat.le_of_mul_le_mul_right (by omega : i * pg.cls ≤ j * pg.cls) (by omega)
      have hlt : j < i + 1 := by
        apply Nat.lt_of_mul_lt_mul_right (a := pg.cls)
        rw [Nat.succ_mul]
        omega
      omega
    have hstart : b.start = t.start := by rw [hi, hj, hij]
    cases b
    cases t
    simp_all

/-- A page that `kfree` empties has no live block and the index 1; a block that it then
serves leaves it as one from a new page does, whether the new page is the first of its CPU
or was added by the slow path. -/
theorem recycled_like_new (h : Listed p s L) (hlock : s.lock (.pagelist cpu) = 0)
    (hk : k < p.cpuCount) (hq : pg.base ∈ L k) (hpage : InUse s.mem pg) (hne : pg.runs ≠ [])
    (ht : Freeable pg t) :
    (∃ s', Prog.exec (kfree p cpu t.start) s = .ok ((), s') ∧ (sizeAt s'.mem pg.base = 0 →
      (∀ b, Freeable pg b → b = t) ∧ wordAt s'.mem pg.base = 1)) ∧
    ∀ n ≤ 16384, ∃ v : PageView,
      (∀ u L' i, Recycles p u L' i n pg.base →
        ∃ ret u', Prog.exec (kalloc p i n) u = .ok (ret, u') ∧ Shows u'.mem pg.base ret v) ∧
      (∀ u l i, Starts p u l i → ∃ ret u', Prog.exec (kalloc p i n) u = .ok (ret, u') ∧
        Shows u'.mem (u'.var (.pagehead i)) ret v) ∧
      (∀ u l L' i, Adds p u l L' i n → ∃ ret u', Prog.exec (kalloc p i n) u = .ok (ret, u') ∧
        Shows u'.mem (u'.var (.pagehead i)) ret v) := by
  constructor
  · obtain ⟨s', hexec, hrel⟩ := kfree_releases h hlock hk hq hpage hne ht
    refine ⟨s', hexec, fun hzero => ?_⟩
    have hge := ht.cls.ge
    have hall : (joined t pg.runs).len = pageBytes - pg.cls := by
      by_contra hpart
      have hsize := hrel.size
      rw [Page.freed_cls, if_neg hpart] at hsize
      omega
    refine ⟨fun b hb => ht.only hall hb, ?_⟩
    rw [hrel.index]
    exact ht.index_of_all hall (List.ne_nil_of_mem ht.joined_mem_release)
  · intro n hn
    refine ⟨freshView (roundSize n), ?_, ?_, ?_⟩
    · intro u L' i hu
      obtain ⟨A, B, hsplit, hA⟩ := hu.first
      exact hu.listed.serves_recycled hu.cpu_lt hn hu.unlocked hsplit hu.none_sized hA hu.size
        hu.index
    · intro u l i hu
      exact hu.supplied.serves_first hu.cpu_lt hn hu.unlocked hu.head
    · intro u l L' i hu
      exact hu.listed.serves_added hu.supplied hu.cpu_lt hn hu.unlocked hu.has_page hu.none_sized
        hu.none_empty

/-- A page that has handed out its first block is in use. -/
theorem inUse_fresh (hc : SizeClass c) (hpos : 0 < base)
    (hmax : base + pageBytes < 18446744073709551616) (hsize : sizeAt m base = c)
    (hindex : wordAt m base = 2)
    (hlist : FreeList m (base + 2 * c) [⟨base + 2 * c, pageBytes - 2 * c⟩] 0)
    (hmagic : wordAt m (base + 2 * c) = toWord pageMagic) : InUse m (Page.fresh 0 base c) := by
  have hge := hc.ge
  have hwhole : (Page.whole 0 base c).Valid := Page.whole_valid hc hpos hmax
  have hvalid := hwhole.pop rfl
  rw [Page.pop_whole hc] at hvalid
  have hfresh : (Page.fresh 0 base c).index = 2 := by
    rw [Page.index, if_neg (show (Page.fresh 0 base c).cls ≠ 0 by
      change c ≠ 0
      omega)]
    exact index_mul_add (by omega)
  refine ⟨hvalid, hc, ⟨hsize, hindex.trans hfresh.symm, ⟨_, hlist⟩, ?_⟩, rfl, ?_⟩
  · intro r hr
    rw [List.mem_singleton.mp hr]
    exact hmagic
  · have hle := hc.le
    have hpb : pageBytes = 65536 := rfl
    intro r hr u hu
    rw [List.mem_singleton.mp hr, List.mem_singleton.mp hu]
    unfold Region.stop
    simp only
    omega

/-- Freeing the only block of the first page leaves a page that can be recycled. -/
theorem exists_recycled : ∃ s s' : PmmState, Listed halfMega s onePage ∧
    InUse s.mem (Page.fresh 0 0x100000 128) ∧ s.lock (.pagelist 0) = 0 ∧
    Prog.exec (kfree halfMega 0 0x100080) s = .ok ((), s') ∧
    Recycles halfMega s' onePage 0 200 0x100000 := by
  have hrun : ((runFrom halfMega (fun _ _ => True) blank [.alloc 0 100]).map fun w =>
      decide ((w.st.var (.pagehead 0) = 0x100000 ∧ w.st.var (.pagehead 1) = 0 ∧
        nextAt w.st.mem 0x100000 = 0) ∧ (sizeAt w.st.mem 0x100000 = 128 ∧
        wordAt w.st.mem 0x100000 = 2 ∧ FreeList w.st.mem 0x100100 [⟨0x100100, 65280⟩] 0 ∧
        wordAt w.st.mem 0x100100 = toWord pageMagic) ∧ w.st.lock (.pagelist 0) = 0) &&
      (Prog.exec (kfree halfMega 0 0x100080) w.st).toOption.any fun r =>
        decide ((r.2.var (.pagehead 0) = 0x100000 ∧ r.2.var (.pagehead 1) = 0 ∧
          nextAt r.2.mem 0x100000 = 0) ∧ (sizeAt r.2.mem 0x100000 = 0 ∧
          wordAt r.2.mem 0x100000 = 1) ∧ r.2.lock (.pagelist 0) = 0)) = some true := by
    decide +kernel
  obtain ⟨w, -, hall⟩ := Option.map_eq_some_iff.mp hrun
  obtain ⟨hbefore, hafter⟩ := Bool.and_eq_true_iff.mp hall
  obtain ⟨⟨hhead, hother, hnext⟩, ⟨hsize, hindex, hlist, hmagic⟩, hlock⟩ :=
    of_decide_eq_true hbefore
  have hround : roundSize 100 = 128 := by decide +kernel
  have hclass : SizeClass 128 := by
    rw [← hround]
    exact sizeClass_roundSize (by decide)
  cases hexec : Prog.exec (kfree halfMega 0 0x100080) w.st with
  | error e =>
    rw [hexec] at hafter
    exact absurd hafter Bool.false_ne_true
  | ok r =>
    obtain ⟨⟨⟩, v⟩ := r
    rw [hexec] at hafter
    obtain ⟨⟨hhead', hother', hnext'⟩, ⟨hsize', hindex'⟩, hlock'⟩ := of_decide_eq_true hafter
    refine ⟨w.st, v, listed_onePage hhead hother hnext,
      inUse_fresh hclass (by decide) (by decide) hsize hindex hlist hmagic, hlock, hexec,
      ⟨listed_onePage hhead' hother' hnext', by decide, hlock', ⟨[], [], rfl, by simp⟩, ?_, hsize',
        hindex'⟩⟩
    · intro x hx hsized
      rw [List.mem_singleton.mp hx] at hsized
      have hround' : roundSize 200 = 256 := by decide +kernel
      rw [HasSized, hsize', hround'] at hsized
      exact absurd hsized.1 (by decide)

/-- The page of a single block of 128 bytes is recycled for blocks of 256 bytes. -/
theorem recycled_like_new_run : ∃ s s' u : PmmState, ∃ ret v, sizeAt s.mem 0x100000 = 128 ∧
    Prog.exec (kfree halfMega 0 0x100080) s = .ok ((), s') ∧
    sizeAt s'.mem 0x100000 = 0 ∧ wordAt s'.mem 0x100000 = 1 ∧
    Prog.exec (kalloc halfMega 0 200) s' = .ok (ret, u) ∧ Shows u.mem 0x100000 ret v ∧
    (∃ w ret' u', Prog.exec (kalloc halfMega 0 200) w = .ok (ret', u') ∧
      Shows u'.mem (u'.var (.pagehead 0)) ret' v) := by
  obtain ⟨s, s', hlisted, huse, hlock, hexec, hrec⟩ := exists_recycled
  have hlive : Freeable (Page.fresh 0 0x100000 128) ⟨0x100080, 128⟩ :=
    ⟨huse.valid, huse.cls, ⟨1, by decide⟩, rfl, by decide⟩
  obtain ⟨⟨s'', hexec', hempty⟩, hserves⟩ := recycled_like_new (k := 0) hlisted hlock (by decide)
    (by decide) huse (by decide) hlive
  rw [hexec] at hexec'
  cases hexec'
  obtain ⟨v, hrecycled, hfirst, -⟩ := hserves 200 (by decide)
  obtain ⟨ret, u, hkalloc, hshows⟩ := hrecycled s' onePage 0 hrec
  obtain ⟨w, hw⟩ := exists_booted halfMega
  obtain ⟨hfresh, -⟩ := hw.fresh
  have hlist : HeapList w.st [⟨0x100000, 0x80000⟩] :=
    ⟨hfresh.whole_list (by decide), List.pairwise_singleton _ _, by decide, by decide⟩
  have hstarts : Starts halfMega w.st [⟨0x100000, 0x80000⟩] 0 :=
    ⟨⟨hlist, by decide, by decide, hfresh.unlocked.1⟩, by decide,
      hfresh.unlocked.2 0 (by decide), hfresh.pages 0 (by decide)⟩
  obtain ⟨ret', u', hkalloc', hshows'⟩ := hfirst w.st _ 0 hstarts
  exact ⟨s, s', u, ret, v, huse.repr.size, hexec, hrec.size, (hempty hrec.size).2, hkalloc,
    hshows, w.st, ret', u', hkalloc', hshows'⟩

end Served
end KmallocKfree
