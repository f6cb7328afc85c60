import KmallocKfree.Kfree

/-!
# One block of one page

What a small `kalloc` and a small `kfree` do to the page that serves them, in any state
in which the page has a well-formed free list, whatever the other pages hold. `kalloc`
takes the first block of the head node and nothing else. `kfree` adds the block, but
drops nodes when the block joins the head node above it to a node below it that does not
come right after the head.
-/
namespace KmallocKfree

open Prog Region Shape
open ByteMemory (Mem)

/-- A page in use: its free list is null-terminated, and no two nodes are adjacent. -/
structure InUse (m : Mem) (pg : Page) : Prop where
  valid : pg.Valid
  cls : SizeClass pg.cls
  repr : pg.Repr m
  ends : pg.looped = false
  coalesced : Coalesced pg.runs

/-- `F` owns the bytes of the page at `base`. -/
def OwnsPage (F : Footprint Struct Global Lock) (base : ℕ) : Prop :=
  ∀ k q n, base ≤ q → q + n ≤ base + pageBytes → F.Owns k q n

theorem anyFoot_ownsPage {base : ℕ} (h : 0 < base) : OwnsPage anyFoot base := fun _ q _ hlo _ =>
  ⟨⟨by omega, trivial, fun _ _ _ => trivial⟩, fun _ _ _ => trivial⟩

section Take

variable {p : Platform} {s : PmmState} {L : ℕ → List ℕ} {F : Footprint Struct Global Lock}
  {cpu k n : ℕ} {A B : List ℕ} {pg : Page} {r t : Region} {rest : List Region}

/-- The fast path on a page that the caller owns. -/
theorem wp_kallocFast_own (hv : pg.Valid) (hrepr : pg.Repr s.mem) (hruns : pg.runs = r :: rest)
    (hown : OwnsPage F pg.base) (hF : F.locks (.pagelist cpu)) :
    wp F.Allows (kallocFast cpu pg.base pg.cls) s fun ret s' =>
      ret = r.start ∧ pg.pop.Repr s'.mem ∧ nextAt s'.mem pg.base = nextAt s.mem pg.base ∧
        s'.var = s.var ∧ s'.lock = (s.setLock (.pagelist cpu) 0).lock := by
  have hr : r ∈ pg.runs := by rw [hruns]; simp
  have hge := (hv.sizeClass_of_mem hr).ge
  have hbounds := (hv.run r hr).bounds
  have hpb : pageBytes = 65536 := rfl
  unfold Region.stop at hbounds
  refine wp_kallocFast hv hrepr hruns (.of_owns (hown _ _ _ le_rfl (by omega)))
    (hown _ _ _ (by omega) (by omega)) ?_ (hown _ _ _ (by omega) (by omega)) hF
  intro hne
  have := ((hv.run r hr).rest hne).2
  exact hown _ _ _ (by omega) (by omega)

/-- Without the head block the nodes cover what they covered, less that block. -/
theorem Page.Valid.covered_pop (hv : pg.Valid) (hruns : pg.runs = r :: rest) (x : ℕ) :
    Covered pg.pop.runs x ↔
      Covered pg.runs x ∧ ¬ Region.Contains ⟨r.start, pg.cls⟩ x := by
  have hr : r ∈ pg.runs := by rw [hruns]; simp
  have hbounds := (hv.run r hr).bounds
  have hdisj := hv.disj
  rw [hruns] at hdisj
  have hhead : Region.Contains ⟨r.start, pg.cls⟩ x → ¬ Covered rest x := by
    intro hx
    rw [← List.nil_append (r :: rest)] at hdisj
    apply not_covered_of_contains hdisj
    unfold Region.Contains Region.stop at *
    simp only at hx
    omega
  by_cases hlast : r.len = pg.cls
  · rw [Page.pop_runs_last hruns hlast, hruns, covered_cons]
    have heq : r.Contains x ↔ Region.Contains ⟨r.start, pg.cls⟩ x := by
      unfold Region.Contains Region.stop
      rw [hlast]
    rw [heq]
    tauto
  · rw [Page.pop_runs_more hruns hlast, hruns, covered_cons, covered_cons]
    have hsplit : r.Contains x ↔ Region.Contains ⟨r.start, pg.cls⟩ x ∨
        Region.Contains ⟨r.start + pg.cls, r.len - pg.cls⟩ x := by
      unfold Region.Contains Region.stop
      simp only
      omega
    have hupper : Region.Contains ⟨r.start + pg.cls, r.len - pg.cls⟩ x →
        ¬ Region.Contains ⟨r.start, pg.cls⟩ x := by
      unfold Region.Contains Region.stop
      simp only
      omega
    rw [hsplit]
    tauto

theorem Page.Valid.coalesced_pop (hv : pg.Valid) (hruns : pg.runs = r :: rest)
    (hc : Coalesced pg.runs) : Coalesced pg.pop.runs := by
  have hr : r ∈ pg.runs := by rw [hruns]; simp
  have hrest : ∀ x ∈ rest, x ∈ pg.runs := by
    intro x hx
    rw [hruns]
    exact List.mem_cons_of_mem _ hx
  have hdisj := hv.disj
  rw [hruns] at hdisj
  have hrdisj := (List.pairwise_cons.mp hdisj).1
  by_cases hlast : r.len = pg.cls
  · rw [Page.pop_runs_last hruns hlast]
    exact fun x hx y hy => hc x (hrest x hx) y (hrest y hy)
  · rw [Page.pop_runs_more hruns hlast]
    have hbounds := (hv.run r hr).bounds
    have hge := (hv.sizeClass_of_mem hr).ge
    intro x hx y hy
    obtain rfl | hx := List.mem_cons.mp hx
    · obtain rfl | hy := List.mem_cons.mp hy
      · unfold Region.stop
        simp only
        omega
      · have := hc r hr y (hrest y hy)
        unfold Region.stop at *
        simp only
        omega
    · obtain rfl | hy := List.mem_cons.mp hy
      · have hd := hrdisj x hx
        have hxb := (hv.run x (hrest x hx)).bounds
        unfold Disj Region.stop at *
        simp only
        omega
      · exact hc x (hrest x hx) y (hrest y hy)

theorem InUse.index_eq_zero (h : InUse s.mem pg) : wordAt s.mem pg.base = 0 ↔ pg.runs = [] := by
  have hge := h.cls.ge
  rw [h.repr.index, Page.index, if_neg (by omega)]
  cases hruns : pg.runs with
  | nil => simp [indexOf]
  | cons r rest =>
    have hr := (h.valid.run r (by rw [hruns]; simp)).index (show 0 < pg.cls by omega)
    simp only [indexOf, reduceCtorEq, iff_false]
    omega

/-- The fast path removes exactly one block: the first block of the head node. -/
theorem kalloc_takes_block (h : Listed p s L) (hcpu : cpu < p.cpuCount)
    (hlock : s.lock (.pagelist cpu) = 0) (hn : n ≤ 16384) (hsplit : L cpu = A ++ pg.base :: B)
    (hA : ∀ x ∈ A, ¬ HasSized s.mem (roundSize n) x) (hpage : InUse s.mem pg)
    (hcls : pg.cls = roundSize n) (hruns : pg.runs = r :: rest) :
    ∃ s', Prog.exec (kalloc p cpu n) s = .ok (r.start, s') ∧
      r.start = pg.base + wordAt s.mem pg.base * pg.cls ∧ InUse s'.mem pg.pop ∧
      (∀ x, Covered pg.pop.runs x ↔
        Covered pg.runs x ∧ ¬ Region.Contains ⟨r.start, pg.cls⟩ x) ∧
      (wordAt s'.mem pg.base = 0 ↔ pg.pop.runs = []) := by
  have hsized : HasSized s.mem (roundSize n) pg.base :=
    (sized_iff hpage.valid hpage.repr (sizeClass_roundSize hn)).mpr ⟨hcls, by rw [hruns]; simp⟩
  have hwp := wp_kallocFast_own (s := s.setLock (.pagelist cpu) 1) hpage.valid hpage.repr hruns
    (anyFoot_ownsPage hpage.valid.base_pos) (show anyFoot.locks (.pagelist cpu) from trivial)
  obtain ⟨ret, s', hexec, rfl, hrepr, -⟩ := wp_exec hwp
  have hpop : InUse s'.mem pg.pop := ⟨hpage.valid.pop hruns, hpage.cls, hrepr, hpage.ends,
    hpage.valid.coalesced_pop hruns hpage.coalesced⟩
  refine ⟨s', ?_, ?_, hpop, hpage.valid.covered_pop hruns, hpop.index_eq_zero⟩
  · rw [h.exec_kalloc_fast hcpu hn hlock hsplit hA hsized, exec_locked hlock, ← hcls]
    exact hexec
  · exact (hpage.repr.first hpage.valid hruns).1.symm

/-- CPU 0 has one page, at 1 MiB, and CPU 1 has none. -/
def onePage (cpu : ℕ) : List ℕ := if cpu = 0 then [0x100000] else []

theorem listed_onePage (hhead : s.var (.pagehead 0) = 0x100000) (hother : s.var (.pagehead 1) = 0)
    (hnext : nextAt s.mem 0x100000 = 0) : Listed halfMega s onePage := by
  have hcount : halfMega.cpuCount = 2 := rfl
  refine ⟨?_, ?_, ?_, ?_⟩
  · intro cpu hcpu
    obtain rfl | rfl : cpu = 0 ∨ cpu = 1 := by omega
    · exact ⟨hhead, hnext⟩
    · exact hother
  · intro cpu _
    unfold onePage
    split_ifs <;> simp
  · intro cpu _ q hq
    unfold onePage at hq
    split_ifs at hq
    · rw [List.mem_singleton.mp hq]
      decide
    · simp at hq
  · intro i _ j _ q hq q' hq' hne
    unfold onePage at hq hq'
    split_ifs at hq hq'
    · rw [List.mem_singleton.mp hq, List.mem_singleton.mp hq'] at hne
      exact absurd rfl hne
    all_goals simp_all

/-- The page may have all blocks of a class `c` free. -/
theorem exists_wholePage {c : ℕ} (hc : SizeClass c) : ∃ s : PmmState,
    Listed halfMega s onePage ∧ InUse s.mem (Page.whole 0 0x100000 c) ∧ ∀ l, s.lock l = 0 := by
  have hle := hc.le
  have hvalid : (Page.whole 0 0x100000 c).Valid :=
    Page.whole_valid hc (by decide) (by decide)
  set s₀ : PmmState := blank.setVar (.pagehead 0) 0x100000 with hs₀
  have hwp : wp anyFoot.Allows (initFirstPage 0x100000 c) s₀ fun _ s =>
      (Page.whole 0 0x100000 c).Repr s.mem ∧ nextAt s.mem 0x100000 = 0 ∧ s.var = s₀.var ∧
        s.lock = s₀.lock := by
    apply wp_initFirstPage hc hvalid.max
    · apply anyFoot_ownsPage hvalid.base_pos _ _ _ le_rfl
      change 0x100000 + 16 ≤ 0x100000 + 65536
      decide
    · apply anyFoot_ownsPage hvalid.base_pos _ _ _ (Nat.le_add_right _ _)
      change 0x100000 + c + 16 ≤ 0x100000 + 65536
      omega
  obtain ⟨_, s, -, hrepr, hnext, hvar, hlock⟩ := wp_exec hwp
  refine ⟨s, listed_onePage ?_ ?_ hnext, ⟨hvalid, hc, hrepr, rfl, ?_⟩, ?_⟩
  · rw [hvar]
    rfl
  · rw [hvar]
    rfl
  · intro r hr u hu
    obtain rfl := List.mem_singleton.mp hr
    obtain rfl := List.mem_singleton.mp hu
    have hpb : pageBytes = 65536 := rfl
    unfold Region.stop
    simp only
    omega
  · intro l
    rw [hlock]
    rfl

/-- A block of 128 bytes from a page with all blocks free. -/
theorem kalloc_takes_first_block : ∃ s s' : PmmState,
    InUse s.mem (Page.whole 0 0x100000 128) ∧
      Prog.exec (kalloc halfMega 0 100) s = .ok (0x100080, s') ∧
      InUse s'.mem (Page.fresh 0 0x100000 128) := by
  have hround : roundSize 100 = 128 := by decide +kernel
  have hclass : SizeClass 128 := by
    rw [← hround]
    exact sizeClass_roundSize (by decide)
  obtain ⟨s, hlisted, huse, hlock⟩ := exists_wholePage hclass
  obtain ⟨s', hexec, -, huse', -⟩ := kalloc_takes_block (A := []) (B := []) hlisted
    (show 0 < halfMega.cpuCount by decide) (hlock _) (n := 100) (by decide) rfl (by simp) huse
    hround.symm rfl
  rw [Page.pop_whole hclass] at huse'
  exact ⟨s, s', huse, hexec, huse'⟩

end Take

/-- The free list that the index of the page at `base` leads to, in blocks of `c` bytes. -/
structure FreeBlocks (m : Mem) (base c : ℕ) (l : List Region) : Prop where
  index : 0 < wordAt m base
  list : FreeList m (base + wordAt m base * c) l 0
  run : ∀ r ∈ l, IsRun base c r
  disj : l.Pairwise Disj
  magic : ∀ r ∈ l, wordAt m r.start = toWord pageMagic

/-- The free list covers its old blocks and `t`. It is one node on the whole page, which is
marked empty, or it is coalesced and the page keeps its class. -/
def AddsBlock (m : Mem) (pg : Page) (t : Region) : Prop :=
  ∃ l, FreeBlocks m pg.base pg.cls l ∧ (∀ x, Covered l x ↔ Covered pg.runs x ∨ t.Contains x) ∧
    ((sizeAt m pg.base = 0 ∧ l = [⟨pg.base + pg.cls, pageBytes - pg.cls⟩]) ∨
      (sizeAt m pg.base = pg.cls ∧ Coalesced l))

section Give

variable {p : Platform} {s : PmmState} {L : ℕ → List ℕ} {F : Footprint Struct Global Lock}
  {cpu k : ℕ} {pg : Page} {r t : Region} {m : Mem}

theorem Freeable.inSpan (h : Freeable pg t) : InSpan pg.base t.start := by
  have hb := h.start_bounds
  have hge := h.cls.ge
  have hlen := h.len
  unfold Region.stop at hb
  unfold InSpan
  omega

/-- What the page branch may touch in a page whose list is null-terminated. -/
theorem Freeable.site (h : Freeable pg t) (hown : OwnsPage F pg.base) : FreeSite F pg t [] := by
  have hb := h.start_bounds
  have hge := h.cls.ge
  have hle := h.cls.le
  have hlen := h.len
  have hmax := h.valid.max
  have hpb : pageBytes = 65536 := rfl
  unfold Region.stop at hb
  have hrun : ∀ r ∈ pg.runs, pg.base ≤ r.start ∧ r.start + 16 ≤ pg.base + pageBytes := by
    intro r hr
    have hr := (h.valid.run r hr).bounds
    unfold Region.stop at hr
    omega
  refine ⟨h, by simp, List.nodup_nil, ?_, (.of_owns (hown _ _ _ le_rfl (by omega))), ?_,
    hown _ _ _ (by omega) (by omega), by simp, hown _ _ _ (by omega) (by omega)⟩
  · have hnd := h.walk_nodup (T := []) (by simp) List.nodup_nil
    have hcount := length_lt_loopBound hnd ?_ ?_
    · rw [List.length_cons, List.length_append, List.length_map] at hcount
      omega
    · intro h0
      rw [List.append_nil] at h0
      obtain h0 | h0 := List.mem_cons.mp h0
      · omega
      · obtain ⟨r, hr, hr0⟩ := List.mem_map.mp h0
        have := hrun r hr
        have := h.valid.base_pos
        omega
    · intro x hx
      rw [List.append_nil] at hx
      obtain rfl | hx := List.mem_cons.mp hx
      · omega
      · obtain ⟨r, hr, rfl⟩ := List.mem_map.mp hx
        have := hrun r hr
        omega
  · intro r hr
    have := hrun r hr
    exact hown _ _ _ (by omega) (by omega)

/-- The page branch on a page of the lists whose free list is null-terminated. -/
theorem wp_kfreePage_own (hpage : InUse s.mem pg) (hne : pg.runs ≠ []) (ht : Freeable pg t)
    (hown : OwnsPage F pg.base) (hF : F.locks (.pagelist cpu)) :
    wp F.Allows (kfreePage cpu pg.base t.start) s fun _ s' =>
      Released s'.mem pg t ∧ nextAt s'.mem pg.base = nextAt s.mem pg.base ∧
        s'.var = s.var ∧ s'.lock = (s.setLock (.pagelist cpu) 0).lock := by
  have hge := ht.cls.ge
  have hlist := (Page.repr_iff (show pg.cls ≠ 0 by omega)).mp hpage.repr
  have hend : endOf pg.base pg.runs pg.tail = 0 := by
    rw [endOf, if_neg hne, Page.tail, hpage.ends]
    rfl
  apply wp_kfreePage_released (ht.site hown) hlist _ (by simp) (by simp) hF
  rw [hend]
  exact Path.nil.mpr rfl

theorem kfree_releases (h : Listed p s L) (hlock : s.lock (.pagelist cpu) = 0)
    (hk : k < p.cpuCount) (hq : pg.base ∈ L k) (hpage : InUse s.mem pg) (hne : pg.runs ≠ [])
    (ht : Freeable pg t) :
    ∃ s', Prog.exec (kfree p cpu t.start) s = .ok ((), s') ∧ Released s'.mem pg t := by
  have hwp := wp_kfreePage_own (s := s.setLock (.pagelist cpu) 1) hpage hne ht
    (anyFoot_ownsPage hpage.valid.base_pos) (show anyFoot.locks (.pagelist cpu) from trivial)
  obtain ⟨_, s', hexec, hrel, -⟩ := wp_exec hwp
  refine ⟨s', ?_, hrel⟩
  rw [h.exec_kfree hlock hk hq ht.inSpan, exec_locked hlock]
  exact hexec

/-- A joined node as long as the page is all of it. -/
theorem Freeable.whole_of_len (h : Freeable pg t)
    (hall : (joined t pg.runs).len = pageBytes - pg.cls) :
    joined t pg.runs = ⟨pg.base + pg.cls, pageBytes - pg.cls⟩ ∧ others t pg.runs = [] := by
  have hge := h.cls.ge
  have hle := h.cls.le
  have hpb : pageBytes = 65536 := rfl
  have hj := h.joined_isRun.bounds
  have hstart : (joined t pg.runs).start = pg.base + pg.cls := by
    unfold Region.stop at hj
    omega
  constructor
  · rw [← hstart, ← hall]
  · apply List.eq_nil_iff_forall_not_mem.mpr
    intro r hr
    have hd := (List.pairwise_cons.mp h.around.joined_pairwise).1 r hr
    have hrb := (h.valid.run r ((others_sublist t pg.runs).subset hr)).bounds
    unfold Disj Region.stop at *
    omega

/-- A null-terminated list of nodes is determined by its start. -/
theorem FreeList.unique {a : ℕ} {l l' : List Region} (h : FreeList m a l 0)
    (h' : FreeList m a l' 0) (hl : ∀ r ∈ l, r.start ≠ 0) (hl' : ∀ r ∈ l', r.start ≠ 0) :
    l = l' := by
  have hzero : ∀ {l : List Region}, (∀ r ∈ l, r.start ≠ 0) → 0 ∉ l.map Region.start := by
    intro l hl h0
    obtain ⟨r, hr, hr0⟩ := List.mem_map.mp h0
    exact hl r hr hr0
  have hstarts := h.path.unique h'.path (hzero hl) (hzero hl')
  have hread : ∀ {l : List Region} {a : ℕ}, FreeList m a l 0 →
      l = (l.map Region.start).map fun x => ⟨x, (sizeAt m x).toNat⟩ := by
    intro l a h
    rw [List.map_map]
    conv_lhs => rw [← List.map_id l]
    apply List.map_congr_left
    intro r hr
    simp only [Function.comp, h.size r hr, id, Int.toNat_natCast]
  rw [hread h, hread h', hstarts]

/-- The list after the block was freed, as the index leads to it. -/
theorem Released.freeBlocks (h : Released m pg t) (ht : Freeable pg t) (hne : pg.runs ≠ [])
    (hends : pg.looped = false) : FreeBlocks m pg.base pg.cls (pg.release t) := by
  have hge := ht.cls.ge
  obtain ⟨a, ha⟩ := h.list
  have hend : endOf pg.base pg.runs pg.tail = 0 := by
    rw [endOf, if_neg hne, Page.tail, hends]
    rfl
  rw [hend] at ha
  have hhead : 0 < wordAt m pg.base ∧ a = pg.base + wordAt m pg.base * pg.cls := by
    rw [h.index]
    cases hrel : pg.release t with
    | nil =>
      have hmem := ht.joined_mem_release
      rw [hrel] at hmem
      simp at hmem
    | cons r l =>
      have hrun := (ht.release_isRun (show r ∈ pg.release t by rw [hrel]; simp)).index
        (show 0 < pg.cls by omega)
      rw [hrel] at ha
      exact ⟨hrun.2, ha.start_eq.trans hrun.1.symm⟩
  refine ⟨hhead.1, ?_, fun r hr => ht.release_isRun hr, ht.release_disj, h.magic⟩
  rw [← hhead.2]
  exact ha

/-- The freed page has lost a node exactly when it skips. -/
theorem Released.addsBlock_iff (h : Released m pg t) (ht : Freeable pg t) (hne : pg.runs ≠ [])
    (hends : pg.looped = false) (hc : Coalesced pg.runs) :
    AddsBlock m pg t ↔ ¬ Skips pg t := by
  have hge := ht.cls.ge
  have hblocks := h.freeBlocks ht hne hends
  have hpos : ∀ {l : List Region}, (∀ r ∈ l, IsRun pg.base pg.cls r) → ∀ r ∈ l, r.start ≠ 0 := by
    intro l hl r hr
    have := (hl r hr).bounds
    omega
  constructor
  · rintro ⟨l, hl, hcov, -⟩ ⟨a, l₁, b, l₂, hruns, hl₁, ha, hb⟩
    -- a node between the head and `b` is covered before, and not after
    obtain rfl := hl.list.unique hblocks.list (hpos hl.run) (hpos hblocks.run)
    obtain ⟨c, hc₁⟩ := List.exists_mem_of_ne_nil l₁ hl₁
    have hcm : c ∈ pg.runs := by
      rw [hruns]
      simp [hc₁]
    have hclen := ht.around.pos c hcm
    have hcstart : c.Contains c.start := ⟨le_rfl, Nat.lt_add_of_pos_right hclen⟩
    obtain ⟨x, hx, hxc⟩ := (hcov c.start).mpr (.inl ⟨c, hcm, hcstart⟩)
    have hrel := ht.release_of_skips hruns ha hb
    have hnd := ht.around.nodup
    rw [hruns] at hnd
    obtain ⟨hca, hnd⟩ := List.nodup_cons.mp hnd
    obtain ⟨-, -, hcross⟩ := List.nodup_append.mp hnd
    rw [hrel] at hx
    obtain rfl | hx := List.mem_cons.mp hx
    · have hcb : c ≠ b := hcross c hc₁ b List.mem_cons_self
      have hca : c ≠ a := by
        rintro rfl
        exact hca (List.mem_append_left _ hc₁)
      have hbm : b ∈ pg.runs := by rw [hruns]; simp
      have ham : a ∈ pg.runs := by rw [hruns]; simp
      have hd : (joined t pg.runs).Disj c := by
        apply joined_disj hclen
        · intro r hr hne
          exact disjoint_of_ne ht.valid.disj hr hcm hne.symm
        · exact (ht.apart c hcm).symm
        · intro y hy
          rw [ht.touchingBelow_eq hbm hb] at hy
          cases hy
          exact hcb
        · intro y hy
          rw [ht.touchingAbove_eq ham ha] at hy
          cases hy
          exact hca
      exact hd.not_contains hxc hcstart
    · have hxm : x ∈ pg.runs := by
        rw [hruns]
        simp [hx]
      have hne : x ≠ c := (hcross c hc₁ x (List.mem_cons_of_mem _ hx)).symm
      exact (disjoint_of_ne ht.valid.disj hxm hcm hne).not_contains hxc hcstart
  · intro hkeep
    have hperm := ht.release_perm hkeep
    refine ⟨_, hblocks, fun x => ?_, ?_⟩
    · rw [covered_perm hperm]
      exact ht.around.covered_joined x
    · have hsize := h.size
      rw [Page.freed_cls] at hsize
      split_ifs at hsize with hall
      · obtain ⟨hj, ho⟩ := ht.whole_of_len hall
        rw [hj, ho] at hperm
        exact .inl ⟨hsize, List.perm_singleton.mp hperm⟩
      · exact .inr ⟨hsize, (ht.around.joined_coalesced hc).perm hperm⟩

/-- Freeing into a page that is not full adds exactly the block, unless the block joins the
head node above it to a node below it that does not come right after the head. -/
theorem kfree_adds_block_iff (h : Listed p s L) (hlock : s.lock (.pagelist cpu) = 0)
    (hk : k < p.cpuCount) (hq : pg.base ∈ L k) (hpage : InUse s.mem pg) (hne : pg.runs ≠ [])
    (ht : Freeable pg t) :
    ∃ s', Prog.exec (kfree p cpu t.start) s = .ok ((), s') ∧
      (AddsBlock s'.mem pg t ↔ ¬ Skips pg t) := by
  obtain ⟨s', hexec, hrel⟩ := kfree_releases h hlock hk hq hpage hne ht
  exact ⟨s', hexec, hrel.addsBlock_iff ht hne hpage.ends hpage.coalesced⟩

/-- A page of blocks of 4 KiB with blocks 5, 1, 3 and all blocks from 9 on free. -/
def fourNodes : Page :=
  ⟨0, 0x100000, 4096, [⟨0x105000, 4096⟩, ⟨0x101000, 4096⟩, ⟨0x103000, 4096⟩, ⟨0x109000, 28672⟩],
    false⟩

/-- Three blocks of eight were freed in the order 3, 1, 5. -/
theorem exists_fourNodes : ∃ s : PmmState,
    Listed halfMega s onePage ∧ InUse s.mem fourNodes ∧ s.lock (.pagelist 0) = 0 := by
  have hrun : ((runFrom halfMega (fun _ _ => True) blank
      [.alloc 0 4096, .alloc 0 4096, .alloc 0 4096, .alloc 0 4096, .alloc 0 4096, .alloc 0 4096,
        .alloc 0 4096, .alloc 0 4096, .free 0 0x103000, .free 0 0x101000, .free 0 0x105000]).map
      fun w => decide ((w.st.var (.pagehead 0) = 0x100000 ∧ w.st.var (.pagehead 1) = 0 ∧
        nextAt w.st.mem 0x100000 = 0) ∧ (sizeAt w.st.mem 0x100000 = 4096 ∧
        wordAt w.st.mem 0x100000 = 5 ∧ FreeList w.st.mem 0x105000 fourNodes.runs 0 ∧
        ∀ r ∈ fourNodes.runs, wordAt w.st.mem r.start = toWord pageMagic) ∧
        w.st.lock (.pagelist 0) = 0)) = some true := by decide +kernel
  obtain ⟨w, hw, hall⟩ := Option.map_eq_some_iff.mp hrun
  obtain ⟨⟨hhead, hother, hnext⟩, ⟨hsize, hindex, hlist, hmagic⟩, hlock⟩ := of_decide_eq_true hall
  have hclass : SizeClass 4096 := by
    have hround : roundSize 4096 = 4096 := by decide +kernel
    rw [← hround]
    exact sizeClass_roundSize (by decide)
  refine ⟨w.st, listed_onePage hhead hother hnext, ⟨?_, hclass, ?_, rfl, ?_⟩, hlock⟩
  · refine ⟨by decide, by decide, .inr hclass, ?_, by decide, by decide⟩
    intro r hr
    simp only [fourNodes, List.mem_cons, List.not_mem_nil, or_false] at hr
    obtain rfl | rfl | rfl | rfl := hr
    · exact ⟨5, 1, by decide⟩
    · exact ⟨1, 1, by decide⟩
    · exact ⟨3, 1, by decide⟩
    · exact ⟨9, 7, by decide⟩
  · exact ⟨hsize, hindex, ⟨_, hlist⟩, hmagic⟩
  · unfold Coalesced
    decide

theorem freeable_fourNodes {k : ℕ} (hk : k ∈ [2, 4]) :
    Freeable fourNodes ⟨0x100000 + k * 4096, 4096⟩ := by
  obtain ⟨s, -, huse, -⟩ := exists_fourNodes
  simp only [List.mem_cons, List.not_mem_nil, or_false] at hk
  obtain rfl | rfl := hk
  · exact ⟨huse.valid, huse.cls, ⟨2, by decide⟩, rfl, by decide⟩
  · exact ⟨huse.valid, huse.cls, ⟨4, by decide⟩, rfl, by decide⟩

/-- Block 2 joins blocks 1 and 3, neither of which is the head. -/
theorem kfree_adds_second_block : ∃ s s' : PmmState, InUse s.mem fourNodes ∧
    Prog.exec (kfree halfMega 0 0x102000) s = .ok ((), s') ∧
    AddsBlock s'.mem fourNodes ⟨0x102000, 4096⟩ := by
  obtain ⟨s, hlisted, huse, hlock⟩ := exists_fourNodes
  obtain ⟨s', hexec, hiff⟩ := kfree_adds_block_iff (k := 0) hlisted hlock (by decide)
    (by decide) huse (by decide) (freeable_fourNodes (k := 2) (by decide))
  refine ⟨s, s', huse, hexec, hiff.mpr ?_⟩
  rintro ⟨a, l₁, b, l₂, hruns, -, ha, -⟩
  obtain rfl := (List.cons.inj hruns).1
  exact absurd ha (by decide)

/-- Block 4 joins the head, block 5, and block 3 behind block 1: block 1 is lost. -/
theorem kfree_drops_block : ¬ ∀ (p : Platform) (s : PmmState) (L : ℕ → List ℕ) (cpu k : ℕ)
    (pg : Page) (t : Region), Listed p s L → s.lock (.pagelist cpu) = 0 → k < p.cpuCount →
      pg.base ∈ L k → InUse s.mem pg → pg.runs ≠ [] → Freeable pg t →
      ∃ s', Prog.exec (kfree p cpu t.start) s = .ok ((), s') ∧ AddsBlock s'.mem pg t := by
  intro hclaim
  obtain ⟨s, hlisted, huse, hlock⟩ := exists_fourNodes
  have hlive := freeable_fourNodes (k := 4) (by decide)
  obtain ⟨s', hexec, hadds⟩ := hclaim halfMega s onePage 0 0 fourNodes _ hlisted hlock (by decide)
    (by decide) huse (by decide) hlive
  obtain ⟨s'', hexec', hrel⟩ := kfree_releases (k := 0) hlisted hlock (by decide)
    (by decide) huse (by decide) hlive
  rw [hexec] at hexec'
  cases hexec'
  apply (hrel.addsBlock_iff hlive (by decide) rfl huse.coalesced).mp hadds
  exact ⟨⟨0x105000, 4096⟩, [⟨0x101000, 4096⟩], ⟨0x103000, 4096⟩, [⟨0x109000, 28672⟩], rfl,
    by simp, rfl, rfl⟩

end Give
end KmallocKfree
