import KmallocKfree.SharedKalloc

/-!
# `kfree` beside other calls

`kfree` walks the page lists of all CPUs while these may put new pages in front of theirs. It
reads the links of listed pages only, and finds no page but the one with the block: its own
CPU's, or none. The work on the page and the section of a large block are those of a `kfree`
that runs alone.
-/
namespace KmallocKfree

open Prog Region Shape Sharing

/-- The page at `q` is in some list. -/
def Ledger.Listed (g : Ledger) (q : ℕ) : Prop := ∃ k, q ∈ g.linked k

/-- What a scan of page lists may find. -/
def Ledger.Finds (g : Ledger) (ptr : ℕ) (found : ℕ × Bool) : Prop :=
  found = (0, false) ∨ ∃ q, g.Listed q ∧ InSpan q ptr ∧ found = (q, true)

section Scan

variable {p : Platform} {s t u : PmmState} {g h k : Ledger} {i j n q ptr : ℕ} {pg : Page}
  {b : Block} {T : List ℕ}

theorem Ledger.Listed.later (hq : g.Listed q) (hl : (pmmSharing p).Later i s g t h) :
    h.Listed q := hq.imp fun k hk => hl.same.known k q hk

/-- A listed page is a page. -/
theorem Kept.listed_page (hk : Kept p t h) (hq : h.Listed q) :
    ∃ y ∈ h.shape.pages, y.base = q := by
  obtain ⟨k, hq⟩ := hq
  obtain ⟨y, hy, hbase⟩ := hk.bases k q hq
  exact ⟨y, (mem_pagesOf.mp hy).1, hbase⟩

/-- The link of a listed page leads to a listed page, or ends the list. -/
theorem Kept.link_listed (hk : Kept p t h) (hq : h.Listed q) :
    nextAt t.mem q = 0 ∨ h.Listed (nextAt t.mem q) := by
  obtain ⟨k, hq⟩ := hq
  obtain ⟨y, hy, -⟩ := hk.bases k q hq
  obtain ⟨hmem, rfl⟩ := mem_pagesOf.mp hy
  have hpath := hk.lists y.owner (hk.sound.pages y hmem).2
  obtain hnext | hend := hpath.link_mem hq
  · exact .inr ⟨y.owner, List.mem_of_mem_tail hnext⟩
  · exact .inl hend

theorem Kept.head_listed (hk : Kept p t h) (hj : j < p.cpuCount) :
    t.var (.pagehead j) = 0 ∨ h.Listed (t.var (.pagehead j)) := by
  have hpath := hk.lists j hj
  cases hl : h.linked j with
  | nil =>
    rw [hl] at hpath
    exact .inl hpath
  | cons q rest =>
    rw [hl] at hpath
    exact .inr ⟨j, by rw [hl, hpath.1]; exact List.mem_cons_self⟩

/-- An operation that changes nothing is a step. -/
theorem step_same {o : Op Struct Global Lock} (hk : Kept p t h) (ho : ∀ l, ¬ o.Changes l) :
    (pmmSharing p).Step i o t h t h :=
  ⟨hk, fun j _ => .refl _ j t h, (pmmSharing p).moves_own fun l hl => absurd hl (ho l)⟩

/-- The scan of a list, whoever owns it. -/
theorem safe_scanPagelist (hq : q = 0 ∨ g.Listed q) (hw : Kept p s g) :
    (pmmSharing p).Safe i (scanPagelist ptr q) s g fun found t h =>
      Kept p t h ∧ (pmmSharing p).Later i s g t h ∧ h.Finds ptr found := by
  unfold scanPagelist walk
  refine safe_iterate (fun x t h => Kept p t h ∧ (pmmSharing p).Later i s g t h ∧
    (x.1 = 0 ∨ h.Listed x.1)) ?_ loopBound ⟨hw, .refl _ i s g, hq⟩
  rintro ⟨x, a⟩ t h ⟨hk, hl, hx⟩
  by_cases hzero : x = 0
  · simp only [hzero, if_true]
    exact ⟨hk, hl, .inl rfl⟩
  · have hlisted : h.Listed x := hx.resolve_left hzero
    simp only [hzero, if_false]
    by_cases htest : x < ptr ∧ ptr < addPtr x pageBytes
    · simp only [htest]
      obtain ⟨y, hy, rfl⟩ := hk.listed_page hlisted
      have hmax := (hk.sound.pages y hy).1.max
      rw [addPtr_of_lt hmax] at htest
      exact ⟨hk, hl, .inr ⟨y.base, hlisted, htest, rfl⟩⟩
    · simp only [htest]
      intro t₁ h₁ hk₁ hl₁
      have hlisted₁ := hlisted.later hl₁
      obtain ⟨k, hmem⟩ := hlisted₁
      refine ⟨.link hmem, fun _ v t₂ hrun => ?_⟩
      have hnext := hk₁.link_listed ⟨k, hmem⟩
      obtain ⟨hv, rfl⟩ : nextAt t₁.mem x = v ∧ t₁ = t₂ := by
        simp only [Op.run, if_neg hzero, Nat.add_zero, Except.ok.injEq, Prod.mk.injEq] at hrun
        unfold nextAt
        exact hrun
      rw [hv] at hnext
      exact ⟨h₁, step_same hk₁ fun _ hc => hc, hk₁, hl.trans hl₁, hnext⟩

/-- A check of the results of a scan, and what follows it. -/
theorem safe_scanCpus (hw : Kept p s g) (hin : j + n ≤ p.cpuCount) :
    (pmmSharing p).Safe i (scanCpus ptr n j) s g fun found t h =>
      Kept p t h ∧ (pmmSharing p).Later i s g t h ∧ h.Finds ptr found := by
  induction n generalizing s g j with
  | zero => exact ⟨hw, .refl _ i s g, .inl rfl⟩
  | succ n ih =>
    intro t h hk hl
    refine ⟨.pagehead, fun _ v t' hrun => ?_⟩
    cases hrun
    refine ⟨h, step_same hk fun _ hc => hc, ?_⟩
    have hj : j < p.cpuCount := by omega
    change (pmmSharing p).Safe i (scanPagelist ptr (t.var (.pagehead j)) >>= fun found =>
      if found.2 = true then pure found else scanCpus ptr n (j + 1)) t h _
    refine safe_bind ((safe_scanPagelist (hk.head_listed hj) hk).mono ?_)
    rintro found u k ⟨hku, hlu, hfound⟩
    split_ifs with hflag
    · exact ⟨hku, hl.trans hlu, hfound⟩
    · refine (ih hku (by omega)).mono ?_
      rintro found' v k' ⟨hkv, hlv, hfound'⟩
      exact ⟨hkv, (hl.trans hlu).trans hlv, hfound'⟩

/-- The page that a scan may find is the page of the block. -/
theorem Kept.finds_own (hk : Kept p t h) (hpg : pg ∈ h.shape.pages) (hin : InSpan pg.base ptr)
    {found : ℕ × Bool} (hf : h.Finds ptr found) (hne : found ≠ (0, false)) :
    found = (pg.base, true) := by
  obtain ⟨q, hq, hqin, rfl⟩ := hf.resolve_left hne
  obtain ⟨y, hy, rfl⟩ := hk.listed_page hq
  rw [hk.sound.inPage_unique hpg hy hin hqin]

/-- The scan of its own list finds the page. -/
theorem wp_scanPagelist_own (hst : Settled i s g) (hk : Kept p s g) (hi : i < p.cpuCount)
    (hpg : pg ∈ g.shape.pagesOf i) (hin : InSpan pg.base ptr) :
    wp (g.foot i).Allows (scanPagelist ptr (s.var (.pagehead i))) s fun found t =>
      found = (pg.base, true) ∧ t = s := by
  obtain ⟨hpath, hsees, hcount⟩ := hst.walk hk hi
  have hspan : ∀ y ∈ g.shape.pagesOf i, (y.base < ptr ∧ ptr < addPtr y.base pageBytes) ↔
      InSpan y.base ptr := by
    intro y hy
    rw [addPtr_of_lt (hk.sound.pages y (mem_pagesOf.mp hy).1).1.max]
    rfl
  refine wp_scanPagelist hpath hsees hcount ⟨?_, rfl⟩
  cases hf : ((g.shape.pagesOf i).map Page.base).find? fun x =>
      decide (x < ptr ∧ ptr < addPtr x pageBytes) with
  | none =>
    have hmiss := List.find?_eq_none.mp hf pg.base (List.mem_map_of_mem hpg)
    exact absurd (decide_eq_true ((hspan pg hpg).mpr hin)) hmiss
  | some a =>
    obtain ⟨y, hy, rfl⟩ := List.mem_map.mp (List.mem_of_find?_eq_some hf)
    have hyin : InSpan y.base ptr := (hspan y hy).mp (by simpa using List.find?_some hf)
    rw [hk.sound.inPage_unique (mem_pagesOf.mp hpg).1 (mem_pagesOf.mp hy).1 hin hyin]
    rfl

/-- A block in a page of the CPU itself: the scan finds the page. -/
theorem safe_scanCpus_own (hst : Settled i s g) (hw : Kept p s g) (hpg : pg ∈ g.shape.pagesOf i)
    (hin : InSpan pg.base ptr) (hj : j ≤ i) (hij : i < j + n) (hcount : j + n ≤ p.cpuCount) :
    (pmmSharing p).Safe i (scanCpus ptr n j) s g fun found t h =>
      (pmmSharing p).Later i s g t h ∧ found = (pg.base, true) := by
  induction n generalizing s g j with
  | zero => omega
  | succ n ih =>
    intro t h hk hl
    have hstt := hst.later hk hl
    have hpgt : pg ∈ h.shape.pagesOf i := by rwa [hl.same.pages]
    refine ⟨.pagehead, fun _ v t' hrun => ?_⟩
    cases hrun
    refine ⟨h, step_same hk fun _ hc => hc, ?_⟩
    change (pmmSharing p).Safe i (scanPagelist ptr (t.var (.pagehead j)) >>= fun found =>
      if found.2 = true then pure found else scanCpus ptr n (j + 1)) t h _
    refine safe_bind ?_
    by_cases hji : j = i
    · subst hji
      refine (safe_of_wp (wp_scanPagelist_own hstt hk (by omega) hpgt hin) (.refl _)
        (fun _ => Kept.own_lock hstt.outside) (.refl _ j t h)).mono ?_
      rintro found u k ⟨s', ⟨rfl, rfl⟩, hlu⟩
      exact ⟨hl.trans hlu, rfl⟩
    · have hjcount : j < p.cpuCount := by omega
      refine (safe_scanPagelist (hk.head_listed hjcount) hk).mono ?_
      rintro found u k ⟨hku, hlu, hfound⟩
      have hpgu : pg ∈ k.shape.pagesOf i := by rwa [hlu.same.pages]
      by_cases hne : found = (0, false)
      · subst hne
        refine (ih (hstt.later hku hlu) hku hpgu (by omega) (by omega) (by omega)).mono ?_
        rintro found' v k' ⟨hlv, hfound'⟩
        exact ⟨(hl.trans hlu).trans hlv, hfound'⟩
      · obtain rfl := hku.finds_own (mem_pagesOf.mp hpgu).1 hin hfound hne
        exact ⟨hl.trans hlu, rfl⟩

end Scan

/-- CPU `i` is to free the small block `b` of its page `pg`. The headers `T` that the walk over
the nodes of the page runs on into do not touch the block. -/
structure Freeing (i : ℕ) (pg : Page) (b : Block) (T : List ℕ) (s : PmmState) (g : Ledger) :
    Prop extends Rest i s g where
  hand : g.inHand i = some b
  small : ¬ b.Huge
  mem : pg ∈ g.shape.pagesOf i
  house : Houses pg b
  path : Path (nextAt s.mem) (endOf pg.base pg.runs pg.tail) T 0
  sublist : T.Sublist ((g.shape.pagesOf i).map Page.base)
  below : ∀ q ∈ T, stopAt s.mem q ≠ b.addr
  above : ∀ q ∈ T, q ≠ b.region.stop

section Small

variable {p : Platform} {s t u : PmmState} {g h : Ledger} {i : ℕ} {pg : Page} {b : Block}
  {T : List ℕ}

theorem Freeing.later (hf : Freeing i pg b T s g) (hk : Kept p t h)
    (hl : (pmmSharing p).Later i s g t h) : Freeing i pg b T t h := by
  have hrecord : ∀ q ∈ T, SameRecord s.mem t.mem q := by
    intro q hq
    obtain ⟨y, hy, rfl⟩ := List.mem_map.mp (hf.sublist.subset hq)
    exact hk.record_later hl hy
  exact
    { hf.toRest.later hk hl with
      hand := hl.same.inHand.trans hf.hand
      small := hf.small
      mem := by
        rw [hl.same.pages]
        exact hf.mem
      house := hf.house
      path := hf.path.congr fun q hq => (hrecord q hq).next
      sublist := by
        rw [hl.same.pages]
        exact hf.sublist
      below := fun q hq => by
        rw [stopAt, (hrecord q hq).size]
        exact hf.below q hq
      above := hf.above }

/-- What the page branch of `kfree` finds. -/
theorem Freeing.site (hf : Freeing i pg b T s g) (hk : Kept p u g) :
    FreeSite (g.siteFoot i pg) pg b.region T := by
  obtain ⟨hmem, howner⟩ := mem_pagesOf.mp hf.mem
  obtain ⟨hb, hlive⟩ := hk.inHand i b hf.hand
  have hs := hk.sound
  have hpos := (hs.pages pg hmem).1.base_pos
  have hsound : Sound p g.shape (b :: g.blocks.erase b) := hs.perm (List.perm_cons_erase hb)
  have hapart : ∀ c ∈ g.live, b.region.Disj c.region := fun c hc => by
    refine (List.pairwise_cons.mp hsound.apart).1 c ((List.mem_erase_of_ne ?_).mpr (hk.sub c hc))
    rintro rfl
    exact hlive hc
  have hfree := hs.freeable hmem hf.small hf.house
  have hsub : T.Sublist ((g.shape.pagesOf pg.owner).map Page.base) := howner ▸ hf.sublist
  obtain ⟨hout, hnodup, hcount⟩ := hs.walk_clear hmem hfree hsub
  have hin : b.region.Within pg.span := hf.house.within
  have hbounds := hf.house.bounds
  have hge := (Block.sizeClass hf.small).ge
  have hcls := hfree.cls.ge
  have hrec : Within ⟨b.addr, headerBytes⟩ b.region := by
    unfold Within Block.region Region.stop headerBytes
    simp only
    omega
  have hpast : pg.base + 8 ≤ b.addr := by omega
  refine ⟨hfree, hout, hnodup, hcount, hk.siteFoot_header hf.mem, fun r hr => ?_, ?_,
    fun q hq => ?_, ?_⟩
  · exact hk.siteFoot_run hf.mem hr (run_record (hs.pages pg hmem).1 hr).1
  · exact Ledger.siteFoot_owns hf.mem ⟨le_trans hin.1 hrec.1, le_trans hrec.2 hin.2⟩ hpast
      fun c hc => (hapart c hc).mono hrec
  · obtain ⟨y, hy, rfl⟩ := List.mem_map.mp (hf.sublist.subset hq)
    exact ⟨(hs.pages y (mem_pagesOf.mp hy).1).1.base_pos.ne', trivial, (hk.own_records hy).header⟩
  · exact Ledger.siteFoot_owns hf.mem hin hpast hapart

/-- The page branch of `kfree` takes the block back. -/
theorem proceeds_kfreePage (hf : Freeing i pg b T s g) (hk : Kept p u g) {t : PmmState}
    (hmem : t.mem = s.mem) (ptr : ℕ) :
    (pmmSharing p).Proceeds i (kfreePage i pg.base b.addr) t g fun _ =>
      Done p i (.free ptr) 0 := by
  obtain ⟨hpg, howner⟩ := mem_pagesOf.mp hf.mem
  have hsite := hf.site hk
  have hc := hsite.cls.ge
  have hlist := (Page.repr_iff (show pg.cls ≠ 0 by omega)).mp (hf.pages pg hf.mem)
  have hpath := hf.path
  have hbelow := hf.below
  rw [← hmem] at hlist hpath hbelow
  have hlocks : (g.siteFoot i pg).locks (.pagelist i) := rfl
  have hrun := wp_kfreePage (F := g.siteFoot i pg) (s := t) hsite hlist hpath hbelow hf.above hlocks
  refine proceeds_last (hk.siteFoot_sub hf.mem) (fun _ hl => hl) (wp_post (wp_frame hrun) ?_)
  rintro _ v ⟨⟨hfreed, -, -, hlock⟩, hframe⟩
  have hs : ∀ (h : Ledger) P₁ P₂, Sound p h.shape h.blocks → b ∈ h.blocks →
      h.shape.pages = P₁ ++ pg :: P₂ →
      Sound p ⟨h.shape.free, P₁ ++ pg.freed b.region :: P₂⟩ (h.blocks.erase b) := by
    intro h P₁ P₂ hs hb hpages
    have hsound : Sound p h.shape (b :: h.blocks.erase b) := hs.perm (List.perm_cons_erase hb)
    exact hsound.freePage hpages hf.small hf.house
  obtain ⟨hb, hlive⟩ := hk.inHand i b hf.hand
  have hw : Working i pg t g := ⟨hf.mem, fun y hy _ => hmem ▸ hf.pages y hy, hf.linked, hf.outside⟩
  have hworked := hw.done hk hframe hfreed (pg.freed_base _) (pg.freed_owner _)
    (fun P₁ P₂ => hs g P₁ P₂ hk.sound hb) (fun c hc => ?_) (by rw [hlock]; simp)
  · exact done_of_take_back hworked hf.hand hs
  · refine (List.mem_erase_of_ne ?_).mpr (hk.sub c hc)
    rintro rfl
    exact hlive hc

/-- While CPU `i` holds the lock of its list, all is as if it did not. -/
theorem later_unlock (ho : h.holder ≠ some i) (hlock : t.lock (.pagelist i) = 0) {k : Ledger}
    (hl : (pmmSharing p).Later i (t.setLock (.pagelist i) 1) h u k) :
    (pmmSharing p).Later i t h (u.setLock (.pagelist i) 0) k := by
  refine ⟨hl.same, hl.agree.mem, hl.agree.var, fun l hown => ?_⟩
  obtain rfl := Kept.own_lock ho hown
  exact (if_pos rfl).trans hlock.symm

theorem Kept.unlock (hk : Kept p t h) (i v : ℕ) : Kept p (t.setLock (.pagelist i) v) h :=
  ⟨hk.sound, hk.long, hk.heap, hk.released, hk.lists, hk.bases, hk.headers, hk.sub, hk.nodup,
    hk.inHand, hk.unique⟩

/-- `kfree` of a small block of the CPU's own. -/
theorem proceeds_kfree_small (hf : Freeing i pg b T s g) (hi : i < p.cpuCount) :
    (pmmSharing p).Proceeds i (kfree p i b.addr) s g fun _ => Done p i (.free b.addr) 0 := by
  refine proceeds_whole fun t h hk hl => ?_
  have hft := hf.later hk hl
  have hin : InSpan pg.base b.addr := hf.house.inPage hf.small
  have hlock : (h.foot i).locks (.pagelist i) := .inl rfl
  unfold kfree
  refine proceeds_own hft.outside ?_
  rw [wp_check]
  refine ⟨by unfold InSpan at hin; omega, proceeds_own hft.outside ?_⟩
  rw [wp_lock hlock hft.unlocked]
  have hst : Settled i (t.setLock (.pagelist i) 1) h :=
    ⟨⟨hft.pages, hft.linked⟩, hft.outside⟩
  refine proceeds_whole fun t₁ h₁ hk₁ hl₁ => ?_
  have hpg : pg ∈ h₁.shape.pagesOf i := by
    rw [hl₁.same.pages]
    exact hft.mem
  refine proceeds_bind ((safe_scanCpus_own (hst.later hk₁ hl₁) hk₁ hpg hin (Nat.zero_le i)
    (by omega) (by omega)).mono ?_)
  rintro _ u k ⟨hlu, rfl⟩
  refine proceeds_whole fun u₁ k₁ hku₁ hlu₁ => ?_
  have hlater := later_unlock hft.outside hft.unlocked ((hl₁.trans hlu).trans hlu₁)
  have hfu := hft.later (hku₁.unlock i 0) hlater
  have hpos := (hku₁.sound.pages pg (mem_pagesOf.mp hfu.mem).1).1.base_pos
  rw [if_pos (show (pg.base, true).1 ≠ 0 from hpos.ne')]
  have hmem : u₁.mem = (u₁.setLock (.pagelist i) 0).mem := rfl
  refine proceeds_own hfu.outside ?_
  rw [wp_check]
  exact ⟨rfl, proceeds_kfreePage hfu hku₁ hmem b.addr⟩

end Small

section Large

variable {p : Platform} {s : PmmState} {g : Ledger} {i : ℕ} {b : Block}

/-- `kfree` of a large block. -/
theorem proceeds_kfree_large (hr : Rest i s g) (hhand : g.inHand i = some b) (hbh : b.Huge)
    (hsize : sizeAt s.mem b.span.start = b.size)
    (hmagic : wordAt s.mem b.span.start = toWord hugeMagic) :
    (pmmSharing p).Proceeds i (kfree p i b.addr) s g fun _ => Done p i (.free b.addr) 0 := by
  refine proceeds_whole fun t h hk hl => ?_
  have hrt := hr.later hk hl
  have hmem := (hk.inHand i b (hl.same.inHand.trans hhand)).1
  have hlock : (h.foot i).locks (.pagelist i) := .inl rfl
  unfold kfree
  refine proceeds_own hrt.outside ?_
  rw [wp_check]
  obtain ⟨-, haddr, -⟩ := hk.sound.huge b hmem hbh
  refine ⟨by unfold headerBytes at haddr; omega, proceeds_own hrt.outside ?_⟩
  rw [wp_lock hlock hrt.unlocked]
  refine proceeds_whole fun t₁ h₁ hk₁ hl₁ => ?_
  refine proceeds_bind ((safe_scanCpus hk₁ (by omega)).mono ?_)
  rintro found u k ⟨hku, hlu, hfound⟩
  have hlater := later_unlock hrt.outside hrt.unlocked (hl₁.trans hlu)
  have hmem' : b ∈ k.blocks :=
    (hku.inHand i b (hlater.same.inHand.trans (hl.same.inHand.trans hhand))).1
  obtain rfl : found = (0, false) := by
    obtain hnone | ⟨q, hq, hin, -⟩ := hfound
    · exact hnone
    · obtain ⟨y, hy, rfl⟩ := hku.listed_page hq
      exact absurd hin (hku.sound.huge_not_inPage hmem' hbh hy)
  rw [if_neg (by simp)]
  change (pmmSharing p).Proceeds i (unlock (.pagelist i) >>= fun _ => hugeSection b.addr) u k _
  have hru := hrt.later (hku.unlock i 0) hlater
  have hlocku : (k.foot i).locks (.pagelist i) := .inl rfl
  refine proceeds_own hru.outside ?_
  rw [wp_unlock hlocku]
  have hfirst : (pmmSharing p).Later i s g (u.setLock (.pagelist i) 0) k := hl.trans hlater
  have hrecord : SameRecord s.mem (u.setLock (.pagelist i) 0).mem b.span.start :=
    later_record hfirst fun y h₁ h₂ =>
      .inr (.inl ⟨b, hhand, hbh, contains_of_within (span_record b) h₁ h₂⟩)
  refine proceeds_of_safe (safe_free_section hru ?_ hbh (hrecord.size.trans hsize)
    (hrecord.word.trans hmagic))
  exact hlater.same.inHand.trans (hl.same.inHand.trans hhand)

end Large

end KmallocKfree
