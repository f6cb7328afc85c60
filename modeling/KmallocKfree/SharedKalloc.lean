import KmallocKfree.HeapLedger

/-!
# `kalloc` beside other calls

`kalloc` keeps to the places of its CPU, to the links of its list and to the sections under
the heap lock, so it does what it does alone, whatever calls run on the other CPUs.
-/
namespace KmallocKfree

open Prog Region Shape Sharing

section Paged

/-- A part outside the sections is verified as if it ran alone. -/
theorem proceeds_own {p : Platform} {α β : Type} {i : ℕ} {s : PmmState} {g : Ledger} {r : Code β}
    {f : β → Code α} {Q : α → PmmState → Ledger → Prop} (ho : g.holder ≠ some i)
    (hr : wp (g.foot i).Allows r s fun b s' => (pmmSharing p).Proceeds i (f b) s' g Q) :
    (pmmSharing p).Proceeds i (r >>= f) s g Q :=
  proceeds_wp (.refl _) (fun _ => Kept.own_lock ho) hr

variable {p : Platform} {s t u : PmmState} {g h : Ledger} {i n : ℕ} {pg : Page} {r : Region}
  {rest : List Region} {P₁ P₂ : List Page}

/-- The fast path of `kalloc`. -/
theorem proceeds_kallocFast (hw : Settled i s g) (hk : Kept p u g) (hpg : pg ∈ g.shape.pagesOf i)
    (hn : n ≤ 16384) (hcls : pg.cls = roundSize n) (hruns : pg.runs = r :: rest) :
    (pmmSharing p).Proceeds i (kallocFast i pg.base (roundSize n)) s g
      (Done p i (.alloc n)) := by
  obtain ⟨hmem, rfl⟩ := mem_pagesOf.mp hpg
  have hv := (hk.sound.pages pg hmem).1
  have hr : r ∈ pg.runs := by rw [hruns]; simp
  have hge := (hv.sizeClass_of_mem hr).ge
  have hrb := (hv.run r hr).bounds
  obtain ⟨hrec, hspan⟩ := run_record hv hr
  have hbytes : Within ⟨r.start, pg.cls⟩ r := by
    unfold Within Region.stop
    simp only
    omega
  have hnew : r.len ≠ pg.cls → Within ⟨r.start + pg.cls, 16⟩ r := by
    intro hne
    have := ((hv.run r hr).rest hne).2
    unfold Within Region.stop
    simp only
    omega
  have hlist : (g.siteFoot pg.owner pg).locks (.pagelist pg.owner) := rfl
  have hrun := wp_kallocFast (F := g.siteFoot pg.owner pg) (s := s) hv (hw.pages pg hpg) hruns
    (hk.siteFoot_header hpg) (hk.siteFoot_run hpg hr hrec)
    (fun hne => hk.siteFoot_run hpg hr (hnew hne)) (hk.siteFoot_run hpg hr hbytes) hlist
  rw [hcls] at hrun
  refine proceeds_last (hk.siteFoot_sub hpg) (fun _ hl => hl) (wp_post (wp_frame hrun) ?_)
  rintro _ t ⟨⟨rfl, hpop, -, -, hlock⟩, hf⟩
  have hin : (⟨r.start, n⟩ : Block).region.Within pg.span := by
    have hlen : (⟨r.start, n⟩ : Block).size = pg.cls := hcls.symm
    unfold Block.region
    rw [hlen]
    exact ⟨le_trans hspan.1 hbytes.1, le_trans hbytes.2 hspan.2⟩
  have hs : ∀ (h : Ledger) P₁ P₂, Sound p h.shape h.blocks → h.shape.pages = P₁ ++ pg :: P₂ →
      Sound p ⟨h.shape.free, P₁ ++ pg.pop :: P₂⟩ (⟨r.start, n⟩ :: h.blocks) :=
    fun h P₁ P₂ hs hpages => hs.pop hpages hruns (small_of_le hn) hcls.symm rfl
  have hworked := (hw.working hpg).done hk hf hpop rfl rfl (fun P₁ P₂ => hs g P₁ P₂ hk.sound)
    (fun c hc => List.mem_cons_of_mem _ (hk.sub c hc)) (by rw [hlock]; simp)
  refine done_of_hand_out (b := ⟨r.start, n⟩) hworked (small_of_le hn) ?_ hin hs
  change r.start ≠ 0
  omega

/-- Block 1 of a page that has the class of the request and no node yet. -/
theorem proceeds_takeFirstBlock (hw : Working i pg s g) (hk : Kept p u g) (hn : n ≤ 16384)
    (hsize : sizeAt s.mem pg.base = roundSize n) (hindex : wordAt s.mem pg.base = 1)
    (hwhole : ∀ (h : Ledger) P₁ P₂, Sound p h.shape h.blocks → h.shape.pages = P₁ ++ pg :: P₂ →
      Sound p ⟨h.shape.free, P₁ ++ Page.whole i pg.base (roundSize n) :: P₂⟩ h.blocks) :
    (pmmSharing p).Proceeds i (takeFirstBlock i pg.base (roundSize n)) s g
      (Done p i (.alloc n)) := by
  have hpg := hw.mem
  obtain ⟨hmem, howner⟩ := mem_pagesOf.mp hpg
  obtain ⟨P₁, P₂, hpages⟩ := List.append_of_mem hmem
  have hs := hwhole g P₁ P₂ hk.sound hpages
  have hv := (hk.sound.pages pg hmem).1
  have hpos := hv.base_pos
  have hclass := sizeClass_roundSize hn
  have hge := hclass.ge
  have hle := hclass.le
  have hpb : pageBytes = 65536 := rfl
  set r : Region := ⟨pg.base + roundSize n, pageBytes - roundSize n⟩ with hr
  have howns : ∀ {k : Struct} {q m : ℕ}, Within ⟨q, m⟩ r → (g.siteFoot i pg).Owns k q m := by
    intro k q m hin
    have hlow : r.start ≤ q := hin.1
    refine Ledger.siteFoot_owns hpg ?_ ?_ fun b hb => hs.run_clear rfl (List.mem_singleton_self r)
      hin b (hk.sub b hb)
    · unfold Within Page.span Region.stop at *
      simp only [hr] at *
      omega
    · simp only [hr] at hlow
      omega
  have hnode : Within ⟨pg.base + 2 * roundSize n, 16⟩ r := by
    unfold Within Region.stop
    simp only [hr]
    omega
  have hbytes : Within ⟨pg.base + roundSize n, roundSize n⟩ r := by
    unfold Within Region.stop
    simp only [hr]
    omega
  have hlist : (g.siteFoot i pg).locks (.pagelist i) := rfl
  have hrun : wp (g.siteFoot i pg).Allows (takeFirstBlock i pg.base (roundSize n)) s fun ret t =>
      ret = pg.base + roundSize n ∧ (Page.fresh i pg.base (roundSize n)).Repr t.mem ∧ _ :=
    wp_takeFirstBlock hclass hv.max hsize hindex (hk.siteFoot_header hpg) (howns hnode)
      (howns hbytes) hlist
  refine proceeds_last (hk.siteFoot_sub hpg) (fun _ hl => hl) (wp_post (wp_frame hrun) ?_)
  rintro _ t ⟨⟨rfl, hfresh, -, -, hlock⟩, hf⟩
  have hin : (⟨pg.base + roundSize n, n⟩ : Block).region.Within pg.span := by
    have hlen : (⟨pg.base + roundSize n, n⟩ : Block).size = roundSize n := rfl
    unfold Block.region Within Page.span Region.stop
    rw [hlen]
    simp only
    omega
  have hfreshs : ∀ (h : Ledger) P₁ P₂, Sound p h.shape h.blocks →
      h.shape.pages = P₁ ++ pg :: P₂ → Sound p ⟨h.shape.free,
        P₁ ++ Page.fresh i pg.base (roundSize n) :: P₂⟩ (⟨pg.base + roundSize n, n⟩ :: h.blocks) :=
    fun h P₁ P₂ hs hpages => Sound.fresh hn (hwhole h P₁ P₂ hs hpages)
  have hworked := hw.done hk hf hfresh rfl howner.symm (fun P₁ P₂ => hfreshs g P₁ P₂ hk.sound)
    (fun c hc => List.mem_cons_of_mem _ (hk.sub c hc)) (by rw [hlock]; simp)
  refine done_of_hand_out (b := ⟨pg.base + roundSize n, n⟩) hworked (small_of_le hn) ?_ hin hfreshs
  change pg.base + roundSize n ≠ 0
  omega

end Paged

section NewPage

variable {p : Platform} {s t u : PmmState} {g h k : Ledger} {i n q : ℕ} {pg : Page} {α : Type}
  {Q : α → PmmState → Ledger → Prop}

theorem Unlisted.later (hg : Unlisted i pg s g) (hk : Kept p t h)
    (hl : (pmmSharing p).Later i s g t h) : Unlisted i pg t h where
  mem := by
    rw [hl.same.pages]
    exact hg.mem
  others y hy hne := by
    rw [hl.same.pages] at hy
    exact hk.repr_later hl hy (hg.others y hy hne)
  linked := by rw [hl.same.pages, hl.same.linked, hg.linked]
  outside hi := hg.outside (hl.same.holder.mp hi)

/-- The others leave the record of the page alone. -/
theorem Kept.record_later (hk : Kept p t h) (hl : (pmmSharing p).Later i s g t h)
    (hpg : pg ∈ g.shape.pagesOf i) : SameRecord s.mem t.mem pg.base :=
  later_record hl fun y h₁ h₂ => hl.same.ownByte.mp
    ((hk.own_records (hl.same.pages.symm ▸ hpg)).header y h₁ h₂)

theorem Gained.later (hg : Gained i pg s g) (hk : Kept p t h)
    (hl : (pmmSharing p).Later i s g t h) : Gained i pg t h :=
  { hg.toUnlisted.later hk hl with
    blank := fun x h₁ h₂ => (hk.record_later hl hg.mem x h₁ h₂).trans (hg.blank x h₁ h₂) }

/-- A page that is in no list is not in its own CPU's. -/
theorem Unlisted.not_linked (hg : Unlisted i pg s g) (hk : Kept p t g) : pg.base ∉ g.linked i := by
  have hnodup := hk.sound.bases_nodup.sublist (pagesOf_sublist g.shape i)
  rw [hg.linked] at hnodup
  exact (List.nodup_cons.mp hnodup).1

/-- CPU `i` puts the page at `q` at the head of its list. -/
def Ledger.published (g : Ledger) (i q : ℕ) : Ledger :=
  { g with linked := Function.update g.linked i (q :: g.linked i) }

theorem Kept.published (hk : Kept p t h) (hpg : pg ∈ h.shape.pagesOf i)
    (hnext : nextAt t.mem pg.base = t.var (.pagehead i)) :
    Kept p (t.setVar (.pagehead i) pg.base) (h.published i pg.base) ∧ ∀ j, j ≠ i →
      (pmmSharing p).Later j t h (t.setVar (.pagehead i) pg.base) (h.published i pg.base) := by
  have hself : (h.published i pg.base).linked i = pg.base :: h.linked i := by
    simp [Ledger.published]
  have hother : ∀ j, j ≠ i → (h.published i pg.base).linked j = h.linked j := by
    intro j hj
    simp [Ledger.published, hj]
  constructor
  · refine ⟨hk.sound, hk.long, hk.heap, hk.released, fun j hj => ?_, fun j q hq => ?_, hk.headers,
      hk.sub, hk.nodup, hk.inHand, hk.unique⟩
    · by_cases hji : j = i
      · subst hji
        rw [hself, Store.setVar_var, if_pos rfl]
        refine ⟨rfl, ?_⟩
        rw [Store.setVar_mem, hnext]
        exact hk.lists j hj
      · have hne : Global.pagehead j ≠ .pagehead i := fun heq => hji (by cases heq; rfl)
        rw [hother j hji, Store.setVar_var, if_neg hne]
        exact hk.lists j hj
    · by_cases hji : j = i
      · subst hji
        rw [hself] at hq
        obtain rfl | hq := List.mem_cons.mp hq
        · exact ⟨pg, hpg, rfl⟩
        · exact hk.bases j q hq
      · rw [hother j hji] at hq
        exact hk.bases j q hq
  · intro j hj
    have hsame : Ledger.Same j h (h.published i pg.base) := by
      refine ⟨rfl, hother j hj, rfl, rfl, fun _ _ => Iff.rfl, Iff.rfl, fun _ => rfl,
        fun k q hq => ?_⟩
      by_cases hki : k = i
      · subst hki
        rw [hself]
        exact List.mem_cons_of_mem _ hq
      · rwa [hother k hki]
    refine ⟨hsame, fun _ _ => rfl, ?_, fun _ _ => rfl⟩
    rintro _ (rfl | ⟨rfl, -⟩)
    · exact if_neg fun heq => hj (by cases heq; rfl)
    · rw [Store.setVar_var, if_neg (by simp)]

/-- A page whose link leads to the head of the list becomes the head. -/
theorem proceeds_publish {f : Unit → Code α} (hg : Unlisted i pg s g)
    (hnext : nextAt s.mem pg.base = s.var (.pagehead i))
    (hf : ∀ t h, Kept p t h → Working i pg t h → SameRecord s.mem t.mem pg.base →
      t.var (.pagehead i) = pg.base → h.asks i = g.asks i →
      (pmmSharing p).Proceeds i (f ()) t h Q) :
    (pmmSharing p).Proceeds i (setGlobal (.pagehead i) pg.base >>= f) s g Q := by
  change (pmmSharing p).Proceeds i (.op (.set (.pagehead i) pg.base) fun _ => f ()) s g Q
  refine proceeds_op fun t h hk hl => ⟨.publish, fun _ v t' hr => ?_⟩
  cases hr
  have hgt := hg.later hk hl
  have hrecord := hk.record_later hl hg.mem
  have hvar : t.var (.pagehead i) = s.var (.pagehead i) := hl.agree.var _ (.inl rfl)
  obtain ⟨hk', hothers⟩ := hk.published hgt.mem (hrecord.next.trans (hnext.trans hvar.symm))
  refine ⟨h.published i pg.base, ⟨hk', hothers, rfl, rfl, rfl, fun _ hpg => hpg, fun _ => rfl⟩,
    hf _ _ hk' ⟨hgt.mem, hgt.others, ?_, hgt.outside⟩ hrecord (if_pos rfl) hl.same.asks⟩
  change Function.update h.linked i (pg.base :: h.linked i) i = (h.shape.pagesOf i).map Page.base
  rw [Function.update_self, hgt.linked]

/-- The header and the link of a page that is in no list. -/
theorem Unlisted.owns (hg : Unlisted i pg s g) (hk : Kept p t g) :
    (g.foot i).Owns .pageheader pg.base 16 :=
  { hk.foot_sees hg.mem with
    writes := fun x h₁ h₂ => ⟨(hk.own_records hg.mem).header x h₁ h₂,
      hk.not_link hg.mem (contains_of_within (page_record pg) h₁ h₂) (.inr (hg.not_linked hk))⟩ }

/-- The first link of a page list is an address. -/
theorem Kept.pagehead_lt (hk : Kept p t h) (hi : i < p.cpuCount) :
    t.var (.pagehead i) < 18446744073709551616 := by
  have hpath := hk.lists i hi
  cases hl : h.linked i with
  | nil =>
    rw [hl] at hpath
    have h0 : t.var (.pagehead i) = 0 := hpath
    omega
  | cons q rest =>
    rw [hl] at hpath
    obtain ⟨y, hy, hbase⟩ := hk.bases i q (by rw [hl]; exact List.mem_cons_self)
    have hmax := (hk.sound.pages y (mem_pagesOf.mp hy).1).1.max
    have hvar : t.var (.pagehead i) = q := hpath.1
    omega

/-- A new page gets its header and joins the list, and block 1 is taken. -/
theorem proceeds_extendPage (hg : Unlisted i (Page.whole i q (roundSize n)) s g)
    (hi : i < p.cpuCount) (hn : n ≤ 16384) :
    (pmmSharing p).Proceeds i (do
      let rest ← getGlobal (.pagehead i)
      Pageheader.setNext q rest
      Pageheader.setSize q (roundSize n)
      Pageheader.setPagefreeheadIndex q 1
      setGlobal (.pagehead i) q
      takeFirstBlock i q (roundSize n) : Code ℕ) s g (Done p i (.alloc n)) := by
  have hle := (sizeClass_roundSize hn).le
  refine proceeds_whole fun t h hk hl => ?_
  have hgt := hg.later hk hl
  have hhead := hk.pagehead_lt hi
  have hown : (h.foot i).Owns .pageheader q 16 := hgt.owns hk
  have hget : (h.foot i).gets (.pagehead i) := .inl rfl
  set m := setWordAt (setSizeAt (setNextAt t.mem q (t.var (.pagehead i))) q (roundSize n)) q 1
    with hm
  refine proceeds_own hgt.outside ?_
  rw [wp_getGlobal hget]
  refine proceeds_own hgt.outside ?_
  rw [wp_writePtr hown]
  refine proceeds_own hgt.outside ?_
  rw [wp_writeSize hown]
  refine proceeds_own hgt.outside ?_
  rw [wp_writeWord hown]
  have hout : ∀ z, ¬ (Page.whole i q (roundSize n)).span.Contains z → m z = t.mem z := by
    intro z hz
    have hz : z < q ∨ q + 16 ≤ z := outside_header hz
    rw [hm, setWordAt_outside _ _ hz, setSizeAt_outside _ _ hz, setNextAt_outside _ _ hz]
  have hgm : Unlisted i (Page.whole i q (roundSize n)) (t.setMem m) h :=
    { hgt with others := fun y hy hne => hk.other_page hgt.mem hy hne hout (hgt.others y hy hne) }
  refine proceeds_publish hgm ?_ fun u k hku hw hrecord _ _ => ?_
  · change nextAt m q = t.var (.pagehead i)
    rw [hm, nextAt_setWordAt, nextAt_setSizeAt, nextAt_setNextAt _ _ hhead]
  · refine proceeds_takeFirstBlock hw hku hn (hrecord.size.trans ?_) (hrecord.word.trans ?_)
      (fun h P₁ P₂ hs hpages => ?_)
    · exact (sizeAt_setWordAt _ _ _).trans (sizeAt_setSizeAt _ _ (by omega) (by omega))
    · exact wordAt_setWordAt _ _ (by omega)
    · have hsame : Sound p ⟨h.shape.free, h.shape.pages⟩ h.blocks := hs
      rw [hpages] at hsame
      exact hsame

end NewPage

section Small

variable {p : Platform} {s : PmmState} {g : Ledger} {i n : ℕ}

/-- The page list of a CPU, as it may walk it. -/
theorem Settled.walk (hst : Settled i s g) (hk : Kept p s g) (hi : i < p.cpuCount) :
    Path (nextAt s.mem) (s.var (.pagehead i)) ((g.shape.pagesOf i).map Page.base) 0 ∧
      (∀ x ∈ (g.shape.pagesOf i).map Page.base, (g.foot i).Sees .pageheader x 16) ∧
      ((g.shape.pagesOf i).map Page.base).length < loopBound := by
  refine ⟨?_, fun x hx => ?_, hk.sound.pages_count (pagesOf_sublist g.shape i)⟩
  · rw [← hst.linked]
    exact hk.lists i hi
  · obtain ⟨pg, hpg, rfl⟩ := List.mem_map.mp hx
    exact hk.foot_sees hpg

/-- An empty page takes the class of the request. -/
theorem proceeds_recycle {u : PmmState} {pg : Page} (hst : Settled i s g) (hk : Kept p u g)
    (hpg : pg ∈ g.shape.pagesOf i) (hcls : pg.cls = 0) (hn : n ≤ 16384) :
    (pmmSharing p).Proceeds i (do
      Pageheader.setSize pg.base (roundSize n)
      takeFirstBlock i pg.base (roundSize n) : Code ℕ) s g (Done p i (.alloc n)) := by
  have hclass := sizeClass_roundSize hn
  have hle := hclass.le
  have hrepr := hst.pages pg hpg
  have howner := (mem_pagesOf.mp hpg).2
  have hrun : wp (g.siteFoot i pg).Allows (Pageheader.setSize pg.base (roundSize n)) s
      fun _ t => t = s.setMem (setSizeAt s.mem pg.base (roundSize n)) :=
    (wp_updateSize (hk.siteFoot_header hpg) _ _).mpr rfl
  refine proceeds_wp (hk.siteFoot_sub hpg) (fun _ hl => hl) (wp_post (wp_frame hrun) ?_)
  rintro _ t ⟨rfl, hf⟩
  refine proceeds_takeFirstBlock ((hst.working hpg).framed hk hf) hk hn
    (sizeAt_setSizeAt _ _ (by omega) (by omega)) ?_ fun h P₁ P₂ hs hpages => ?_
  · refine (wordAt_setSizeAt _ _ _).trans (hrepr.index.trans ?_)
    rw [Page.index, if_pos hcls]
  · have hwhole := hs.recycle hpages hcls hclass
    rwa [howner] at hwhole

/-- The slow path of `kalloc`: an empty page of the CPU, a new page, or nothing. The list
of the CPU is locked in `s`. -/
theorem proceeds_kallocSlow {u : PmmState} (hst : Settled i s g) (hk : Kept p u g)
    (hmem : s.mem = u.mem) (hvar : s.var = u.var) (hi : i < p.cpuCount) (hn : n ≤ 16384)
    (hasks : g.asks i = some n) :
    (pmmSharing p).Proceeds i (kallocSlow i (roundSize n)) s g (Done p i (.alloc n)) := by
  have hstu : Settled i u g := { hst with pages := hmem ▸ hst.pages }
  obtain ⟨hpath, hsees, hcount⟩ := hstu.walk hk hi
  rw [← hmem, ← hvar] at hpath
  have hget : (g.foot i).gets (.pagehead i) := .inl rfl
  unfold kallocSlow
  refine proceeds_own hst.outside ?_
  rw [wp_getGlobal hget]
  refine proceeds_own hst.outside ?_
  refine wp_findEmpty hpath hsees hcount ?_
  obtain ⟨hfind, -⟩ | ⟨pg, hpg, htest, hfind⟩ := find_page (g.shape.pagesOf i)
    fun x => decide (sizeAt s.mem x = 0 ∧ 0 < wordAt s.mem x)
  · rw [hfind, if_neg (by simp)]
    refine proceeds_bind ((safe_allockpage hst hi hn hasks).mono ?_)
    rintro page v k ⟨-, -, ⟨rfl, hstv⟩ | ⟨hne, hgained⟩⟩
    · rw [if_neg (by simp)]
      refine proceeds_last (.refl _) (fun _ => Kept.own_lock hstv.outside) ?_
      have hlock : (k.foot i).locks (.pagelist i) := .inl rfl
      change wp (k.foot i).Allows _ _ _
      rw [wp_bind, wp_unlock hlock, wp_pure]
      refine done_of_rest ⟨⟨⟨hstv.pages, hstv.linked⟩, hstv.outside⟩, if_pos rfl⟩ fun l => ?_
      simp [Call.returned]
    · rw [if_pos hne]
      exact proceeds_extendPage hgained.toUnlisted hi hn
  · have hpos := (hk.sound.pages pg (mem_pagesOf.mp hpg).1).1.base_pos
    have hcls : pg.cls = 0 := (empty_iff (hst.pages pg hpg)).mp (by simpa using htest)
    rw [hfind, if_pos hpos.ne']
    exact proceeds_recycle hst hk hpg hcls hn

/-- `kalloc` of a small block on a CPU that may have no page of the class. -/
theorem proceeds_kallocPaged (hr : Rest i s g) (hi : i < p.cpuCount) (hn : n ≤ 16384)
    (hasks : g.asks i = some n) :
    (pmmSharing p).Proceeds i (kallocPaged i (roundSize n)) s g (Done p i (.alloc n)) := by
  refine proceeds_whole fun t h hk hl => ?_
  have hrt := hr.later hk hl
  have hasks' : h.asks i = some n := hl.same.asks.trans hasks
  have hst : Settled i (t.setLock (.pagelist i) 1) h := ⟨⟨hrt.pages, hrt.linked⟩, hrt.outside⟩
  obtain ⟨hpath, hsees, hcount⟩ := hrt.toSettled.walk hk hi
  have hlock : (h.foot i).locks (.pagelist i) := .inl rfl
  have hget : (h.foot i).gets (.pagehead i) := .inl rfl
  unfold kallocPaged
  refine proceeds_own hrt.outside ?_
  rw [wp_lock hlock hrt.unlocked]
  refine proceeds_own hrt.outside ?_
  rw [wp_getGlobal hget]
  refine proceeds_own hrt.outside ?_
  refine wp_findSized hpath hsees hcount ?_
  obtain ⟨hfind, -⟩ | ⟨pg, hpg, htest, hfind⟩ := find_page (h.shape.pagesOf i)
    fun x => decide (toSize (sizeAt t.mem x) = roundSize n ∧ 0 < wordAt t.mem x)
  · rw [Store.setLock_mem, hfind, if_neg (by simp)]
    exact proceeds_kallocSlow hst hk rfl rfl hi hn hasks'
  · have hv := (hk.sound.pages pg (mem_pagesOf.mp hpg).1).1
    obtain ⟨hcls, hruns⟩ := (sized_iff hv (hrt.pages pg hpg) (sizeClass_roundSize hn)).mp
      (by simpa using htest)
    obtain ⟨r, rest, hruns⟩ := List.exists_cons_of_ne_nil hruns
    rw [Store.setLock_mem, hfind, if_pos hv.base_pos.ne']
    exact proceeds_kallocFast hst hk hpg hn hcls hruns

/-- A new page becomes the first of its CPU, with all its blocks free. -/
theorem proceeds_setUp {q : ℕ} (hg : Gained i (Page.whole i q (roundSize n)) s g)
    (hnone : g.linked i = []) (hi : i < p.cpuCount) (hn : n ≤ 16384) (hasks : g.asks i = some n) :
    (pmmSharing p).Proceeds i (do
      setGlobal (.pagehead i) q
      let page ← getGlobal (.pagehead i)
      check .firstPageAllocated (page ≠ 0)
      initFirstPage page (roundSize n)
      unlock (.pagelist i) : Code Unit) s g fun _ t h => Rest i t h ∧ h.asks i = some n := by
  refine proceeds_whole fun t h hk hl => ?_
  have hgt := hg.later hk hl
  have hpath := hk.lists i hi
  rw [hl.same.linked, hnone] at hpath
  have hnext : nextAt t.mem q = t.var (.pagehead i) := by
    rw [show t.var (.pagehead i) = 0 from hpath]
    exact nextAt_blank _ _ hgt.blank
  refine proceeds_publish hgt.toUnlisted hnext fun u k hku hw hrecord hvar hasks' => ?_
  have hblank : ∀ x, q ≤ x → x < q + 16 → u.mem x = 0 := fun x h₁ h₂ =>
    (hrecord x h₁ h₂).trans (hgt.blank x h₁ h₂)
  have hget : (k.foot i).gets (.pagehead i) := .inl rfl
  refine proceeds_own hw.outside ?_
  rw [wp_getGlobal hget, hvar]
  refine proceeds_own hw.outside ?_
  rw [wp_check]
  refine ⟨(hku.sound.pages _ (mem_pagesOf.mp hw.mem).1).1.base_pos.ne', ?_⟩
  -- the link is 0 already
  change (pmmSharing p).Proceeds i (.op (.store .pageheader q 0 8 0) fun _ => (do
    Pageheader.setSize q (roundSize n)
    Pageheader.setPagefreeheadIndex q 1
    let pageFreend := addPtr q (roundSize n)
    Pagefreenode.setMagic pageFreend pageMagic
    Pagefreenode.setNext pageFreend 0
    Pagefreenode.setSize pageFreend ((pageBytes : ℤ) - roundSize n) : Code Unit) >>= fun _ =>
      unlock (.pagelist i)) u k _
  refine proceeds_op fun t₁ h₁ hk₁ hl₁ => ?_
  have hw₁ := hw.later hk₁ hl₁
  have hpg := hw₁.mem
  have hasks₁ : h₁.asks i = some n :=
    hl₁.same.asks.trans (hasks'.trans (hl.same.asks.trans hasks))
  have hown := hk₁.own_records hpg
  have hv := (hk₁.sound.pages _ (mem_pagesOf.mp hpg).1).1
  have hrecord₁ := hk₁.record_later hl₁ hw.mem
  have hlink : ByteMemory.store t₁.mem (q + 0) 8 0 = t₁.mem := ByteMemory.store_blank fun x h₁ h₂ =>
    (hrecord₁ x h₁ (by change x < q + 16; omega)).trans (hblank x h₁ (by omega))
  refine ⟨.relink fun x h₁ h₂ => hown.header x h₁ (by change x < q + 16; omega),
    fun _ v t₂ hrun => ?_⟩
  obtain rfl : t₂ = t₁ := by
    have hq : q ≠ 0 := hv.base_pos.ne'
    simp only [Op.run, if_neg hq, hlink] at hrun
    cases hrun
    rfl
  refine ⟨h₁, ⟨hk₁, fun j _ => .refl _ j _ _, rfl, rfl, rfl, fun _ hpg => hpg, fun _ => rfl⟩, ?_⟩
  have hrun := wp_setUpPage (F := h₁.siteFoot i (Page.whole i q (roundSize n))) (s := t₂) i
    (sizeClass_roundSize hn) hv.max (hk₁.siteFoot_header hpg) (hk₁.siteFoot_run hpg
      (List.mem_singleton_self _) (run_record hv (List.mem_singleton_self _)).1)
  have hlock : (h₁.siteFoot i (Page.whole i q (roundSize n))).locks (.pagelist i) := rfl
  refine proceeds_last (hk₁.siteFoot_sub hpg) (fun _ hl => hl) ?_
  rw [wp_bind]
  refine wp_post (wp_frame hrun) ?_
  rintro _ u' ⟨⟨hrepr, -, -, -⟩, hf⟩
  rw [wp_unlock hlock]
  intro t' h' hk' hl'
  have hrest : Rest i (u'.setLock (.pagelist i) 0) h₁ :=
    (Working.rest (s := u'.setLock (.pagelist i) 0)
      ⟨hw₁.mem, (hw₁.framed hk₁ hf).others, hw₁.linked, hw₁.outside⟩ hrepr (if_pos rfl))
  exact ⟨hrest.later hk' hl', hl'.same.asks.trans hasks₁⟩

/-- A failed check ends the program. -/
theorem proceeds_failed {α : Type} {e : Check} {c : Prop} [Decidable c] {f : Unit → Code α}
    {Q : α → PmmState → Ledger → Prop} (hc : ¬ c) :
    (pmmSharing p).Proceeds i (check e c >>= f) s g Q := by
  unfold check
  rw [if_neg hc]
  exact proceeds_fail _

/-- The first page of a CPU, or a failed assertion. -/
theorem proceeds_kallocFirst (hr : Rest i s g) (hnone : g.linked i = []) (hi : i < p.cpuCount)
    (hn : n ≤ 16384) (hasks : g.asks i = some n) :
    (pmmSharing p).Proceeds i (kallocFirst i (roundSize n)) s g fun _ t h =>
      Rest i t h ∧ h.asks i = some n := by
  have hlock : (g.foot i).locks (.pagelist i) := .inl rfl
  unfold kallocFirst
  refine proceeds_own hr.outside ?_
  rw [wp_lock hlock hr.unlocked]
  have hst : Settled i (s.setLock (.pagelist i) 1) g := ⟨⟨hr.pages, hr.linked⟩, hr.outside⟩
  refine proceeds_bind ((safe_allockpage hst hi hn hasks).mono ?_)
  rintro page u k ⟨hasks', hlinked, ⟨rfl, hstu⟩ | ⟨hne, hgained⟩⟩
  · refine proceeds_whole fun t h hk hl => ?_
    have hstt := hstu.later hk hl
    have hpath := hk.lists i hi
    rw [hl.same.linked, hlinked, hnone] at hpath
    have hzero : t.var (.pagehead i) = 0 := hpath
    change (pmmSharing p).Proceeds i (.op (.set (.pagehead i) 0) fun _ => do
      let page ← getGlobal (.pagehead i)
      check .firstPageAllocated (page ≠ 0)
      initFirstPage page (roundSize n)
      unlock (.pagelist i)) t h _
    refine proceeds_op fun t₁ h₁ hk₁ hl₁ => ⟨.publish, fun _ v t₂ hrun => ?_⟩
    cases hrun
    have hzero₁ : t₁.var (.pagehead i) = 0 := (hl₁.agree.var _ (.inl rfl)).trans hzero
    have hself : t₁.setVar (.pagehead i) 0 = t₁ := by
      have hvar : (fun y => if y = .pagehead i then 0 else t₁.var y) = t₁.var := by
        funext y
        split_ifs with hy
        · rw [hy, hzero₁]
        · rfl
      simp only [Store.setVar, hvar]
    rw [hself]
    refine ⟨h₁, ⟨hk₁, fun j _ => .refl _ j _ _, rfl, rfl, rfl, fun _ hpg => hpg, fun _ => rfl⟩, ?_⟩
    have hget : (h₁.foot i).gets (.pagehead i) := .inl rfl
    refine proceeds_own (hstt.later hk₁ hl₁).outside ?_
    rw [wp_getGlobal hget, hzero₁]
    exact proceeds_failed (by simp)
  · exact proceeds_setUp hgained (hlinked.trans hnone) hi hn (hasks'.trans hasks)

/-- `kalloc` of a small block. -/
theorem proceeds_kallocSmall (hr : Rest i s g) (hi : i < p.cpuCount) (hn : n ≤ 16384)
    (hasks : g.asks i = some n) :
    (pmmSharing p).Proceeds i (kallocSmall p i (roundSize n)) s g (Done p i (.alloc n)) := by
  refine proceeds_whole fun t h hk hl => ?_
  have hrt := hr.later hk hl
  have hasks' : h.asks i = some n := hl.same.asks.trans hasks
  have hget : (h.foot i).gets (.pagehead i) := .inl rfl
  unfold kallocSmall
  refine proceeds_own hrt.outside ?_
  rw [wp_check]
  refine ⟨hi.le, proceeds_own hrt.outside ?_⟩
  rw [wp_getGlobal hget]
  split_ifs with hhead
  · have hnone : h.linked i = [] := by
      have hpath := hk.lists i hi
      cases hlist : h.linked i with
      | nil => rfl
      | cons q rest =>
        rw [hlist] at hpath
        obtain ⟨y, hy, hbase⟩ := hk.bases i q (by rw [hlist]; exact List.mem_cons_self)
        have hpos := (hk.sound.pages y (mem_pagesOf.mp hy).1).1.base_pos
        have hq : t.var (.pagehead i) = q := hpath.1
        omega
    refine proceeds_seq (proceeds_kallocFirst hrt hnone hi hn hasks') ?_
    rintro _ u k hku ⟨hru, hasksu⟩
    exact proceeds_kallocPaged hru hi hn hasksu
  · exact proceeds_kallocPaged hrt hi hn hasks'

/-- `kalloc` on a CPU is safe beside other calls, and in the end its block is the caller's. -/
theorem proceeds_kalloc (hr : Rest i s g) (hi : i < p.cpuCount) (hasks : g.asks i = some n) :
    (pmmSharing p).Proceeds i (kalloc p i n) s g (Done p i (.alloc n)) := by
  unfold kalloc
  split_ifs with hsmall hbig hhuge
  · exact proceeds_kallocSmall hr hi (by omega) hasks
  · refine proceeds_ret (done_of_rest hr fun l => ?_)
    simp [Call.returned]
  · exact proceeds_of_safe (safe_alloc_section hr hbig (by omega) hasks)
  · exact proceeds_kallocSmall hr hi (by omega) hasks

end Small

end KmallocKfree
