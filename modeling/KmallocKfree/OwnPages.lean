import KmallocKfree.Ledger
import KmallocKfree.Sessions

/-!
# The pages of a CPU

Under the lock of its list a CPU works on one of its pages: on the header behind the link
and on the bytes that are in no live block. The other pages, the free list of the heap and
what the other CPUs rely on stay as they are, and the ledger changes in that page and in the
block that goes to the caller or comes back from it.
-/
namespace KmallocKfree

open Prog Region Shape

namespace Ledger

/-- The header of the page and the records of its nodes belong to CPU `i`. -/
structure OwnRecords (g : Ledger) (i : ℕ) (pg : Page) : Prop where
  header : ∀ y, pg.base ≤ y → y < pg.base + 16 → g.OwnByte i y
  runs : ∀ r ∈ pg.runs, ∀ y, r.start ≤ y → y < r.start + 16 → g.OwnByte i y

/-- What the work on a page of CPU `i` touches. -/
def siteFoot (g : Ledger) (i : ℕ) (pg : Page) : Footprint Struct Global Lock where
  reads := g.OwnByte i
  writes x := pg.span.Contains x ∧ pg.base + 8 ≤ x ∧ ¬ g.LiveByte x
  derefs _ _ := True
  gets x := x = .pagehead i
  sets _ := False
  locks l := l = .pagelist i

/-- The ledger after work on a page of CPU `i`. -/
def repage (g : Ledger) (i : ℕ) (pages : List Page) (blocks live : List Block) : Ledger where
  shape := ⟨g.shape.free, pages⟩
  linked := g.linked
  blocks := blocks
  live := live
  asks := g.asks
  inHand := Function.update g.inHand i none
  holder := g.holder

end Ledger

/-- The memory holds the pages of CPU `i`, and its list leads through all of them. -/
structure InOrder (i : ℕ) (s : PmmState) (g : Ledger) : Prop where
  pages : ∀ pg ∈ g.shape.pagesOf i, pg.Repr s.mem
  linked : g.linked i = (g.shape.pagesOf i).map Page.base

/-- CPU `i` is in no section. -/
structure Settled (i : ℕ) (s : PmmState) (g : Ledger) : Prop extends InOrder i s g where
  outside : g.holder ≠ some i

/-- CPU `i` is in no call. -/
structure Rest (i : ℕ) (s : PmmState) (g : Ledger) : Prop extends Settled i s g where
  unlocked : s.lock (.pagelist i) = 0

/-- CPU `i` is at work on its page `pg`. -/
structure Working (i : ℕ) (pg : Page) (s : PmmState) (g : Ledger) : Prop where
  mem : pg ∈ g.shape.pagesOf i
  others : ∀ y ∈ g.shape.pagesOf i, y ≠ pg → y.Repr s.mem
  linked : g.linked i = (g.shape.pagesOf i).map Page.base
  outside : g.holder ≠ some i

/-- CPU `i` has made `pg'` of its page `pg`, which the ledger does not say yet. -/
structure Worked (i : ℕ) (pg pg' : Page) (s : PmmState) (g : Ledger) : Prop
    extends Working i pg s g where
  base : pg'.base = pg.base
  owner : pg'.owner = pg.owner
  page : pg'.Repr s.mem
  own : g.OwnRecords i pg'
  unlocked : s.lock (.pagelist i) = 0

section Places

variable {p : Platform} {s t u : PmmState} {g h : Ledger} {i j q n : ℕ} {pg pg' y : Page}
  {P₁ P₂ : List Page} {B live' : List Block} {b : Block} {r x : Region} {k : Struct}

theorem pagesOf_append {free : List Region} (howner : pg.owner ≠ j) :
    (⟨free, P₁ ++ pg :: P₂⟩ : Shape).pagesOf j = P₁.filter (fun y => y.owner = j) ++
      P₂.filter fun y => y.owner = j := by
  unfold Shape.pagesOf
  rw [List.filter_append, List.filter_cons_of_neg (by simpa using howner)]

theorem Ledger.own_of_within (hpg : pg ∈ g.shape.pagesOf i) (hin : x.Within pg.span)
    (hclear : ∀ b ∈ g.live, x.Disj b.region) {y : ℕ} (hy : x.Contains y) : g.OwnByte i y := by
  refine .inl ⟨⟨pg, hpg, hin.contains hy⟩, ?_⟩
  rintro ⟨b, hb, hby⟩
  exact (hclear b hb).not_contains hy hby

theorem Ledger.siteFoot_owns (hpg : pg ∈ g.shape.pagesOf i) (hin : Within ⟨q, n⟩ pg.span)
    (hpast : pg.base + 8 ≤ q) (hclear : ∀ b ∈ g.live, Disj ⟨q, n⟩ b.region) :
    (g.siteFoot i pg).Owns k q n where
  ne_null := by omega
  derefs := trivial
  reads _ h₁ h₂ := Ledger.own_of_within hpg hin hclear ⟨h₁, h₂⟩
  writes z h₁ h₂ := by
    refine ⟨contains_of_within hin h₁ h₂, le_trans hpast h₁, ?_⟩
    rintro ⟨b, hb, hbz⟩
    exact disj_not_contains (hclear b hb) h₁ h₂ hbz

theorem Ledger.OwnRecords.congr (h' : g.OwnRecords i pg) (hs : Ledger.Same i g h) :
    h.OwnRecords i pg :=
  ⟨fun y h₁ h₂ => hs.ownByte.mpr (h'.header y h₁ h₂),
    fun r hr y h₁ h₂ => hs.ownByte.mpr (h'.runs r hr y h₁ h₂)⟩

/-- The others leave a record alone that belongs to the CPU. -/
theorem later_record (hl : (pmmSharing p).Later i s g t h)
    (hown : ∀ y, q ≤ y → y < q + 16 → g.OwnByte i y) : SameRecord s.mem t.mem q :=
  fun y h₁ h₂ => hl.agree.mem y (hown y h₁ h₂)

theorem later_repr (hl : (pmmSharing p).Later i s g t h) (hown : g.OwnRecords i pg)
    (hpg : pg.Repr s.mem) : pg.Repr t.mem :=
  hpg.frame (later_record hl hown.header) fun r hr => later_record hl (hown.runs r hr)

theorem later_unlocked (hl : (pmmSharing p).Later i s g t h) :
    t.lock (.pagelist i) = s.lock (.pagelist i) := hl.agree.lock _ (.inl rfl)

/-- The records of a page that replaces one of the ledger, with its live blocks. -/
theorem Ledger.own_records_of (hpages : g.shape.pages = P₁ ++ pg :: P₂)
    (hbase : pg'.base = pg.base) (hs : Sound p ⟨g.shape.free, P₁ ++ pg' :: P₂⟩ B)
    (hsub : ∀ c ∈ g.live, c ∈ B) : g.OwnRecords pg.owner pg' := by
  have hpg : pg ∈ g.shape.pagesOf pg.owner := mem_pagesOf.mpr ⟨by rw [hpages]; simp, rfl⟩
  have hspan : pg'.span = pg.span := congrArg (fun a => Region.mk a pageBytes) hbase
  have hv := (hs.pages pg' (by simp)).1
  constructor
  · intro y h₁ h₂
    refine Ledger.own_of_within (x := ⟨pg'.base, headerBytes⟩) hpg ?_ ?_ ⟨h₁, h₂⟩
    · rw [← hspan]
      exact page_record pg'
    · exact fun b hb => hs.header_clear rfl b (hsub b hb)
  · intro r hr y h₁ h₂
    obtain ⟨hrec, hin⟩ := run_record hv hr
    refine Ledger.own_of_within (x := ⟨r.start, headerBytes⟩) hpg ?_ ?_ ⟨h₁, h₂⟩
    · rw [← hspan]
      exact ⟨le_trans hin.1 hrec.1, le_trans hrec.2 hin.2⟩
    · exact fun b hb => hs.run_clear rfl hr hrec b (hsub b hb)

/-- A block that is added was not there before. -/
theorem Shape.Sound.not_mem_cons {sh : Shape} {live : List Block} (hs : Sound p sh (b :: live)) :
    b ∉ live := by
  intro hmem
  have hd := (List.pairwise_cons.mp hs.apart).1 b hmem
  have hpos : 32 ≤ b.size := by
    by_cases hb : b.Huge
    · exact b.size_pos (hs.huge b List.mem_cons_self hb).1
    · exact (Block.sizeClass hb).ge
  unfold Disj Block.region Region.stop at hd
  simp only at hd
  omega

namespace Kept

theorem own_records (hk : Kept p u g) (hpg : pg ∈ g.shape.pagesOf i) : g.OwnRecords i pg := by
  obtain ⟨hmem, rfl⟩ := mem_pagesOf.mp hpg
  obtain ⟨P₁, P₂, hpages⟩ := List.append_of_mem hmem
  have hs := hk.sound
  have hshape : g.shape = ⟨g.shape.free, P₁ ++ pg :: P₂⟩ := by rw [← hpages]
  rw [hshape] at hs
  exact Ledger.own_records_of hpages rfl hs hk.sub

/-- No link of a listed page is written behind the link of a page. -/
theorem not_link (hk : Kept p u g) (hpg : pg ∈ g.shape.pagesOf i) {z : ℕ}
    (hz : pg.span.Contains z) (hpast : pg.base + 8 ≤ z ∨ pg.base ∉ g.linked i) :
    ¬ LinkByte (g.linked i) z := by
  rintro ⟨q, hq, h₁, h₂⟩
  obtain ⟨y, hy, rfl⟩ := hk.bases i q hq
  by_cases hne : y = pg
  · subst hne
    obtain hpast | hpast := hpast
    · omega
    · exact hpast hq
  · have hd := hk.sound.pages_disj (mem_pagesOf.mp hpg).1 (mem_pagesOf.mp hy).1 hne
    refine hd.not_contains hz ⟨h₁, ?_⟩
    unfold Page.span Region.stop pageBytes
    simp only
    omega

theorem siteFoot_sub (hk : Kept p u g) (hpg : pg ∈ g.shape.pagesOf i) :
    (g.siteFoot i pg).Sub (g.foot i) where
  reads _ hx := hx
  writes _ hx := ⟨.inl ⟨⟨pg, hpg, hx.1⟩, hx.2.2⟩, hk.not_link hpg hx.1 (.inl hx.2.1)⟩
  derefs _ _ _ := trivial
  gets _ hx := .inl hx
  sets _ hx := hx.elim
  locks _ hl := .inl hl

theorem foot_sees (hk : Kept p u g) (hpg : pg ∈ g.shape.pagesOf i) :
    (g.foot i).Sees k pg.base 16 where
  ne_null := (hk.sound.pages pg (mem_pagesOf.mp hpg).1).1.base_pos.ne'
  derefs := trivial
  reads := (hk.own_records hpg).header

theorem siteFoot_header (hk : Kept p u g) (hpg : pg ∈ g.shape.pagesOf i) :
    (g.siteFoot i pg).Updates k pg.base where
  ne_null := (hk.sound.pages pg (mem_pagesOf.mp hpg).1).1.base_pos.ne'
  derefs := trivial
  reads := (hk.own_records hpg).header
  writes z h₁ h₂ := by
    obtain ⟨P₁, P₂, hpages⟩ := List.append_of_mem (mem_pagesOf.mp hpg).1
    refine ⟨contains_of_within (page_record pg) (by simp only; omega) h₂, h₁, ?_⟩
    rintro ⟨b, hb, hbz⟩
    exact disj_not_contains (hk.sound.header_clear hpages b (hk.sub b hb)) (by simp only; omega)
      h₂ hbz

/-- The free nodes of a page are for work on it. -/
theorem siteFoot_run (hk : Kept p u g) (hpg : pg ∈ g.shape.pagesOf i) (hr : r ∈ pg.runs)
    (hin : Within ⟨q, n⟩ r) : (g.siteFoot i pg).Owns k q n := by
  have hmem := (mem_pagesOf.mp hpg).1
  have hv := (hk.sound.pages pg hmem).1
  have hge := (hv.sizeClass_of_mem hr).ge
  have hb := (hv.run r hr).bounds
  obtain ⟨-, hspan⟩ := run_record hv hr
  obtain ⟨P₁, P₂, hpages⟩ := List.append_of_mem hmem
  refine Ledger.siteFoot_owns hpg ⟨le_trans hspan.1 hin.1, le_trans hin.2 hspan.2⟩ ?_
    fun b hb => hk.sound.run_clear hpages hr hin b (hk.sub b hb)
  have hlow : r.start ≤ q := hin.1
  omega

/-- Under its list lock a CPU stays in its own places. -/
theorem own_lock (ho : g.holder ≠ some i) {l : Lock} (hl : (g.foot i).locks l) :
    l = .pagelist i := hl.resolve_right fun h => ho h.2

/-- Changes in one page of CPU `i` leave the other pages alone. -/
theorem other_page (hk : Kept p u g) (hpg : pg ∈ g.shape.pagesOf i)
    (hy : y ∈ g.shape.pagesOf i) (hne : y ≠ pg) {m m' : ByteMemory.Mem}
    (hout : ∀ z, ¬ pg.span.Contains z → m' z = m z) (hrepr : y.Repr m) : y.Repr m' := by
  have hmem := (mem_pagesOf.mp hy).1
  have hd := hk.sound.pages_disj (mem_pagesOf.mp hpg).1 hmem hne
  refine hrepr.frame (same_of_outside hout ((hd.symm.mono (page_record y)).symm)) fun r hr => ?_
  obtain ⟨h₁, h₂⟩ := run_record (hk.sound.pages y hmem).1 hr
  exact same_of_outside hout (((hd.symm.mono h₂).mono h₁).symm)

/-- The ledger after work on a page of CPU `i`. The blocks in the other CPUs' hands stay, and
only on that page a block has gone to its caller. -/
theorem repage (hk : Kept p t h) (hpages : h.shape.pages = P₁ ++ pg :: P₂)
    (howner : pg.owner = i) (hbase : pg'.base = pg.base) (howner' : pg'.owner = pg.owner)
    (hs : Sound p ⟨h.shape.free, P₁ ++ pg' :: P₂⟩ B) (hsub : ∀ c ∈ live', c ∈ B)
    (hnodup : live'.Nodup) (hold : ∀ c ∈ live', c.Huge → c ∈ h.live)
    (hhand : ∀ j c, j ≠ i → h.inHand j = some c → c ∈ B ∧ c ∉ live')
    (hsame : ∀ x, ¬ pg.span.Contains x →
      ((∃ c ∈ live', c.region.Contains x) ↔ h.LiveByte x)) :
    Kept p t (h.repage i (P₁ ++ pg' :: P₂) B live') ∧ ∀ j, j ≠ i →
      (pmmSharing p).Later j t h t (h.repage i (P₁ ++ pg' :: P₂) B live') := by
  have hmem : pg ∈ h.shape.pages := by rw [hpages]; simp
  have hothers : ∀ j, j ≠ i →
      (⟨h.shape.free, P₁ ++ pg' :: P₂⟩ : Shape).pagesOf j = h.shape.pagesOf j := by
    intro j hj
    have hne : pg.owner ≠ j := by
      rw [howner]
      exact hj.symm
    have hshape : h.shape = ⟨h.shape.free, P₁ ++ pg :: P₂⟩ := by rw [← hpages]
    rw [hshape, pagesOf_append hne]
    exact pagesOf_append (by rwa [howner'])
  have hinHand : ∀ j c, (h.repage i (P₁ ++ pg' :: P₂) B live').inHand j = some c →
      j ≠ i ∧ h.inHand j = some c := by
    intro j c hc
    have hj : j ≠ i := by
      rintro rfl
      simp [Ledger.repage] at hc
    have hkept : Function.update h.inHand i none j = h.inHand j := Function.update_of_ne hj _ _
    exact ⟨hj, hkept.symm.trans hc⟩
  constructor
  · refine ⟨hs, hk.long, hk.heap, hk.released, hk.lists, fun k q hq => ?_, fun b hb hbh =>
      hk.headers b (hold b hb hbh) hbh, hsub, hnodup, fun j c hc => ?_, fun j j' c hc hc' => ?_⟩
    · obtain ⟨y, hy, rfl⟩ := hk.bases k q hq
      have hbases := pagesOf_replace hpages hbase howner' k
      exact List.mem_map.mp (hbases ▸ List.mem_map_of_mem hy)
    · obtain ⟨hj, hc⟩ := hinHand j c hc
      exact hhand j c hj hc
    · exact hk.unique j j' c (hinHand j c hc).2 (hinHand j' c hc').2
  · intro j hj
    refine ⟨⟨hothers j hj, rfl, rfl, Function.update_of_ne hj _ _, fun z hz => ?_, Iff.rfl,
      fun _ => rfl, fun _ _ hq => hq⟩, .refl _ t⟩
    apply hsame
    obtain ⟨y, hy, hin⟩ := hz
    obtain ⟨hmem', rfl⟩ := mem_pagesOf.mp hy
    have hne : y ≠ pg := by
      rintro rfl
      exact hj howner
    exact (hk.sound.pages_disj hmem hmem' hne).symm.not_contains hin

/-- A block of the page goes to the caller. -/
theorem hand_out (hk : Kept p t h) (hpages : h.shape.pages = P₁ ++ pg :: P₂)
    (howner : pg.owner = i) (hbase : pg'.base = pg.base) (howner' : pg'.owner = pg.owner)
    (hs : Sound p ⟨h.shape.free, P₁ ++ pg' :: P₂⟩ (b :: h.blocks)) (hb : ¬ b.Huge)
    (hin : b.region.Within pg.span) :
    Kept p t (h.repage i (P₁ ++ pg' :: P₂) (b :: h.blocks) (b :: h.live)) ∧ ∀ j, j ≠ i →
      (pmmSharing p).Later j t h t
        (h.repage i (P₁ ++ pg' :: P₂) (b :: h.blocks) (b :: h.live)) := by
  have hnew := hs.not_mem_cons
  refine hk.repage hpages howner hbase howner' hs (fun c hc => ?_)
    (List.nodup_cons.mpr ⟨fun hmem => hnew (hk.sub b hmem), hk.nodup⟩) (fun c hc hch => ?_)
    (fun j c _ hc => ?_) fun x hx => ?_
  · obtain rfl | hc := List.mem_cons.mp hc
    · exact List.mem_cons_self
    · exact List.mem_cons_of_mem _ (hk.sub c hc)
  · obtain rfl | hc := List.mem_cons.mp hc
    · exact absurd hch hb
    · exact hc
  · obtain ⟨hmem, hlive⟩ := hk.inHand j c hc
    refine ⟨List.mem_cons_of_mem _ hmem, fun hc' => ?_⟩
    obtain rfl | hc' := List.mem_cons.mp hc'
    · exact hnew hmem
    · exact hlive hc'
  · have hbx : ¬ b.region.Contains x := fun hbx => hx (hin.contains hbx)
    simp only [Ledger.LiveByte, List.exists_mem_cons_iff, hbx, false_or]

/-- A block of the page has come back from its caller. -/
theorem take_back (hk : Kept p t h) (hpages : h.shape.pages = P₁ ++ pg :: P₂)
    (howner : pg.owner = i) (hbase : pg'.base = pg.base) (howner' : pg'.owner = pg.owner)
    (hhand : h.inHand i = some b)
    (hs : Sound p ⟨h.shape.free, P₁ ++ pg' :: P₂⟩ (h.blocks.erase b)) :
    Kept p t (h.repage i (P₁ ++ pg' :: P₂) (h.blocks.erase b) h.live) ∧ ∀ j, j ≠ i →
      (pmmSharing p).Later j t h t
        (h.repage i (P₁ ++ pg' :: P₂) (h.blocks.erase b) h.live) := by
  refine hk.repage hpages howner hbase howner' hs (fun c hc => ?_) hk.nodup
    (fun c hc _ => hc) (fun j c hj hc => ?_) fun x _ => Iff.rfl
  · refine (List.mem_erase_of_ne ?_).mpr (hk.sub c hc)
    rintro rfl
    exact (hk.inHand i c hhand).2 hc
  · obtain ⟨hmem, hlive⟩ := hk.inHand j c hc
    refine ⟨(List.mem_erase_of_ne ?_).mpr hmem, hlive⟩
    rintro rfl
    exact hj (hk.unique j i c hc hhand)

end Kept

/-- The others leave the pages of the CPU alone. -/
theorem Kept.repr_later (hk : Kept p t h) (hl : (pmmSharing p).Later i s g t h)
    (hy : y ∈ g.shape.pagesOf i) (hrepr : y.Repr s.mem) : y.Repr t.mem := by
  have hown : h.OwnRecords i y := hk.own_records (by rwa [hl.same.pages])
  exact later_repr hl ⟨fun z h₁ h₂ => hl.same.ownByte.mp (hown.header z h₁ h₂),
    fun r hr z h₁ h₂ => hl.same.ownByte.mp (hown.runs r hr z h₁ h₂)⟩ hrepr

theorem InOrder.later (hr : InOrder i s g) (hk : Kept p t h)
    (hl : (pmmSharing p).Later i s g t h) : InOrder i t h where
  pages pg hpg := by
    rw [hl.same.pages] at hpg
    exact hk.repr_later hl hpg (hr.pages pg hpg)
  linked := by rw [hl.same.linked, hl.same.pages, hr.linked]

theorem Settled.later (hr : Settled i s g) (hk : Kept p t h)
    (hl : (pmmSharing p).Later i s g t h) : Settled i t h :=
  { hr.toInOrder.later hk hl with
    outside := fun hi => hr.outside (hl.same.holder.mp hi) }

theorem Rest.later (hr : Rest i s g) (hk : Kept p t h) (hl : (pmmSharing p).Later i s g t h) :
    Rest i t h :=
  { hr.toSettled.later hk hl with unlocked := by rw [later_unlocked hl, hr.unlocked] }

theorem Working.later (hw : Working i pg s g) (hk : Kept p t h)
    (hl : (pmmSharing p).Later i s g t h) : Working i pg t h where
  mem := by
    rw [hl.same.pages]
    exact hw.mem
  others y hy hne := by
    rw [hl.same.pages] at hy
    exact hk.repr_later hl hy (hw.others y hy hne)
  linked := by rw [hl.same.linked, hl.same.pages, hw.linked]
  outside hi := hw.outside (hl.same.holder.mp hi)

theorem Worked.later (hw : Worked i pg pg' s g) (hk : Kept p t h)
    (hl : (pmmSharing p).Later i s g t h) : Worked i pg pg' t h :=
  { hw.toWorking.later hk hl with
    base := hw.base
    owner := hw.owner
    page := later_repr hl hw.own hw.page
    own := hw.own.congr hl.same
    unlocked := by rw [later_unlocked hl, hw.unlocked] }

/-- Work on the page leaves the CPU at work on it. -/
theorem Working.framed (hw : Working i pg s g) (hk : Kept p u g)
    (hf : Framed (g.siteFoot i pg) s t) : Working i pg t g where
  mem := hw.mem
  others y hy hne := hk.other_page hw.mem hy hne (fun z hz => hf.mem z fun hin => hz hin.1)
    (hw.others y hy hne)
  linked := hw.linked
  outside := hw.outside

/-- A page that the memory holds again needs no more work. -/
theorem Working.rest (hw : Working i pg s g) (hpg : pg.Repr s.mem)
    (hlock : s.lock (.pagelist i) = 0) : Rest i s g where
  pages y hy := by
    by_cases hne : y = pg
    · rw [hne]
      exact hpg
    · exact hw.others y hy hne
  linked := hw.linked
  outside := hw.outside
  unlocked := hlock

/-- The work on a page is done when the memory holds it again and the list is unlocked. -/
theorem Working.done (hw : Working i pg s g) (hk : Kept p u g)
    (hf : Framed (g.siteFoot i pg) s t) (hpg : pg'.Repr t.mem) (hbase : pg'.base = pg.base)
    (howner : pg'.owner = pg.owner) (hs : ∀ P₁ P₂, g.shape.pages = P₁ ++ pg :: P₂ →
      Sound p ⟨g.shape.free, P₁ ++ pg' :: P₂⟩ B) (hsub : ∀ c ∈ g.live, c ∈ B)
    (hlock : t.lock (.pagelist i) = 0) : Worked i pg pg' t g :=
  { hw.framed hk hf with
    base := hbase
    owner := howner
    page := hpg
    own := by
      obtain ⟨hmem, rfl⟩ := mem_pagesOf.mp hw.mem
      obtain ⟨P₁, P₂, hpages⟩ := List.append_of_mem hmem
      exact Ledger.own_records_of hpages hbase (hs P₁ P₂ hpages) hsub
    unlocked := hlock }

theorem Settled.working (hr : Settled i s g) (hpg : pg ∈ g.shape.pagesOf i) : Working i pg s g :=
  ⟨hpg, fun y hy _ => hr.pages y hy, hr.linked, hr.outside⟩

/-- Once the ledger says it, the CPU is at rest. -/
theorem Worked.rest (hw : Worked i pg pg' t h) (hpages : h.shape.pages = P₁ ++ pg :: P₂)
    (hk : Kept p t h) : Rest i t (h.repage i (P₁ ++ pg' :: P₂) B live') where
  pages y hy := by
    obtain ⟨hmem, howner⟩ := mem_pagesOf.mp hy
    have hcases : y = pg' ∨ y ∈ P₁ ++ P₂ := by
      simp only [Ledger.repage, List.mem_append, List.mem_cons] at hmem ⊢
      tauto
    obtain rfl | hother := hcases
    · exact hw.page
    · have hshape : y ∈ h.shape.pages := by
        rw [hpages]
        simp only [List.mem_append, List.mem_cons] at hother ⊢
        tauto
      refine hw.others y (mem_pagesOf.mpr ⟨hshape, howner⟩) ?_
      rintro rfl
      have hd := hk.sound.page_page hpages hother
      unfold Disj Page.span Region.stop pageBytes at hd
      simp only at hd
      omega
  linked := by
    have hbases := pagesOf_replace hpages hw.base hw.owner i
    exact hw.linked.trans hbases.symm
  unlocked := hw.unlocked
  outside := hw.outside

/-- The call of CPU `i` is over when it returns `a`: the ledger may say so. -/
def Done (p : Platform) (i : ℕ) (c : Call) (a : ℕ) (t : PmmState) (h : Ledger) : Prop :=
  ∃ h', Kept p t h' ∧ (∀ j, j ≠ i → (pmmSharing p).Later j t h t h') ∧
    h'.live = c.returned a h.live ∧ Rest i t h'

/-- A call that changed nothing is over. -/
theorem done_of_rest {c : Call} {a : ℕ} (hr : Rest i s g) (hc : ∀ l, c.returned a l = l) :
    (pmmSharing p).Finally i (Done p i c) a s g := fun t h hk hl =>
  ⟨h, hk, fun j _ => .refl _ j t h, (hc _).symm, hr.later hk hl⟩

/-- A call that took a block of a page is over. -/
theorem done_of_hand_out (hw : Worked i pg pg' s g) (hb : ¬ b.Huge) (hne : b.addr ≠ 0)
    (hin : b.region.Within pg.span)
    (hs : ∀ (h : Ledger) P₁ P₂, Sound p h.shape h.blocks → h.shape.pages = P₁ ++ pg :: P₂ →
      Sound p ⟨h.shape.free, P₁ ++ pg' :: P₂⟩ (b :: h.blocks)) :
    (pmmSharing p).Finally i (Done p i (.alloc b.req)) b.addr s g := by
  intro t h hk hl
  have hw' := hw.later hk hl
  obtain ⟨hmem, howner⟩ := mem_pagesOf.mp hw'.mem
  obtain ⟨P₁, P₂, hpages⟩ := List.append_of_mem hmem
  obtain ⟨hk', hothers⟩ := hk.hand_out hpages howner hw.base hw.owner
    (hs h P₁ P₂ hk.sound hpages) hb hin
  exact ⟨_, hk', hothers, (if_neg hne).symm, hw'.rest hpages hk⟩

/-- A call that gave a block back to a page is over. -/
theorem done_of_take_back (hw : Worked i pg pg' s g) (hhand : g.inHand i = some b)
    (hs : ∀ (h : Ledger) P₁ P₂, Sound p h.shape h.blocks → b ∈ h.blocks →
      h.shape.pages = P₁ ++ pg :: P₂ →
      Sound p ⟨h.shape.free, P₁ ++ pg' :: P₂⟩ (h.blocks.erase b)) {ptr : ℕ} :
    (pmmSharing p).Finally i (Done p i (.free ptr)) 0 s g := by
  intro t h hk hl
  have hw' := hw.later hk hl
  obtain ⟨hmem, howner⟩ := mem_pagesOf.mp hw'.mem
  obtain ⟨P₁, P₂, hpages⟩ := List.append_of_mem hmem
  have hhand' : h.inHand i = some b := hl.same.inHand.trans hhand
  obtain ⟨hk', hothers⟩ := hk.take_back hpages howner hw.base hw.owner hhand'
    (hs h P₁ P₂ hk.sound (hk.inHand i b hhand').1 hpages)
  exact ⟨_, hk', hothers, rfl, hw'.rest hpages hk⟩

end Places

end KmallocKfree
