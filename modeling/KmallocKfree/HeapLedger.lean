import KmallocKfree.OwnPages

/-!
# The heap lock and the ledger

From the moment when a CPU takes the heap lock until it releases it, the nodes of the free
list are its own, and so is the large block that it gives back. When it releases the lock
the ledger says what has become of them. What happens in between is what happens when the
CPU is alone.
-/
namespace KmallocKfree

open Prog Region Shape

namespace Ledger

/-- CPU `i` holds the heap lock. -/
def entered (g : Ledger) (i : ℕ) : Ledger := { g with holder := some i }

/-- CPU `i` has released the heap lock, with the block `hand` in its hands. -/
def left (g : Ledger) (i : ℕ) (shape : Shape) (blocks : List Block) (hand : Option Block) :
    Ledger where
  shape := shape
  linked := g.linked
  blocks := blocks
  live := g.live
  asks := g.asks
  inHand := Function.update g.inHand i hand
  holder := none

end Ledger

/-- CPU `i` has a page that is in no list. -/
structure Unlisted (i : ℕ) (pg : Page) (s : PmmState) (g : Ledger) : Prop where
  mem : pg ∈ g.shape.pagesOf i
  others : ∀ y ∈ g.shape.pagesOf i, y ≠ pg → y.Repr s.mem
  linked : (g.shape.pagesOf i).map Page.base = pg.base :: g.linked i
  outside : g.holder ≠ some i

/-- The page is new, and its record is blank. -/
structure Gained (i : ℕ) (pg : Page) (s : PmmState) (g : Ledger) : Prop
    extends Unlisted i pg s g where
  blank : ∀ x, pg.base ≤ x → x < pg.base + 16 → s.mem x = 0

/-- CPU `i` releases the heap lock in store `u`, and `k` becomes `k'`. -/
structure Leaves (p : Platform) (i : ℕ) (u : PmmState) (k k' : Ledger) : Prop where
  kept : Kept p (u.setLock .heapLock 0) k'
  others : ∀ j, j ≠ i → (pmmSharing p).Later j u k (u.setLock .heapLock 0) k'
  pages : ∀ pg ∈ k.shape.pagesOf i, pg ∈ k'.shape.pagesOf i

section Lock

variable {p : Platform} {s t u : PmmState} {g h k : Ledger} {i j : ℕ} {sh : Shape}
  {B : List Block} {b : Block} {hand : Option Block} {l nodes : List Region} {q r : Region}

/-- The heap lock is no place of a CPU that does not hold it. -/
theorem later_setLock (hs : Ledger.Same j h k) (hj : h.holder ≠ some j) (v : ℕ) :
    (pmmSharing p).Later j t h (t.setLock .heapLock v) k := by
  refine ⟨hs, fun _ _ => rfl, fun _ _ => rfl, ?_⟩
  rintro _ (rfl | ⟨rfl, hholder⟩)
  · rfl
  · exact absurd hholder hj

theorem Kept.entered (hk : Kept p t h) (hnone : h.holder = none) (i : ℕ) :
    Kept p (t.setLock .heapLock 1) (h.entered i) ∧ ∀ j, j ≠ i →
      (pmmSharing p).Later j t h (t.setLock .heapLock 1) (h.entered i) := by
  constructor
  · refine ⟨hk.sound, hk.long, fun hi => ?_, fun hlock => ?_, hk.lists, hk.bases, hk.headers,
      hk.sub, hk.nodup, hk.inHand, hk.unique⟩
    · cases hi
    · cases hlock
  · intro j hj
    have hne : h.holder ≠ some j := by simp [hnone]
    have hsame : Ledger.Same j h (h.entered i) := by
      refine ⟨rfl, rfl, rfl, rfl, fun _ _ => Iff.rfl, ?_, fun _ => rfl, fun _ _ hq => hq⟩
      simp [Ledger.entered, hnone, hj.symm]
    exact later_setLock hsame hne 1

/-- The ledger when CPU `i` releases the heap lock. It has not touched the pages of the
others, nor the blocks in their hands. -/
theorem Kept.left (hk : Kept p u h) (hi : h.holder = some i)
    (hlist : FreeList u.mem (u.var .head) sh.free 0) (hs : Sound p sh B) (hlong : Long sh)
    (hpages : ∀ j, j ≠ i → sh.pagesOf j = h.shape.pagesOf j)
    (hbases : ∀ pg ∈ h.shape.pagesOf i, pg ∈ sh.pagesOf i) (hsub : ∀ c ∈ h.live, c ∈ B)
    (hhand : ∀ c, hand = some c → c ∈ B ∧ c ∉ h.live)
    (hothers : ∀ j c, j ≠ i → h.inHand j = some c → c ∈ B ∧ hand ≠ some c) :
    Leaves p i u h (h.left i sh B hand) := by
  have hself : (h.left i sh B hand).inHand i = hand := by
    simp [Ledger.left]
  have hother : ∀ j, j ≠ i → (h.left i sh B hand).inHand j = h.inHand j := by
    intro j hj
    simp [Ledger.left, hj]
  refine ⟨?_, ?_, hbases⟩
  · refine ⟨hs, hlong, fun _ => hlist, fun _ => rfl, hk.lists, fun k q hq => ?_, hk.headers, hsub,
      hk.nodup, fun j c hc => ?_, fun j j' c hc hc' => ?_⟩
    · obtain ⟨pg, hpg, rfl⟩ := hk.bases k q hq
      by_cases hki : k = i
      · subst hki
        exact ⟨pg, hbases pg hpg, rfl⟩
      · refine ⟨pg, ?_, rfl⟩
        change pg ∈ sh.pagesOf k
        rw [hpages k hki]
        exact hpg
    · by_cases hj : j = i
      · subst hj
        rw [hself] at hc
        exact hhand c hc
      · rw [hother j hj] at hc
        exact ⟨(hothers j c hj hc).1, (hk.inHand j c hc).2⟩
    · by_cases hj : j = i
      · by_cases hj' : j' = i
        · rw [hj, hj']
        · subst hj
          rw [hself] at hc
          rw [hother j' hj'] at hc'
          exact absurd hc (hothers j' c hj' hc').2
      · rw [hother j hj] at hc
        by_cases hj' : j' = i
        · subst hj'
          rw [hself] at hc'
          exact absurd hc' (hothers j c hj hc).2
        · rw [hother j' hj'] at hc'
          exact hk.unique j j' c hc hc'
  · intro j hj
    have hne : h.holder ≠ some j := by
      rw [hi]
      exact fun heq => hj (Option.some.inj heq).symm
    have hsame : Ledger.Same j h (h.left i sh B hand) := by
      refine ⟨hpages j hj, rfl, rfl, hother j hj, fun _ _ => Iff.rfl, ?_, fun hheld =>
        absurd hheld hne, fun _ _ hq => hq⟩
      simp [Ledger.left, hi, hj.symm]
    exact later_setLock hsame hne 0

/-- The nodes are places of the CPU that takes the heap lock. -/
theorem Kept.node_entered (hk : Kept p t h) (hr : r ∈ h.shape.free) {x : ℕ}
    (hx : r.node.Contains x) :
    (h.entered i).OwnByte i x ∧ ¬ LinkByte (h.linked i) x := by
  refine ⟨.inr (.inr ⟨rfl, r, hr, hx⟩), fun hlink => ?_⟩
  obtain ⟨pg, hpg, hin⟩ := hk.link_page hlink
  exact (hk.sound.free_page hr (mem_pagesOf.mp hpg).1).not_contains hx hin

/-- So is the large block that it gives back. -/
theorem Kept.hand_entered (hk : Kept p t h) (hb : h.inHand i = some b) (hbh : b.Huge) {x : ℕ}
    (hx : b.span.Contains x) :
    (h.entered i).OwnByte i x ∧ ¬ LinkByte (h.linked i) x := by
  refine ⟨.inr (.inl ⟨b, hb, hbh, hx⟩), fun hlink => ?_⟩
  obtain ⟨pg, hpg, hin⟩ := hk.link_page hlink
  exact (hk.sound.page_huge (mem_pagesOf.mp hpg).1 (hk.inHand i b hb).1 hbh).not_contains hin hx

theorem section_sub (hnodes : ∀ r ∈ nodes, ∀ x, r.node.Contains x →
    (h.entered i).OwnByte i x ∧ ¬ LinkByte (h.linked i) x) :
    (sectionFoot nodes i).Sub ((h.entered i).foot i) where
  reads x := by
    rintro ⟨r, hr, hx⟩
    exact (hnodes r hr x hx).1
  writes x := by
    rintro ⟨r, hr, hx⟩
    exact hnodes r hr x hx
  derefs _ _ _ := trivial
  gets x hx := .inr ⟨hx, rfl⟩
  sets x hx := ⟨hx, rfl⟩
  locks l hl := hl.symm.imp_right fun h => ⟨h, rfl⟩

/-- A free list in the bytes of the holder stays. -/
theorem later_freeList (hl : (pmmSharing p).Later i s g t h) (hi : g.holder = some i)
    (hlist : FreeList s.mem (s.var .head) l 0)
    (hown : ∀ q ∈ l, ∀ x, q.start ≤ x → x < q.start + 16 → g.OwnByte i x) :
    FreeList t.mem (t.var .head) l 0 := by
  rw [hl.agree.var .head (.inr ⟨rfl, hi⟩)]
  exact hlist.frame fun q hq => later_record hl (hown q hq)

/-- So does one whose records lie in nodes that the CPU found. -/
theorem Kept.later_nodes (hk : Kept p t h) (hl : (pmmSharing p).Later i s (h.entered i) u k)
    (hlist : FreeList s.mem (s.var .head) l 0)
    (hin : ∀ q ∈ l, ∃ r ∈ h.shape.free, Within ⟨q.start, headerBytes⟩ r.node) :
    FreeList u.mem (u.var .head) l 0 := by
  refine later_freeList hl rfl hlist fun q hq x h₁ h₂ => ?_
  obtain ⟨r, hr, hrec⟩ := hin q hq
  exact (hk.node_entered hr (contains_of_within hrec h₁ h₂)).1

/-- When others take the place of a node in its memory, all records lie in nodes from before. -/
theorem record_replace {l₁ l₂ : List Region} (hfree : sh.free = l₁ ++ r :: l₂)
    (hl : ∀ x ∈ l, Within ⟨x.start, headerBytes⟩ r.node) :
    ∀ q ∈ l₁ ++ l ++ l₂, ∃ y ∈ sh.free, Within ⟨q.start, headerBytes⟩ y.node := by
  intro q hq
  rw [hfree]
  simp only [List.mem_append] at hq
  obtain (hq | hq) | hq := hq
  · exact ⟨q, by simp [hq], node_record q⟩
  · exact ⟨r, by simp, hl q hq⟩
  · exact ⟨q, by simp [hq], node_record q⟩

/-- Nodes that are long take the place of one. -/
theorem Long.replace {l₁ l₂ : List Region} {pages : List Page} (hlong : Long sh)
    (hfree : sh.free = l₁ ++ r :: l₂) (hl : ∀ x ∈ l, headerBytes ≤ x.len) :
    Long ⟨l₁ ++ l ++ l₂, pages⟩ := by
  intro x hx
  have hold : x ∈ l₁ ++ l₂ → headerBytes ≤ x.len := by
    intro hx
    refine hlong x ?_
    rw [hfree]
    simp only [List.mem_append, List.mem_cons] at hx ⊢
    tauto
  simp only [List.mem_append] at hx
  obtain (hx | hx) | hx := hx
  · exact hold (List.mem_append_left _ hx)
  · exact hl x hx
  · exact hold (List.mem_append_right _ hx)

/-- The list of the CPU stays unlocked in a section that gives the locks back. -/
theorem unlocked_after (hlocks : (s.setLock .heapLock 0).lock = t.lock)
    (hlock : t.lock (.pagelist i) = 0) (hl : (pmmSharing p).Later i s g u k) :
    (u.setLock .heapLock 0).lock (.pagelist i) = 0 := by
  have h₁ : u.lock (.pagelist i) = s.lock (.pagelist i) := later_unlocked hl
  have h₂ : (s.setLock .heapLock 0).lock (.pagelist i) = t.lock (.pagelist i) := congrFun hlocks _
  exact h₁.trans (h₂.trans hlock)

/-- The pages of a CPU stay in order where their bytes stay. -/
theorem InOrder.entered (ho : InOrder i s g) (hk : Kept p s g)
    (hmem : ∀ x, g.PageByte i x → t.mem x = s.mem x) : InOrder i t (g.entered i) where
  pages pg hpg := by
    have hv := (hk.sound.pages pg (mem_pagesOf.mp hpg).1).1
    have hsame : ∀ q, Within ⟨q, headerBytes⟩ pg.span → SameRecord s.mem t.mem q :=
      fun q hq x h₁ h₂ => hmem x ⟨pg, hpg, contains_of_within hq h₁ h₂⟩
    refine (ho.pages pg hpg).frame (hsame _ (page_record pg)) fun r hr => hsame _ ?_
    obtain ⟨h₁, h₂⟩ := run_record hv hr
    exact ⟨le_trans h₂.1 h₁.1, le_trans h₁.2 h₂.2⟩
  linked := ho.linked

/-- A section under the heap lock does what it does alone, and the ledger says so in the end. -/
theorem safe_heap_section {α : Type} {c : Code α} {next : ℕ → Code α}
    {Q : α → PmmState → Ledger → Prop} (hc : c = .op (.acquire .heapLock) next)
    (hcrit : Critical .heapLock (next 0))
    (hsec : ∀ t h, Kept p t h → (pmmSharing p).Later i s g t h → h.holder = none →
      t.lock .heapLock = 0 → (pmmSharing p).assumes i (.acquire .heapLock) t h →
      ∃ nodes Q₀, (∀ r ∈ nodes, ∀ x, r.node.Contains x →
          (h.entered i).OwnByte i x ∧ ¬ LinkByte (h.linked i) x) ∧
        wp (sectionFoot nodes i).Allows c t Q₀ ∧
        ∀ a s' u k, Q₀ a (s'.setLock .heapLock 0) → Kept p u k →
          (pmmSharing p).Later i s' (h.entered i) u k →
          ∃ sh B hand, Leaves p i u k (k.left i sh B hand) ∧
            Q a (u.setLock .heapLock 0) (k.left i sh B hand)) :
    (pmmSharing p).Safe i c s g Q := by
  rw [hc]
  intro t h hk hl
  refine ⟨.enter, fun hassume v t' hr => ?_⟩
  have hfree : t.lock .heapLock = 0 := by
    by_contra hne
    simp only [Op.run, if_neg hne] at hr
    cases hr
  simp only [Op.run, if_pos hfree] at hr
  cases hr
  have hnone := hk.released hfree
  obtain ⟨nodes, Q₀, hnodes, hwp, hclose⟩ := hsec t h hk hl hnone hfree hassume
  obtain ⟨hk', hothers⟩ := hk.entered hnone i
  rw [hc] at hwp
  simp only [wp, Op.run, if_pos hfree] at hwp
  refine ⟨h.entered i, ⟨hk', hothers, rfl, rfl, rfl, fun _ hpg => hpg, fun _ => rfl⟩, ?_⟩
  refine Sharing.safe_section hcrit hwp.2 (section_sub hnodes) (.refl _ i _ _) ?_
  intro a s' u k hQ₀ hku hlu
  obtain ⟨sh, B, hand, hleaves, hQ⟩ := hclose a s' u k hQ₀ hku hlu
  exact ⟨.leave (hlu.same.holder.mpr rfl), _,
    ⟨hleaves.kept, hleaves.others, rfl, rfl, rfl, hleaves.pages,
      fun hnone => absurd hnone.symm (Option.some_ne_none i)⟩, hQ⟩

/-- No page has a byte of a node. -/
theorem Kept.page_outside (hk : Kept p t h) {x : ℕ} (hx : h.PageByte i x) :
    ¬ (sectionFoot h.shape.free j).writes x := by
  rintro ⟨r, hr, hrx⟩
  obtain ⟨pg, hpg, hin⟩ := hx
  exact (hk.sound.free_page hr (mem_pagesOf.mp hpg).1).not_contains hrx hin

/-- The ledger when CPU `i` releases the heap lock and has changed nothing. -/
theorem Kept.left_alone (hk : Kept p u h) (hi : h.holder = some i)
    (hlist : FreeList u.mem (u.var .head) h.shape.free 0) :
    Leaves p i u h (h.left i h.shape h.blocks (h.inHand i)) :=
  hk.left hi hlist hk.sound hk.long (fun _ _ => rfl) (fun _ hpg => hpg) hk.sub (hk.inHand i)
    fun j c hj hc => ⟨(hk.inHand j c hc).1, fun heq => hj (hk.unique j i c hc heq)⟩

theorem InOrder.left (ho : InOrder i u h) (hpages : sh.pagesOf i = h.shape.pagesOf i) :
    Settled i (u.setLock .heapLock 0) (h.left i sh B hand) where
  pages pg hpg := ho.pages pg (hpages ▸ hpg)
  linked := by
    change h.linked i = (sh.pagesOf i).map Page.base
    rw [hpages, ho.linked]
  outside := by simp [Ledger.left]

end Lock

section Sections

variable {p : Platform} {s : PmmState} {g : Ledger} {i n : ℕ} {b : Block}

/-- What `allockpage` gives CPU `i` for a page of class `c`. -/
def PageGiven (i c : ℕ) (g : Ledger) (page : ℕ) (u : PmmState) (k : Ledger) : Prop :=
  k.asks i = g.asks i ∧ k.linked i = g.linked i ∧
    ((page = 0 ∧ Settled i u k) ∨ (page ≠ 0 ∧ Gained i (Page.whole i page c) u k))

theorem safe_allockpage (ho : Settled i s g) (hi : i < p.cpuCount) (hn : n ≤ 16384)
    (hasks : g.asks i = some n) :
    (pmmSharing p).Safe i allockpage s g (PageGiven i (roundSize n) g) := by
  obtain ⟨next, hacq, hcrit⟩ := exists_page_section
  refine safe_heap_section hacq hcrit fun t h hk hl hnone hlock hassume => ?_
  have hst := ho.later hk hl
  have hlist := hk.heap hnone
  have hnodes : ∀ r ∈ h.shape.free, ∀ x, r.node.Contains x →
      (h.entered i).OwnByte i x ∧ ¬ LinkByte (h.linked i) x := fun r hr x hx =>
    hk.node_entered hr hx
  obtain hsmall | ⟨l₁, r, l₂, hfree, hsmall, hfit⟩ := firstFit_cases h.shape.free
  · refine ⟨h.shape.free, _, hnodes, wp_page_refused hk.sound hlist hlock hsmall, ?_⟩
    rintro _ s' u k ⟨rfl, hs'⟩ hku hlu
    obtain rfl : t = s'.setLock .heapLock 0 := hs'.symm
    have hfree : k.shape.free = h.shape.free := hlu.same.free rfl
    have hin : InOrder i s' (h.entered i) := hst.toInOrder.entered hk fun _ _ => rfl
    have hin := hin.later hku hlu
    have hlist' : FreeList u.mem (u.var .head) k.shape.free 0 := by
      rw [hfree]
      exact hk.later_nodes hlu hlist fun q hq => ⟨q, hq, node_record q⟩
    refine ⟨_, _, _, hku.left_alone (hlu.same.holder.mpr rfl) hlist', ?_, ?_,
      .inl ⟨rfl, hin.left rfl⟩⟩
    · exact hlu.same.asks.trans hl.same.asks
    · exact hlu.same.linked.trans hl.same.linked
  · have hr : r ∈ h.shape.free := by rw [hfree]; simp
    have hfits : RemainderFits t := (hassume rfl n (hl.same.asks.trans hasks)).2 hn
    have hroom := hfits.first hk.sound hlist hfree hsmall hfit
    refine ⟨h.shape.free, _, hnodes,
      wp_frame (wp_page_section hk.sound hlist hlock hfree hsmall hfit hroom), ?_⟩
    rintro _ s' u k ⟨⟨rfl, hnew, -, hblank⟩, hf⟩ hku hlu
    have hin : InOrder i s' (h.entered i) :=
      hst.toInOrder.entered hk fun x hx => hf.mem x (hk.page_outside hx)
    have hin := hin.later hku hlu
    have hfree' : k.shape.free = l₁ ++ r :: l₂ := (hlu.same.free rfl).trans hfree
    have hsound := hku.sound.newPage hfree' hfit (sizeClass_roundSize hn) hi
      (hku.sound.clear_afterPage hfree' hroom)
    have hown : ∀ x, r.node.Contains x → (h.entered i).OwnByte i x := fun x hx =>
      (hnodes r hr x hx).1
    have hlist' : FreeList u.mem (u.var .head) (l₁ ++ afterPage r ++ l₂) 0 := by
      refine hk.later_nodes hlu hnew (record_replace hfree fun q hq => ?_)
      obtain ⟨hstart, hlen, hne⟩ := mem_afterPage hq
      have := hroom.resolve_left hne
      unfold Within Region.node Region.stop headerBytes at *
      simp only
      omega
    have hlong : Long ⟨l₁ ++ afterPage r ++ l₂,
        Page.whole i r.start (roundSize n) :: k.shape.pages⟩ := by
      refine hku.long.replace hfree' fun x hx => ?_
      obtain ⟨-, hlen, hne⟩ := mem_afterPage hx
      have := hroom.resolve_left hne
      omega
    have hpages : (⟨l₁ ++ afterPage r ++ l₂, Page.whole i r.start (roundSize n) ::
        k.shape.pages⟩ : Shape).pagesOf i =
        Page.whole i r.start (roundSize n) :: k.shape.pagesOf i :=
      List.filter_cons_of_pos (by simp [Page.whole])
    refine ⟨_, _, k.inHand i, hku.left (hlu.same.holder.mpr rfl) hlist' hsound hlong ?_ ?_ hku.sub
      (hku.inHand i) fun j c hj hc => ⟨(hku.inHand j c hc).1, fun heq =>
        hj (hku.unique j i c hc heq)⟩, ?_, ?_, .inr ⟨(hk.sound.free_pos hr).ne', ?_⟩⟩
    · exact fun j hj => List.filter_cons_of_neg (by simp [Page.whole, hj.symm])
    · intro pg hpg
      rw [hpages]
      exact List.mem_cons_of_mem _ hpg
    · exact hlu.same.asks.trans hl.same.asks
    · exact hlu.same.linked.trans hl.same.linked
    · refine ⟨⟨?_, fun y hy hne => ?_, ?_, by simp [Ledger.left]⟩, fun x h₁ h₂ => ?_⟩
      · exact hpages ▸ List.mem_cons_self
      · change y ∈ (⟨l₁ ++ afterPage r ++ l₂, Page.whole i r.start (roundSize n) ::
          k.shape.pages⟩ : Shape).pagesOf i at hy
        rw [hpages] at hy
        exact hin.pages y ((List.mem_cons.mp hy).resolve_left hne)
      · change List.map Page.base ((⟨l₁ ++ afterPage r ++ l₂, Page.whole i r.start (roundSize n) ::
          k.shape.pages⟩ : Shape).pagesOf i) = _ :: k.linked i
        rw [hpages, List.map_cons, hin.linked]
      · have hbyte := hown x (contains_of_within (node_record r) h₁ h₂)
        exact (hlu.agree.mem x hbyte).trans (hblank x h₁ h₂)

/-- The block that a CPU has cut off goes to the callers. -/
theorem Kept.give {t : PmmState} {h : Ledger} (hk : Kept p t h) (hhand : h.inHand i = some b)
    (hsize : sizeAt t.mem b.span.start = b.size)
    (hmagic : wordAt t.mem b.span.start = toWord hugeMagic) :
    Kept p t { h with live := b :: h.live, inHand := Function.update h.inHand i none } := by
  obtain ⟨hmem, hlive⟩ := hk.inHand i b hhand
  -- only the other CPUs have blocks in hand now
  have hother : ∀ j c, Function.update h.inHand i none j = some c →
      j ≠ i ∧ h.inHand j = some c := by
    intro j c hc
    by_cases hj : j = i
    · simp [hj] at hc
    · rw [Function.update_of_ne hj] at hc
      exact ⟨hj, hc⟩
  refine { hk with
    headers := fun c hc hch => ?_, sub := fun c hc => ?_
    nodup := List.nodup_cons.mpr ⟨hlive, hk.nodup⟩
    inHand := fun j c hc => ?_, unique := fun j j' c hc hc' => ?_ }
  · obtain rfl | hc := List.mem_cons.mp hc
    · exact ⟨hsize, hmagic⟩
    · exact hk.headers c hc hch
  · obtain rfl | hc := List.mem_cons.mp hc
    · exact hmem
    · exact hk.sub c hc
  · obtain ⟨hj, hheld⟩ := hother j c hc
    refine ⟨(hk.inHand j c hheld).1, fun hmem => ?_⟩
    obtain rfl | hmem := List.mem_cons.mp hmem
    · exact hj (hk.unique j i c hheld hhand)
    · exact (hk.inHand j c hheld).2 hmem
  · exact hk.unique j j' c (hother j c hc).2 (hother j' c hc').2

/-- A call that has cut off a large block is over. -/
theorem done_of_cut (hr : Rest i s g) (hhand : g.inHand i = some b) (hbh : b.Huge)
    (hsize : sizeAt s.mem b.span.start = b.size)
    (hmagic : wordAt s.mem b.span.start = toWord hugeMagic) (hne : b.addr ≠ 0) :
    (pmmSharing p).Finally i (Done p i (.alloc b.req)) b.addr s g := by
  intro t h hk hl
  have hhand' : h.inHand i = some b := hl.same.inHand.trans hhand
  have hmem := (hk.inHand i b hhand').1
  have hsame : SameRecord s.mem t.mem b.span.start := later_record hl fun y h₁ h₂ =>
    .inr (.inl ⟨b, hhand, hbh, contains_of_within (span_record b) h₁ h₂⟩)
  obtain ⟨-, haddr, -⟩ := hk.sound.huge b hmem hbh
  have hin : b.region.Within b.span := Block.region_within_span (by omega)
  refine ⟨{ h with live := b :: h.live, inHand := Function.update h.inHand i none },
    hk.give hhand' (hsame.size.trans hsize) (hsame.word.trans hmagic), fun j hj => ?_,
    (if_neg hne).symm, ?_⟩
  · refine ⟨⟨rfl, rfl, rfl, Function.update_of_ne hj _ _, fun x hx => ?_, Iff.rfl, fun _ => rfl,
      fun _ _ hq => hq⟩, .refl _ t⟩
    obtain ⟨pg, hpg, hpx⟩ := hx
    have hbx : ¬ b.region.Contains x := fun hbx =>
      (hk.sound.page_huge (mem_pagesOf.mp hpg).1 hmem hbh).not_contains hpx (hin.contains hbx)
    simp only [Ledger.LiveByte, List.exists_mem_cons_iff, hbx, false_or]
  · exact ⟨⟨⟨(hr.later hk hl).pages, (hr.later hk hl).linked⟩, (hr.later hk hl).outside⟩,
      (hr.later hk hl).unlocked⟩

/-- A large request. -/
theorem safe_alloc_section (hr : Rest i s g) (hbig : 16384 < n) (hmax : n ≤ 16777216)
    (hasks : g.asks i = some n) :
    (pmmSharing p).Safe i (kallocHugeMemory (roundSize n)) s g
      ((pmmSharing p).Finally i (Done p i (.alloc n))) := by
  obtain ⟨next, hacq, hcrit⟩ := exists_alloc_section (roundSize n)
  refine safe_heap_section hacq hcrit fun t h hk hl hnone hlock hassume => ?_
  have hst := hr.later hk hl
  have hlist := hk.heap hnone
  have hnodes : ∀ r ∈ h.shape.free, ∀ x, r.node.Contains x →
      (h.entered i).OwnByte i x ∧ ¬ LinkByte (h.linked i) x := fun r hr x hx =>
    hk.node_entered hr hx
  have hfits : HeaderFits t n := (hassume rfl n (hl.same.asks.trans hasks)).1
  refine ⟨h.shape.free, _, hnodes, wp_frame (wp_alloc_section hk.sound hlist hlock hbig hmax
    fun r hr => hfits.room hk.sound hlist hbig hmax hr), ?_⟩
  rintro a s' u k ⟨⟨hlocks, hvar, hres⟩, hf⟩ hku hlu
  have hin : InOrder i s' (h.entered i) :=
    hst.toInOrder.entered hk fun x hx => hf.mem x (hk.page_outside hx)
  have hin := hin.later hku hlu
  have hheld := hlu.same.holder.mpr rfl
  have hunlocked := unlocked_after hlocks hst.unlocked hlu
  have hfree : k.shape.free = h.shape.free := hlu.same.free rfl
  obtain ⟨rfl, hs', -⟩ | ⟨l₁, r, l₂, hsplit, hfit, rfl, hnew, hsize, hmagic⟩ := hres
  · obtain rfl : t = s'.setLock .heapLock 0 := hs'.symm
    have hlist' : FreeList u.mem (u.var .head) k.shape.free 0 := by
      rw [hfree]
      exact hk.later_nodes hlu hlist fun q hq => ⟨q, hq, node_record q⟩
    refine ⟨_, _, _, hku.left_alone hheld hlist',
      done_of_rest ⟨hin.left rfl, hunlocked⟩ fun l => ?_⟩
    simp [Call.returned]
  · have hr : r ∈ h.shape.free := by rw [hsplit]; simp
    have hroom := hfits.room hk.sound hlist hbig hmax hfit
    have hpos := hk.sound.free_pos hr
    have hsplit' : k.shape.free = l₁ ++ r :: l₂ := hfree.trans hsplit
    set b : Block := ⟨r.stop - roundSize n, n⟩ with hb
    have hbh : b.Huge := hbig
    have hbsize : b.size = roundSize n := rfl
    have hsound := hku.sound.cut hsplit' hbh hmax hroom rfl
    have hnot := hsound.not_mem_cons
    have hlist' : FreeList u.mem (u.var .head) (l₁ ++ beforeBlock r b.size :: l₂) 0 := by
      have hvar' : s'.var .head = t.var .head := congrFun hvar _
      rw [List.append_cons] at hnew ⊢
      refine hk.later_nodes hlu (hvar' ▸ hnew) (record_replace hsplit fun q hq => ?_)
      obtain rfl := List.mem_singleton.mp hq
      exact node_record r
    have hlong : Long ⟨l₁ ++ beforeBlock r b.size :: l₂, k.shape.pages⟩ := by
      rw [List.append_cons]
      refine hku.long.replace hsplit' fun x hx => ?_
      obtain rfl := List.mem_singleton.mp hx
      unfold beforeBlock headerBytes
      simp only
      omega
    have hstart : b.span.start = r.start + (r.len - roundSize n - headerBytes) := by
      change r.start + r.len - roundSize n - headerBytes = _
      unfold headerBytes
      omega
    have hheader : Within ⟨b.span.start, headerBytes⟩ r.node := by
      rw [hstart]
      unfold Within Region.node Region.stop headerBytes
      simp only
      omega
    have hrecord : SameRecord s'.mem u.mem b.span.start := later_record hlu fun y h₁ h₂ =>
      (hnodes r hr y (contains_of_within hheader h₁ h₂)).1
    refine ⟨_, _, some b, hku.left hheld hlist' hsound hlong (fun _ _ => rfl) (fun _ hpg => hpg)
      (fun c hc => List.mem_cons_of_mem _ (hku.sub c hc)) (fun c hc => ?_)
      (fun j c hj hc => ?_), ?_⟩
    · cases hc
      exact ⟨List.mem_cons_self, fun hlive => hnot (hku.sub b hlive)⟩
    · refine ⟨List.mem_cons_of_mem _ (hku.inHand j c hc).1, fun heq => ?_⟩
      cases heq
      exact hnot (hku.inHand j b hc).1
    · refine done_of_cut (b := b) ⟨hin.left rfl, hunlocked⟩ ?_ hbh (hrecord.size.trans hsize)
        (hrecord.word.trans hmagic) ?_
      · simp [Ledger.left]
      · change r.start + r.len - roundSize n ≠ 0
        omega

/-- A large block is given back. -/
theorem safe_free_section (hr : Rest i s g) (hhand : g.inHand i = some b) (hbh : b.Huge)
    (hsize : sizeAt s.mem b.span.start = b.size)
    (hmagic : wordAt s.mem b.span.start = toWord hugeMagic) {ptr : ℕ} :
    (pmmSharing p).Safe i (hugeSection b.addr) s g fun _ =>
      (pmmSharing p).Finally i (Done p i (.free ptr)) 0 := by
  obtain ⟨next, hacq, hcrit⟩ := exists_free_section b.addr
  refine safe_heap_section hacq hcrit fun t h hk hl hnone hlock hassume => ?_
  have hst := hr.later hk hl
  have hlist := hk.heap hnone
  have hhand' : h.inHand i = some b := hl.same.inHand.trans hhand
  have hmem := (hk.inHand i b hhand').1
  have hnode : b.span.node = b.span := Region.node_eq (Nat.le_add_left _ _)
  have hrecord : SameRecord s.mem t.mem b.span.start := later_record hl fun y h₁ h₂ =>
    .inr (.inl ⟨b, hhand, hbh, contains_of_within (span_record b) h₁ h₂⟩)
  have hspan : ∀ x, b.span.Contains x →
      (h.entered i).OwnByte i x ∧ ¬ LinkByte (h.linked i) x := fun x hx =>
    hk.hand_entered hhand' hbh hx
  have hnodes : ∀ r ∈ h.shape.free ++ [b.span], ∀ x, r.node.Contains x →
      (h.entered i).OwnByte i x ∧ ¬ LinkByte (h.linked i) x := by
    intro r hr x hx
    obtain hr | hr := List.mem_append.mp hr
    · exact hk.node_entered hr hx
    · obtain rfl := List.mem_singleton.mp hr
      exact hspan x (hnode ▸ hx)
  have hpage : ∀ x, h.PageByte i x →
      ¬ (sectionFoot (h.shape.free ++ [b.span]) i).writes x := by
    rintro x hx ⟨r, hr, hrx⟩
    obtain hr | hr := List.mem_append.mp hr
    · exact hk.page_outside (j := i) hx ⟨r, hr, hrx⟩
    · obtain rfl := List.mem_singleton.mp hr
      obtain ⟨pg, hpg, hin⟩ := hx
      exact (hk.sound.page_huge (mem_pagesOf.mp hpg).1 hmem hbh).not_contains hin (hnode ▸ hrx)
  refine ⟨h.shape.free ++ [b.span], _, hnodes, wp_frame (wp_free_section hk.sound hlist hlock
    hst.unlocked hmem hbh hk.long (hrecord.size.trans hsize) (hrecord.word.trans hmagic)), ?_⟩
  rintro _ s' u k ⟨⟨hnew, hlocks⟩, hf⟩ hku hlu
  have hin : InOrder i s' (h.entered i) :=
    hst.toInOrder.entered hk fun x hx => hf.mem x (hpage x hx)
  have hin := hin.later hku hlu
  have hheld := hlu.same.holder.mpr rfl
  have hunlocked := unlocked_after hlocks hst.unlocked hlu
  have hfree : k.shape.free = h.shape.free := hlu.same.free rfl
  have hhand'' : k.inHand i = some b := hlu.same.inHand.trans hhand'
  obtain ⟨hmem', hlive⟩ := hku.inHand i b hhand''
  have hsound : Sound p k.shape (b :: k.blocks.erase b) :=
    hku.sound.perm (List.perm_cons_erase hmem')
  obtain ⟨hgiven, hlong⟩ := hsound.giveBack hbh hku.long
  have hlist' : FreeList u.mem (u.var .head) (giveBack b.span k.shape.free) 0 := by
    rw [hfree]
    refine later_freeList hlu rfl hnew fun q hq x h₁ h₂ => ?_
    obtain hstart | ⟨y, hy, hstart⟩ := exists_of_mem_giveBack hq
    · rw [hstart] at h₁ h₂
      exact (hspan x (contains_of_within (span_record b) h₁ h₂)).1
    · rw [hstart] at h₁ h₂
      exact (hk.node_entered hy (contains_of_within (node_record y) h₁ h₂)).1
  refine ⟨_, _, none, hku.left hheld hlist' hgiven hlong (fun _ _ => rfl) (fun _ hpg => hpg)
    (fun c hc => ?_) (fun c hc => ?_) (fun j c hj hc => ?_),
    done_of_rest ⟨hin.left rfl, hunlocked⟩ fun _ => rfl⟩
  · refine (List.mem_erase_of_ne ?_).mpr (hku.sub c hc)
    rintro rfl
    exact hlive hc
  · cases hc
  · refine ⟨(List.mem_erase_of_ne ?_).mpr (hku.inHand j c hc).1, by simp⟩
    rintro rfl
    exact hj (hku.unique j i c hc hhand'')

end Sections

end KmallocKfree
