import KmallocKfree.LargeRuns
import KmallocKfree.Sharing

/-!
# What each CPU has for itself

While calls run side by side, a ledger says whose the bytes of the heap are: a page belongs
to the CPU in whose list it is, but for the live blocks on it, which are the callers'; a
large block that a call hands out or takes back belongs to the CPU of the call; the nodes of
the free list belong to the CPU that holds the heap lock. A CPU that keeps to its own places
disturbs neither the others nor the lists. The links of the page headers are read by all.
-/
namespace KmallocKfree

open Prog Region Shape

structure Ledger where
  shape : Shape
  /-- The pages that the list of each CPU leads through. -/
  linked : ℕ → List ℕ
  /-- The blocks that are not free. -/
  blocks : List Block
  /-- The blocks that the callers own. -/
  live : List Block
  /-- The size that the call of a CPU asks for. -/
  asks : ℕ → Option ℕ
  /-- The block that the call of a CPU hands out or takes back. -/
  inHand : ℕ → Option Block
  /-- The CPU that holds the heap lock. -/
  holder : Option ℕ

/-- The links of the pages in the list `l`. -/
def LinkByte (l : List ℕ) (x : ℕ) : Prop := ∃ q ∈ l, q ≤ x ∧ x < q + 8

namespace Ledger

def PageByte (g : Ledger) (i x : ℕ) : Prop := ∃ pg ∈ g.shape.pagesOf i, pg.span.Contains x

def LiveByte (g : Ledger) (x : ℕ) : Prop := ∃ b ∈ g.live, b.region.Contains x

/-- The bytes that belong to CPU `i`. -/
def OwnByte (g : Ledger) (i x : ℕ) : Prop :=
  (g.PageByte i x ∧ ¬ g.LiveByte x) ∨
    (∃ b, g.inHand i = some b ∧ b.Huge ∧ b.span.Contains x) ∨
    (g.holder = some i ∧ ∃ r ∈ g.shape.free, r.node.Contains x)

/-- The places of CPU `i`. It writes no link of a page that is in its list. -/
def foot (g : Ledger) (i : ℕ) : Footprint Struct Global Lock where
  reads := g.OwnByte i
  writes x := g.OwnByte i x ∧ ¬ LinkByte (g.linked i) x
  derefs _ _ := True
  gets x := x = .pagehead i ∨ (x = .head ∧ g.holder = some i)
  sets x := x = .head ∧ g.holder = some i
  locks l := l = .pagelist i ∨ (l = .heapLock ∧ g.holder = some i)

/-- What the others leave CPU `i`; pages stay in the lists they are in. -/
structure Same (i : ℕ) (g h : Ledger) : Prop where
  pages : h.shape.pagesOf i = g.shape.pagesOf i
  linked : h.linked i = g.linked i
  asks : h.asks i = g.asks i
  inHand : h.inHand i = g.inHand i
  live : ∀ x, g.PageByte i x → (h.LiveByte x ↔ g.LiveByte x)
  holder : h.holder = some i ↔ g.holder = some i
  free : g.holder = some i → h.shape.free = g.shape.free
  known : ∀ k, ∀ q ∈ g.linked k, q ∈ h.linked k

theorem Same.refl (i : ℕ) (g : Ledger) : Same i g g :=
  ⟨rfl, rfl, rfl, rfl, fun _ _ => Iff.rfl, Iff.rfl, fun _ => rfl, fun _ _ hq => hq⟩

theorem Same.pageByte {i x : ℕ} {g h : Ledger} (hs : Same i g h) :
    h.PageByte i x ↔ g.PageByte i x := by
  unfold PageByte
  rw [hs.pages]

theorem Same.trans {i : ℕ} {g h k : Ledger} (h₁ : Same i g h) (h₂ : Same i h k) :
    Same i g k where
  pages := h₂.pages.trans h₁.pages
  linked := h₂.linked.trans h₁.linked
  asks := h₂.asks.trans h₁.asks
  inHand := h₂.inHand.trans h₁.inHand
  live x hx := (h₂.live x (h₁.pageByte.mpr hx)).trans (h₁.live x hx)
  holder := h₂.holder.trans h₁.holder
  free hg := (h₂.free (h₁.holder.mpr hg)).trans (h₁.free hg)
  known k q hq := h₂.known k q (h₁.known k q hq)

theorem Same.ownByte {i x : ℕ} {g h : Ledger} (hs : Same i g h) :
    h.OwnByte i x ↔ g.OwnByte i x := by
  unfold OwnByte
  rw [hs.pageByte, hs.inHand, hs.holder]
  refine or_congr (and_congr_right fun hx => not_congr (hs.live x hx)) (or_congr_right ?_)
  exact and_congr_right fun hg => by rw [hs.free hg]

theorem Same.foot {i : ℕ} {g h : Ledger} (hs : Same i g h) : h.foot i = g.foot i := by
  have hreads : h.OwnByte i = g.OwnByte i := funext fun x => propext hs.ownByte
  have hholder : (h.holder = some i) = (g.holder = some i) := propext hs.holder
  simp only [Ledger.foot, hreads, hs.linked, hholder]

end Ledger

/-- Only this operation of a CPU changes who holds the heap lock. -/
def Op.holder (i : ℕ) (o : Op Struct Global Lock) (holder : Option ℕ) : Option ℕ :=
  match o with
  | .acquire .heapLock => some i
  | .put .heapLock _ => none
  | _ => holder

/-- The operations of CPU `i`: at its own places, and those that the lists are for. -/
inductive Ledger.Admits (g : Ledger) (i : ℕ) : Op Struct Global Lock → Prop
  | own {o : Op Struct Global Lock} : (g.foot i).Allows o →
      (∀ l, o.Changes l → l = .pagelist i) → Admits g i o
  /-- The link of a page in any list. -/
  | link {k q : ℕ} : q ∈ g.linked k → Admits g i (.load .pageheader q 0 8)
  | pagehead {k : ℕ} : Admits g i (.get (.pagehead k))
  /-- A page joins the list. -/
  | publish {q : ℕ} : Admits g i (.set (.pagehead i) q)
  /-- The end of the list, where it ends already. -/
  | relink {q : ℕ} : (∀ x, q ≤ x → x < q + 8 → g.OwnByte i x) →
      Admits g i (.store .pageheader q 0 8 0)
  | enter : Admits g i (.acquire .heapLock)
  | leave : g.holder = some i → Admits g i (.put .heapLock 0)

/-- The store is as the ledger says. The pages themselves are the business of their CPUs. -/
structure Kept (p : Platform) (s : PmmState) (g : Ledger) : Prop where
  sound : Sound p g.shape g.blocks
  long : Long g.shape
  heap : g.holder = none → FreeList s.mem (s.var .head) g.shape.free 0
  released : s.lock .heapLock = 0 → g.holder = none
  lists : ∀ k < p.cpuCount, Path (nextAt s.mem) (s.var (.pagehead k)) (g.linked k) 0
  bases : ∀ k, ∀ q ∈ g.linked k, ∃ pg ∈ g.shape.pagesOf k, pg.base = q
  headers : ∀ b ∈ g.live, b.Huge → sizeAt s.mem b.span.start = b.size ∧
    wordAt s.mem b.span.start = toWord hugeMagic
  sub : ∀ b ∈ g.live, b ∈ g.blocks
  nodup : g.live.Nodup
  inHand : ∀ i b, g.inHand i = some b → b ∈ g.blocks ∧ b ∉ g.live
  unique : ∀ i j b, g.inHand i = some b → g.inHand j = some b → i = j

section Places

variable {p : Platform} {s t : PmmState} {g h : Ledger} {i j k q x : ℕ} {pg pg' : Page}
  {b c : Block} {r : Region} {sh : Shape} {blocks : List Block}

theorem Shape.Sound.pages_disj (hs : Sound p sh blocks) (hpg : pg ∈ sh.pages)
    (hpg' : pg' ∈ sh.pages) (hne : pg' ≠ pg) : pg.span.Disj pg'.span := by
  obtain ⟨P₁, P₂, hpages⟩ := List.append_of_mem hpg
  rw [hpages] at hpg'
  exact hs.page_page hpages (by simpa [hne] using hpg')

theorem Shape.Sound.spans_disj (hs : Sound p sh blocks) (hb : b ∈ blocks) (hc : c ∈ blocks)
    (hbh : b.Huge) (hch : c.Huge) (hne : c ≠ b) : b.span.Disj c.span :=
  (hs.large_apart hb hbh ((List.mem_erase_of_ne hne).mpr hc)).2 hch

namespace Kept

/-- The bytes of a node belong to the holder of the heap lock only. -/
theorem node_own (hk : Kept p s g) (hr : r ∈ g.shape.free) (hx : r.node.Contains x)
    (hown : g.OwnByte i x) : g.holder = some i := by
  obtain ⟨⟨pg, hpg, hin⟩, -⟩ | ⟨b, hb, hbh, hin⟩ | ⟨hi, -⟩ := hown
  · exact absurd hin ((hk.sound.free_page hr (mem_pagesOf.mp hpg).1).not_contains hx)
  · exact absurd hin ((hk.sound.free_huge hr (hk.inHand i b hb).1 hbh).not_contains hx)
  · exact hi

/-- The bytes of a page belong to its CPU only. -/
theorem page_own (hk : Kept p s g) (hx : g.PageByte j x) (hown : g.OwnByte i x) : i = j := by
  obtain ⟨pg, hpg, hin⟩ := hx
  obtain ⟨hmem, rfl⟩ := mem_pagesOf.mp hpg
  obtain ⟨⟨pg', hpg', hin'⟩, -⟩ | ⟨b, hb, hbh, hin'⟩ | ⟨-, r, hr, hin'⟩ := hown
  · obtain ⟨hmem', rfl⟩ := mem_pagesOf.mp hpg'
    by_contra hne
    have hpages : pg' ≠ pg := by
      rintro rfl
      exact hne rfl
    exact (hk.sound.pages_disj hmem hmem' hpages).not_contains hin hin'
  · exact absurd hin' ((hk.sound.page_huge hmem (hk.inHand i b hb).1 hbh).not_contains hin)
  · exact absurd hin ((hk.sound.free_page hr hmem).not_contains hin')

/-- The bytes of a large live block, and of its header, belong to no CPU. -/
theorem live_own (hk : Kept p s g) (hb : b ∈ g.live) (hbh : b.Huge) (hx : b.span.Contains x) :
    ¬ g.OwnByte i x := by
  have hmem := hk.sub b hb
  rintro (⟨⟨pg, hpg, hin⟩, -⟩ | ⟨c, hc, hch, hin⟩ | ⟨-, r, hr, hin⟩)
  · exact (hk.sound.page_huge (mem_pagesOf.mp hpg).1 hmem hbh).not_contains hin hx
  · have hne : c ≠ b := by
      rintro rfl
      exact (hk.inHand i c hc).2 hb
    exact (hk.sound.spans_disj hmem (hk.inHand i c hc).1 hbh hch hne).not_contains hx hin
  · exact (hk.sound.free_huge hr hmem hbh).not_contains hin hx

/-- A byte belongs to one CPU at most. -/
theorem own_unique (hk : Kept p s g) (hi : g.OwnByte i x) (hj : g.OwnByte j x) : i = j := by
  obtain ⟨hpage, -⟩ | ⟨b, hb, hbh, hin⟩ | ⟨hi', r, hr, hin⟩ := hi
  · exact (hk.page_own hpage hj).symm
  · obtain ⟨hpage, -⟩ | ⟨c, hc, hch, hin'⟩ | ⟨-, r, hr, hin'⟩ := hj
    · exact hk.page_own hpage (.inr (.inl ⟨b, hb, hbh, hin⟩))
    · by_contra hne
      have hcb : c ≠ b := by
        rintro rfl
        exact hne (hk.unique i j c hb hc)
      exact (hk.sound.spans_disj (hk.inHand i b hb).1 (hk.inHand j c hc).1 hbh hch
        hcb).not_contains hin hin'
    · exact absurd hin ((hk.sound.free_huge hr (hk.inHand i b hb).1 hbh).not_contains hin')
  · have hj' := hk.node_own hr hin hj
    rw [hi'] at hj'
    exact Option.some.inj hj'

/-- The links of the pages in the lists lie in their pages. -/
theorem link_page (hk : Kept p s g) (hx : LinkByte (g.linked k) x) : g.PageByte k x := by
  obtain ⟨q, hq, h₁, h₂⟩ := hx
  obtain ⟨pg, hpg, rfl⟩ := hk.bases k q hq
  refine ⟨pg, hpg, h₁, ?_⟩
  unfold Page.span Region.stop pageBytes
  simp only
  omega

/-- Changes at the places of one CPU are none for the others, and keep the lists. -/
theorem framed (hk : Kept p s g) (hf : Framed (g.foot i) s t)
    (hheap : t.lock .heapLock = s.lock .heapLock) :
    Kept p t g ∧ ∀ j, j ≠ i → Agree (g.foot j) s t := by
  have hmem : ∀ x, ¬ g.OwnByte i x → t.mem x = s.mem x := fun x hx => hf.mem x fun hw => hx hw.1
  have hhead : g.holder ≠ some i → t.var .head = s.var .head := fun hi =>
    hf.var _ fun hset => hi hset.2
  have hlink : ∀ k, ∀ q ∈ g.linked k, nextAt t.mem q = nextAt s.mem q := by
    intro k q hq
    unfold nextAt
    refine ByteMemory.load_congr fun x h₁ h₂ => hf.mem x fun hw => ?_
    have hlinked : LinkByte (g.linked k) x := ⟨q, hq, h₁, h₂⟩
    obtain rfl := hk.page_own (hk.link_page hlinked) hw.1
    exact hw.2 hlinked
  constructor
  · refine ⟨hk.sound, hk.long, fun hnone => ?_, fun hl => hk.released (hheap ▸ hl), fun k hk' => ?_,
      hk.bases, fun b hb hbh => ?_, hk.sub, hk.nodup, hk.inHand, hk.unique⟩
    · have hi : g.holder ≠ some i := by rw [hnone]; exact nofun
      rw [hhead hi]
      refine (hk.heap hnone).frame fun r hr x h₁ h₂ => hmem x fun hown => hi ?_
      exact hk.node_own hr (contains_of_within (node_record r) h₁ h₂) hown
    · rw [hf.var (.pagehead k) fun hset => nomatch hset.1]
      exact (hk.lists k hk').congr (hlink k)
    · have hsame : SameRecord s.mem t.mem b.span.start := fun x h₁ h₂ =>
        hmem x (hk.live_own hb hbh (contains_of_within (span_record b) h₁ h₂))
      rw [hsame.size, hsame.word]
      exact hk.headers b hb hbh
  · intro j hj
    refine ⟨fun x hx => hmem x fun hown => hj (hk.own_unique hx hown), ?_, ?_⟩
    · rintro _ (rfl | ⟨rfl, hholder⟩)
      · exact hf.var _ fun hset => nomatch hset.1
      · refine hhead fun hi => hj ?_
        rw [hholder] at hi
        exact Option.some.inj hi
    · rintro _ (rfl | ⟨rfl, -⟩)
      · refine hf.lock _ ?_
        rintro (heq | ⟨heq, -⟩)
        · exact hj (Lock.pagelist.inj heq)
        · cases heq
      · exact hheap

end Kept

/-- Other locks stay as they are. -/
theorem lock_of_run {o : Op Struct Global Lock} {l : Lock} {v : ℕ} (ho : ¬ o.Changes l)
    (hr : (o.run s : Except (Fault Check) (ℕ × PmmState)) = .ok (v, t)) : t.lock l = s.lock l := by
  cases o with
  | acquire m =>
    simp only [Op.run] at hr
    split_ifs at hr
    cases hr
    exact if_neg fun hl => ho hl.symm
  | put m w =>
    cases hr
    exact if_neg fun hl => ho hl.symm
  | load k q off n =>
    simp only [Op.run] at hr
    split_ifs at hr
    cases hr
    rfl
  | store k q off n w =>
    simp only [Op.run] at hr
    split_ifs at hr
    cases hr
    rfl
  | fill k q n =>
    simp only [Op.run] at hr
    split_ifs at hr
    cases hr
    rfl
  | get y =>
    cases hr
    rfl
  | set y w =>
    cases hr
    rfl
  | peek m =>
    cases hr
    rfl

end Places

/-- What an operation of CPU `i` does to the ledger: no page is taken from the CPU, and as long
as it holds the heap lock the free list is the one that it found. -/
structure Ledger.Moved (i : ℕ) (o : Op Struct Global Lock) (g h : Ledger) : Prop where
  holder : h.holder = o.holder i g.holder
  live : h.live = g.live
  asks : h.asks i = g.asks i
  pages : ∀ pg ∈ g.shape.pagesOf i, pg ∈ h.shape.pagesOf i
  free : h.holder = some i → h.shape.free = g.shape.free

/-- The agreement of the CPUs in `kalloc` and `kfree`. A large request finds room for its
header when it takes the heap lock, and what a page leaves of its node holds a record. -/
def pmmSharing (p : Platform) : Sharing Struct Global Lock Check Ledger where
  whole := Kept p
  same := Ledger.Same
  foot i g := g.foot i
  own i l := l = .pagelist i
  admits i o g := g.Admits i o
  assumes i o s g := o = .acquire .heapLock → ∀ n, g.asks i = some n →
    HeaderFits s n ∧ (n ≤ 16384 → RemainderFits s)
  moves := Ledger.Moved
  same_refl := Ledger.Same.refl
  same_trans := Ledger.Same.trans
  foot_same := Ledger.Same.foot
  admits_own := .own
  moves_own := by
    intro i g o hown
    refine ⟨?_, rfl, rfl, fun _ hpg => hpg, fun _ => rfl⟩
    unfold Op.holder
    split
    · cases hown .heapLock rfl
    · cases hown .heapLock rfl
    · rfl
  keeps hk ho hown hr := hk.framed (framed_run ho hr)
    (lock_of_run (fun hl => nomatch hown _ hl) hr)

end KmallocKfree
