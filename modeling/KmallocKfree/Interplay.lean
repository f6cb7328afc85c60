import KmallocKfree.Linearizability
import KmallocKfree.SharedKfree

/-!
# Any calls side by side

The machine of the locks again, with requests of all sizes. Beside the calls and the blocks of
the callers it keeps the store in which the heap lock was last taken, and the pages that each
CPU has worked on since it last took the lock of its page list.

As long as no CPU gives back a small block of another CPU's page, or one that a page header is
merged with, and requests find room for their headers, a ledger goes with every state: each CPU
keeps to its own places.
-/
namespace KmallocKfree

open Prog Region Shape Sharing

structure Interplay where
  config : Config Struct Global Lock Check ℕ
  /-- The call that each CPU is in. -/
  call : ℕ → Option Call
  /-- The blocks that the callers own. -/
  live : List Block
  /-- The store in which the heap lock was last taken. -/
  entry : PmmState
  /-- The pages that each CPU has worked on since it last took the lock of a page list. -/
  met : ℕ → ℕ → Prop

/-- The operation touches the page at `q`, and does not only read the link of its header. -/
def Op.WorksOn (q : ℕ) (o : Op Struct Global Lock) : Prop :=
  o ≠ .load .pageheader q 0 8 ∧ ∃ x, o.Touches x ∧ q ≤ x ∧ x < q + pageBytes

/-- The store in which the heap lock was last taken, after the operation in store `s`. -/
def Op.entry (s entry : PmmState) : Op Struct Global Lock → PmmState
  | .acquire .heapLock => s
  | _ => entry

/-- The pages that a CPU has worked on, after the operation in store `s`. -/
def Op.met (p : Platform) (s : PmmState) (met : ℕ → Prop) : Op Struct Global Lock → ℕ → Prop
  | .acquire (.pagelist _), _ => False
  | o, q => met q ∨ (IsPageHeader p s q ∧ o.WorksOn q)

namespace Interplay

/-- An owner stores a byte. -/
def store (s : Interplay) (addr : ℕ) (v : UInt8) : PmmState :=
  s.config.store.setMem fun x => if x = addr then v else s.config.store.mem x

/-- CPU `i` starts a call, which leaves the callers the blocks `live`. -/
def start (p : Platform) (s : Interplay) (i : ℕ) (c : Call) (live : List Block) : Interplay where
  config := s.config.update i s.config.store ⟨some (c.run p i), (s.config.thread i).held⟩
  call := Function.update s.call i (some c)
  live := live
  entry := s.entry
  met := s.met

/-- CPU `i` performs the operation, which leads to `c`. -/
def perform (p : Platform) (s : Interplay) (i : ℕ) (o : Op Struct Global Lock)
    (c : Config Struct Global Lock Check ℕ) : Interplay where
  config := c
  call := s.call
  live := s.live
  entry := o.entry s.config.store s.entry
  met := Function.update s.met i (o.met p s.config.store (s.met i))

/-- The call of CPU `i` returns `a`. -/
def finish (s : Interplay) (i : ℕ) (c : Call) (a : ℕ) : Interplay where
  config := s.config.update i s.config.store ⟨none, (s.config.thread i).held⟩
  call := Function.update s.call i none
  live := c.returned a s.live
  entry := s.entry
  met := s.met

theorem start_self {p : Platform} {s : Interplay} {i : ℕ} {c : Call} {live : List Block} :
    (s.start p i c live).config.thread i = ⟨some (c.run p i), (s.config.thread i).held⟩ :=
  Config.update_self _ _ _

theorem start_other {p : Platform} {s : Interplay} {i j : ℕ} {c : Call} {live : List Block}
    (h : j ≠ i) : (s.start p i c live).config.thread j = s.config.thread j :=
  Config.update_other h _ _

end Interplay

/-- Requests of any size, and calls of `kfree` for blocks of theirs. -/
inductive InterplayStep (p : Platform) : Interplay → SessionEvent → Interplay → Prop
  | alloc {s : Interplay} {i n : ℕ} : i < p.cpuCount → (s.config.thread i).code = none →
      InterplayStep p s (.call i (.alloc n)) (s.start p i (.alloc n) s.live)
  /-- The caller gives the block away with the call. -/
  | free {s : Interplay} {i : ℕ} {b : Block} : i < p.cpuCount → (s.config.thread i).code = none →
      b ∈ s.live →
      InterplayStep p s (.call i (.free b.addr)) (s.start p i (.free b.addr) (s.live.erase b))
  | enter {s : Interplay} {i : ℕ} {k : ℕ → Code ℕ} {c : Config Struct Global Lock Check ℕ} :
      (s.config.thread i).code = some (.op (.acquire .heapLock) k) → Moves i s.config c →
      InterplayStep p s (.enter i) (s.perform p i (.acquire .heapLock) c)
  | move {s : Interplay} {i : ℕ} {o : Op Struct Global Lock} {k : ℕ → Code ℕ}
      {c : Config Struct Global Lock Check ℕ} : (s.config.thread i).code = some (.op o k) →
      o ≠ .acquire .heapLock → Moves i s.config c →
      InterplayStep p s (.move i) (s.perform p i o c)
  /-- A loop that never ends goes round. -/
  | loop {s : Interplay} {i : ℕ} : (s.config.thread i).code = some (.fail .divergence) →
      InterplayStep p s (.move i) s
  | finish {s : Interplay} {i a : ℕ} {c : Call} : s.call i = some c →
      (s.config.thread i).code = some (.ret a) → InterplayStep p s (.finish i) (s.finish i c a)
  | spin {s : Interplay} {i : ℕ} {l : Lock} : Waits s.config i l →
      InterplayStep p s (.spin i)
        { s with config := ⟨s.config.store.setLock l 1, s.config.thread⟩ }
  /-- An owner writes a byte of its block. -/
  | write {s : Interplay} {b : Block} {addr : ℕ} {v : UInt8} : b ∈ s.live →
      b.region.Contains addr →
      InterplayStep p s (.write addr v)
        { s with config := ⟨s.store addr v, s.config.thread⟩ }

/-- The machine starts after `pmm_init`. -/
def interplay (p : Platform) : Machine Interplay SessionEvent where
  init s := Booted p ⟨s.config.store, []⟩ ∧ (∀ i, s.config.thread i = ⟨none, []⟩) ∧
    s.live = [] ∧ ∀ i q, ¬ s.met i q
  step := InterplayStep p

/-- A small block that is given back lies on a page in the caller's own list and no page header
is merged with it; and a request finds room for its header when it takes the heap lock. -/
def StaysApart (p : Platform) (s : Interplay) : SessionEvent → Prop
  | .call i (.free ptr) => ∀ b ∈ s.live, b.addr = ptr → ¬ b.Huge →
      (∃ q ∈ pageHeaders s.config.store i, InSpan q ptr) ∧ ¬ MergesPageHeader p s.config.store ptr
  | .enter i => ∀ n, s.call i = some (.alloc n) →
      HeaderFits s.config.store n ∧ (n ≤ 16384 → RemainderFits s.config.store)
  | _ => True

/-- The machine of the locks makes the same steps. -/
theorem InterplayStep.concurrent {p : Platform} {s s' : Interplay} {e : SessionEvent}
    (h : InterplayStep p s e s') : ∃ e', (pmmMachine p).step s.config e' s'.config := by
  cases h with
  | alloc hi hidle => exact ⟨_, .call ⟨hi, _, rfl⟩ hidle⟩
  | free hi hidle _ => exact ⟨_, .call ⟨hi, _, rfl⟩ hidle⟩
  | enter _ hm => exact ⟨_, .move hm⟩
  | move _ _ hm => exact ⟨_, .move hm⟩
  | loop hcode => exact ⟨_, .move (.loop hcode)⟩
  | finish _ hcode => exact ⟨_, .move (.finish hcode)⟩
  | spin hw => exact ⟨_, .spin hw⟩
  | write _ _ => exact ⟨_, .write _⟩

theorem interplay_config {p : Platform} {C : Interplay → SessionEvent → Prop} {s : Interplay}
    (h : (interplay p).Reach C s) : (pmmMachine p).Reach (fun _ _ => True) s.config := by
  induction h with
  | init h =>
    obtain ⟨hboot, hidle, -⟩ := h
    exact .init ⟨hboot.fresh.1.unlocked, hidle⟩
  | step e _ _ hstep ih =>
    obtain ⟨e', hstep⟩ := hstep.concurrent
    exact ih.step e' trivial hstep

/-- CPU `i` goes on with `q` in its call `c`, whatever the others do meanwhile. -/
structure Busy (p : Platform) (i : ℕ) (c : Call) (q : Code ℕ) (t : PmmState) (g : Ledger) :
    Prop where
  cpu : i < p.cpuCount
  asks : ∀ n, g.asks i = some n ↔ c = .alloc n
  safe : (pmmSharing p).Safe i q t g ((pmmSharing p).Finally i (Done p i c))

/-- The ledger goes with the state. -/
structure Interplay.Booked (p : Platform) (s : Interplay) (g : Ledger) : Prop where
  kept : Kept p s.config.store g
  live : g.live = s.live
  holder : ∀ i, g.holder = some i ↔ .heapLock ∈ (s.config.thread i).held
  entry : g.holder ≠ none → FreeList s.entry.mem (s.entry.var .head) g.shape.free 0
  met : ∀ i q, .pagelist i ∈ (s.config.thread i).held → s.met i q →
    ∃ pg ∈ g.shape.pagesOf i, pg.base = q
  idle : ∀ i < p.cpuCount, (s.config.thread i).code = none → Rest i s.config.store g
  busy : ∀ i q, (s.config.thread i).code = some q → ∃ c, s.call i = some c ∧
    Busy p i c q s.config.store g

section Init

variable {p : Platform} {s : Interplay}

def Ledger.boot (p : Platform) : Ledger where
  shape := bootShape p
  linked := fun _ => []
  blocks := []
  live := []
  asks := fun _ => none
  inHand := fun _ => none
  holder := none

theorem booked_init (hlen : (headerBytes : ℤ) ≤ p.recorded) (h : (interplay p).init s) :
    s.Booked p (.boot p) := by
  obtain ⟨hboot, hidle, hlive, hmet⟩ := h
  have hlen' : (16 : ℤ) ≤ p.recorded := hlen
  have hfresh : Fresh p s.config.store := hboot.fresh.1
  have hinv := hfresh.inv (by omega)
  refine ⟨⟨hinv.sound, fun r hr => ?_, fun _ => hinv.holds.heap, fun _ => rfl,
    hfresh.pages, ?_, ?_, ?_, List.nodup_nil, ?_, ?_⟩, hlive.symm, fun i => ?_, fun hne => ?_,
    fun i q _ hq => absurd hq (hmet i q), fun i hi _ => ?_, fun i q hq => ?_⟩
  · obtain rfl := List.mem_singleton.mp hr
    change 16 ≤ p.recorded.toNat
    omega
  · intro k q hq
    cases hq
  · intro b hb
    cases hb
  · intro b hb
    cases hb
  · intro i b hb
    cases hb
  · intro i j b hb
    cases hb
  · rw [hidle]
    constructor
    · intro hi
      cases hi
    · intro hi
      cases hi
  · exact absurd rfl hne
  · refine ⟨⟨⟨fun pg hpg => ?_, rfl⟩, fun hi => ?_⟩, hfresh.unlocked.2 i hi⟩
    · cases hpg
    · cases hi
  · rw [hidle] at hq
    cases hq

end Init

section Others

variable {p : Platform} {s s' : Interplay} {g h : Ledger} {t : PmmState} {i j : ℕ} {c : Call}
  {q : Code ℕ}

theorem Busy.later (hb : Busy p i c q t g) {u : PmmState} (hl : (pmmSharing p).Later i t g u h) :
    Busy p i c q u h where
  cpu := hb.cpu
  asks n := by
    rw [hl.same.asks]
    exact hb.asks n
  safe := hb.safe.later (stable_finally _) hl

/-- The pages of a CPU stay its own. -/
theorem Interplay.Booked.met_of (hs : s.Booked p g) (hpages : ∀ pg ∈ g.shape.pagesOf i,
    pg ∈ h.shape.pagesOf i) {x : ℕ} (hheld : .pagelist i ∈ (s.config.thread i).held)
    (hx : s.met i x) : ∃ pg ∈ h.shape.pagesOf i, pg.base = x := by
  obtain ⟨pg, hpg, rfl⟩ := hs.met i x hheld hx
  exact ⟨pg, hpages pg hpg, rfl⟩

/-- A step of CPU `i`, which the others do not notice. -/
theorem Interplay.Booked.update (hs : s.Booked p g) (hk : Kept p s'.config.store h)
    (hothers : ∀ j, j ≠ i → (pmmSharing p).Later j s.config.store g s'.config.store h)
    (hthread : ∀ j, j ≠ i → s'.config.thread j = s.config.thread j)
    (hcall : ∀ j, j ≠ i → s'.call j = s.call j) (hlive : h.live = s'.live)
    (hholder : h.holder = some i ↔ .heapLock ∈ (s'.config.thread i).held)
    (hentry : h.holder ≠ some i → s'.entry = s.entry)
    (hentered : h.holder = some i → FreeList s'.entry.mem (s'.entry.var .head) h.shape.free 0)
    (hmet : ∀ j, j ≠ i → s'.met j = s.met j)
    (hmet' : ∀ x, .pagelist i ∈ (s'.config.thread i).held → s'.met i x →
      ∃ pg ∈ h.shape.pagesOf i, pg.base = x)
    (hidle : i < p.cpuCount → (s'.config.thread i).code = none → Rest i s'.config.store h)
    (hbusy : ∀ q, (s'.config.thread i).code = some q → ∃ c, s'.call i = some c ∧
      Busy p i c q s'.config.store h) : s'.Booked p h where
  kept := hk
  live := hlive
  holder j := by
    by_cases hj : j = i
    · rw [hj]
      exact hholder
    · rw [hthread j hj, (hothers j hj).same.holder]
      exact hs.holder j
  entry hne := by
    obtain ⟨j, hj⟩ := Option.ne_none_iff_exists'.mp hne
    by_cases hji : j = i
    · exact hentered (hji ▸ hj)
    · have hl := (hothers j hji).same
      rw [hentry (by rw [hj]; exact fun heq => hji (Option.some.inj heq)),
        hl.free (hl.holder.mp hj)]
      refine hs.entry ?_
      rw [hl.holder.mp hj]
      exact Option.some_ne_none j
  met j x hheld hx := by
    by_cases hj : j = i
    · subst hj
      exact hmet' x hheld hx
    · rw [hthread j hj] at hheld
      rw [hmet j hj] at hx
      refine hs.met_of (fun pg hpg => ?_) hheld hx
      rwa [(hothers j hj).same.pages]
  idle j hcpu hcode := by
    by_cases hj : j = i
    · subst hj
      exact hidle hcpu hcode
    · rw [hthread j hj] at hcode
      exact (hs.idle j hcpu hcode).later hk (hothers j hj)
  busy j q hcode := by
    by_cases hj : j = i
    · subst hj
      exact hbusy q hcode
    · rw [hthread j hj] at hcode
      obtain ⟨c, hc, hb⟩ := hs.busy j q hcode
      exact ⟨c, (hcall j hj).trans hc, hb.later (hothers j hj)⟩

/-- A change of the store that no CPU notices. -/
theorem Interplay.Booked.restore (hs : s.Booked p g) (hk : Kept p t g)
    (hagree : ∀ j, Agree (g.foot j) s.config.store t) :
    Interplay.Booked p { s with config := ⟨t, s.config.thread⟩ } g := by
  have hl : ∀ j, (pmmSharing p).Later j s.config.store g t g := fun j =>
    ⟨Ledger.Same.refl j g, hagree j⟩
  refine ⟨hk, hs.live, hs.holder, hs.entry, hs.met, fun j hj hcode =>
    (hs.idle j hj hcode).later hk (hl j), fun j q hcode => ?_⟩
  obtain ⟨c, hc, hb⟩ := hs.busy j q hcode
  exact ⟨c, hc, hb.later (hl j)⟩

end Others

namespace Ledger

/-- CPU `i` asks for `n` bytes. -/
def asking (g : Ledger) (i n : ℕ) : Ledger :=
  { g with asks := Function.update g.asks i (some n) }

/-- CPU `i` is to free the block `b`. -/
def freeing (g : Ledger) (i : ℕ) (b : Block) : Ledger :=
  { g with
    live := g.live.erase b
    asks := Function.update g.asks i none
    inHand := Function.update g.inHand i (some b) }

end Ledger

section Calls

variable {p : Platform} {s : PmmState} {g : Ledger} {i j n : ℕ} {b : Block}

theorem Kept.asking (hk : Kept p s g) (i n : ℕ) : Kept p s (g.asking i n) ∧ ∀ j, j ≠ i →
    (pmmSharing p).Later j s g s (g.asking i n) := by
  refine ⟨⟨hk.sound, hk.long, hk.heap, hk.released, hk.lists, hk.bases, hk.headers, hk.sub,
    hk.nodup, hk.inHand, hk.unique⟩, fun j hj => ⟨?_, .refl _ s⟩⟩
  exact ⟨rfl, rfl, Function.update_of_ne hj _ _, rfl, fun _ _ => Iff.rfl, Iff.rfl, fun _ => rfl,
    fun _ _ hq => hq⟩

theorem Kept.freeing (hk : Kept p s g) (hb : b ∈ g.live)
    (hpage : ¬ b.Huge → ∃ pg ∈ g.shape.pagesOf i, Houses pg b) :
    Kept p s (g.freeing i b) ∧ ∀ j, j ≠ i → (pmmSharing p).Later j s g s (g.freeing i b) := by
  have hsub : ∀ c ∈ g.live.erase b, c ∈ g.live := fun c hc => List.mem_of_mem_erase hc
  have hself : (g.freeing i b).inHand i = some b := Function.update_self _ _ _
  have hother : ∀ j, j ≠ i → (g.freeing i b).inHand j = g.inHand j := fun j hj =>
    Function.update_of_ne hj _ _
  constructor
  · refine ⟨hk.sound, hk.long, hk.heap, hk.released, hk.lists, hk.bases, fun c hc =>
      hk.headers c (hsub c hc), fun c hc => hk.sub c (hsub c hc), hk.nodup.erase b,
      fun j c hc => ?_, fun j j' c hc hc' => ?_⟩
    · by_cases hj : j = i
      · subst hj
        rw [hself] at hc
        cases hc
        exact ⟨hk.sub b hb, hk.nodup.not_mem_erase⟩
      · rw [hother j hj] at hc
        obtain ⟨hc, hlive⟩ := hk.inHand j c hc
        exact ⟨hc, fun hmem => hlive (hsub c hmem)⟩
    · -- no other CPU has the block in its hands, since its caller owned it
      by_cases hj : j = i <;> by_cases hj' : j' = i
      · rw [hj, hj']
      · subst hj
        rw [hself] at hc
        rw [hother j' hj'] at hc'
        cases hc
        exact absurd hb (hk.inHand j' b hc').2
      · subst hj'
        rw [hself] at hc'
        rw [hother j hj] at hc
        cases hc'
        exact absurd hb (hk.inHand j b hc).2
      · rw [hother j hj] at hc
        rw [hother j' hj'] at hc'
        exact hk.unique j j' c hc hc'
  · intro j hj
    refine ⟨⟨rfl, rfl, Function.update_of_ne hj _ _, hother j hj, fun x hx => ?_, Iff.rfl,
      fun _ => rfl, fun _ _ hq => hq⟩, .refl _ s⟩
    obtain ⟨pg, hpg, hpx⟩ := hx
    obtain ⟨hmem, howner⟩ := mem_pagesOf.mp hpg
    have hbx : ¬ b.region.Contains x := by
      intro hbx
      by_cases hbh : b.Huge
      · obtain ⟨-, haddr, -⟩ := hk.sound.huge b (hk.sub b hb) hbh
        have hin : b.region.Within b.span := Block.region_within_span (by omega)
        exact (hk.sound.page_huge hmem (hk.sub b hb) hbh).not_contains hpx (hin.contains hbx)
      · obtain ⟨pg', hpg', hhouse⟩ := hpage hbh
        obtain ⟨hmem', howner'⟩ := mem_pagesOf.mp hpg'
        have hne : pg' ≠ pg := by
          rintro rfl
          exact hj (howner.symm.trans howner')
        exact (hk.sound.pages_disj hmem hmem' hne).not_contains hpx (hhouse.within.contains hbx)
    constructor
    · rintro ⟨c, hc, hcx⟩
      exact ⟨c, hsub c hc, hcx⟩
    · rintro ⟨c, hc, hcx⟩
      refine ⟨c, (List.mem_erase_of_ne ?_).mpr hc, hcx⟩
      rintro rfl
      exact hbx hcx

/-- The list of a CPU at rest, as the code sees it. -/
theorem Settled.pageHeaders_eq (hr : Settled i s g) (hk : Kept p s g) (hi : i < p.cpuCount) :
    pageHeaders s i = (g.shape.pagesOf i).map Page.base :=
  hk.sound.pageHeaders_eq (hr.linked ▸ hk.lists i hi)

theorem Settled.house (hr : Settled i s g) (hk : Kept p s g) (hi : i < p.cpuCount)
    (hb : b ∈ g.blocks) (hsmall : ¬ b.Huge) (hin : ∃ q ∈ pageHeaders s i, InSpan q b.addr) :
    ∃ pg ∈ g.shape.pagesOf i, Houses pg b := by
  obtain ⟨q, hq, hspan⟩ := hin
  rw [hr.pageHeaders_eq hk hi] at hq
  obtain ⟨pg, hpg, rfl⟩ := List.mem_map.mp hq
  obtain ⟨pg', hpg', hhouse⟩ := hk.sound.small b hb hsmall
  obtain rfl := hk.sound.inPage_unique (mem_pagesOf.mp hpg).1 hpg' hspan (hhouse.inPage hsmall)
  exact ⟨_, hpg, hhouse⟩

/-- A CPU at rest may free the small block in its hands when no page header is merged with it. -/
theorem Rest.freeing (hr : Rest i s g) (hk : Kept p s g) (hi : i < p.cpuCount)
    (hhand : g.inHand i = some b) (hsmall : ¬ b.Huge) {pg : Page} (hpg : pg ∈ g.shape.pagesOf i)
    (hhouse : Houses pg b) (hclean : ¬ MergesPageHeader p s b.addr) :
    ∃ T, Freeing i pg b T s g := by
  obtain ⟨hmem, howner⟩ := mem_pagesOf.mp hpg
  have hb := (hk.inHand i b hhand).1
  obtain ⟨P₁, P₂, hpages⟩ := List.append_of_mem hmem
  have hpath := hk.lists i hi
  rw [hr.linked, ← howner] at hpath
  obtain ⟨T, hT⟩ := exists_walkOn hmem hpath
  have hheads : ∀ y ∈ g.shape.pagesOf pg.owner, y.base ∈ pageHeaders s pg.owner := by
    rw [howner, hr.pageHeaders_eq hk hi]
    exact fun y hy => List.mem_map_of_mem hy
  obtain ⟨hbelow, habove⟩ := walkOn_clean hk.sound (hr.pages pg hpg) hheads hb hsmall hpages
    hhouse hT hclean
  exact ⟨T,
    { hr with
      hand := hhand
      small := hsmall
      mem := hpg
      house := hhouse
      path := hT.path
      sublist := howner ▸ hT.sublist
      below := hbelow
      above := habove }⟩

end Calls

namespace Interplay

section Steps

variable {p : Platform} {s : Interplay} {g : Ledger} {i n : ℕ} {b : Block}

/-- A CPU starts a call. -/
theorem Booked.start {c : Call} {h : Ledger} {live : List Block} (hs : s.Booked p g)
    (hord : Orderly (pmmLocks p) s.config) (hi : i < p.cpuCount)
    (hidle : (s.config.thread i).code = none) (hk : Kept p s.config.store h ∧ ∀ j, j ≠ i →
      (pmmSharing p).Later j s.config.store g s.config.store h) (hlive : h.live = live)
    (hholder : h.holder = g.holder) (hasks : ∀ n, h.asks i = some n ↔ c = .alloc n)
    (hsafe : (pmmSharing p).Proceeds i (c.run p i) s.config.store h (Done p i c)) :
    (s.start p i c live).Booked p h := by
  have hself : (s.start p i c live).config.thread i = _ := start_self
  have hheld : (s.config.thread i).held = [] := hord.idle i hidle
  have hout : h.holder ≠ some i := by
    rw [hholder]
    exact (hs.idle i hi hidle).outside
  refine hs.update hk.1 hk.2 (fun j hj => Config.update_other hj _ _)
    (fun j hj => Function.update_of_ne hj _ _) hlive ?_ (fun _ => rfl) (fun hi => absurd hi hout)
    (fun _ _ => rfl) (fun x hx => ?_) (fun _ hnone => ?_) fun q hq => ?_
  · rw [hself, hheld]
    exact ⟨fun hi => absurd hi hout, fun hmem => absurd hmem List.not_mem_nil⟩
  · rw [hself, hheld] at hx
    exact absurd hx List.not_mem_nil
  · rw [hself] at hnone
    cases hnone
  · rw [hself] at hq
    cases hq
    exact ⟨c, Function.update_self _ _ _, hi, hasks, hsafe _ _ (.refl _ i _ _)⟩

theorem Booked.alloc (hs : s.Booked p g) (hord : Orderly (pmmLocks p) s.config)
    (hi : i < p.cpuCount) (hidle : (s.config.thread i).code = none) (n : ℕ) :
    (s.start p i (.alloc n) s.live).Booked p (g.asking i n) := by
  have hr := hs.idle i hi hidle
  have hasks : (g.asking i n).asks i = some n := Function.update_self _ _ _
  refine hs.start hord hi hidle (hs.kept.asking i n) hs.live rfl (fun m => ?_) ?_
  · rw [hasks]
    simp
  · exact proceeds_kalloc ⟨⟨⟨hr.pages, hr.linked⟩, hr.outside⟩, hr.unlocked⟩ hi hasks

/-- What `kfree` proceeds to, its call does. -/
theorem proceeds_free {t : PmmState} {ptr : ℕ} (h : (pmmSharing p).Proceeds i (kfree p i ptr) t g
      fun _ => Done p i (.free ptr) 0) :
    (pmmSharing p).Proceeds i ((Call.free ptr).run p i) t g (Done p i (.free ptr)) := by
  refine proceeds_bind ((h t g (.refl _ i t g)).mono fun _ u k hdone => ?_)
  exact proceeds_ret hdone

theorem Booked.free (hs : s.Booked p g) (hord : Orderly (pmmLocks p) s.config)
    (hi : i < p.cpuCount) (hidle : (s.config.thread i).code = none) (hb : b ∈ s.live)
    (hapart : StaysApart p s (.call i (.free b.addr))) :
    (s.start p i (.free b.addr) (s.live.erase b)).Booked p (g.freeing i b) := by
  have hr := hs.idle i hi hidle
  rw [← hs.live] at hb
  have hmem := hs.kept.sub b hb
  have hpage : ¬ b.Huge → ∃ pg ∈ g.shape.pagesOf i, Houses pg b := fun hsmall =>
    hr.house hs.kept hi hmem hsmall (hapart b (hs.live ▸ hb) rfl hsmall).1
  have hk := hs.kept.freeing hb hpage
  have hhand : (g.freeing i b).inHand i = some b := Function.update_self _ _ _
  have hr' : Rest i s.config.store (g.freeing i b) :=
    ⟨⟨⟨hr.pages, hr.linked⟩, hr.outside⟩, hr.unlocked⟩
  refine hs.start hord hi hidle hk (congrArg (·.erase b) hs.live) rfl (fun m => ?_)
    (proceeds_free ?_)
  · simp [Ledger.freeing]
  · by_cases hbh : b.Huge
    · obtain ⟨hsize, hmagic⟩ := hs.kept.headers b hb hbh
      exact proceeds_kfree_large hr' hhand hbh hsize hmagic
    · obtain ⟨pg, hpg, hhouse⟩ := hpage hbh
      obtain ⟨T, hf⟩ := hr'.freeing hk.1 hi hhand hbh hpg hhouse
        (hapart b (hs.live ▸ hb) rfl hbh).2
      exact proceeds_kfree_small hf hi

end Steps

end Interplay

section Bytes

variable {p : Platform} {s : PmmState} {g : Ledger} {i x q : ℕ} {b : Block}
  {o : Op Struct Global Lock}

/-- The bytes of the callers' blocks belong to no CPU. -/
theorem Kept.not_own_of_live (hk : Kept p s g) (hb : b ∈ g.live) (hx : b.region.Contains x) :
    ¬ g.OwnByte i x := by
  have hmem := hk.sub b hb
  rintro (⟨-, hlive⟩ | ⟨c, hc, hch, hin⟩ | ⟨-, r, hr, hin⟩)
  · exact hlive ⟨b, hb, hx⟩
  · have hne : b ≠ c := by
      rintro rfl
      exact (hk.inHand i b hc).2 hb
    have hcmem := (hk.inHand i c hc).1
    have hsound : Sound p g.shape (c :: g.blocks.erase c) :=
      hk.sound.perm (List.perm_cons_erase hcmem)
    have hd : c.span.Disj b.region := (hsound.sublist (List.sublist_cons_self _ _)).disj_all
      (fun pg hpg => (hk.sound.page_huge hpg hcmem hch).symm)
      (fun d hd hdh => hsound.huge_huge hch hd hdh) ((List.mem_erase_of_ne hne).mpr hmem)
    exact hd.not_contains hin hx
  · have hd := hk.sound.disj_all (x := r.node) (fun pg hpg => hk.sound.free_page hr hpg)
      (fun c hc hch => hk.sound.free_huge hr hc hch) hmem
    exact hd.not_contains hin hx

/-- A byte of a live block is no business of the allocator's. -/
theorem Kept.setByte (hk : Kept p s g) (hb : b ∈ g.live) (hx : b.region.Contains x) (v : UInt8) :
    Kept p (s.setMem fun y => if y = x then v else s.mem y) g ∧
      ∀ i, Agree (g.foot i) s (s.setMem fun y => if y = x then v else s.mem y) := by
  have hmem := hk.sub b hb
  have hsame : ∀ q, Disj ⟨q, headerBytes⟩ b.region →
      SameRecord s.mem (fun y => if y = x then v else s.mem y) q := by
    intro q hd y h₁ h₂
    refine if_neg ?_
    rintro rfl
    exact hd.not_contains ⟨h₁, h₂⟩ hx
  constructor
  · refine ⟨hk.sound, hk.long, fun hnone => (hk.heap hnone).frame fun r hr => hsame _ ?_,
      hk.released, fun k hk' => (hk.lists k hk').congr fun q hq => ?_, hk.bases,
      fun c hc hch => ?_, hk.sub, hk.nodup, hk.inHand, hk.unique⟩
    · have hd := hk.sound.disj_all (x := r.node) (fun pg hpg => hk.sound.free_page hr hpg)
        (fun c hc hch => hk.sound.free_huge hr hc hch) hmem
      exact hd.mono (node_record r)
    · obtain ⟨pg, hpg, rfl⟩ := hk.bases k q hq
      obtain ⟨P₁, P₂, hpages⟩ := List.append_of_mem (mem_pagesOf.mp hpg).1
      exact (hsame _ (hk.sound.header_clear hpages b hmem)).next
    · have hrec := hsame _ (hk.sound.huge_header_clear (hk.sub c hc) hch hmem)
      obtain ⟨hsize, hmagic⟩ := hk.headers c hc hch
      exact ⟨hrec.size.trans hsize, hrec.word.trans hmagic⟩
  · intro i
    refine ⟨fun y hy => if_neg ?_, fun _ _ => rfl, fun _ _ => rfl⟩
    rintro rfl
    exact hk.not_own_of_live hb hx hy

/-- An admitted operation touches bytes of its CPU, or it reads a link in a page list. -/
theorem Ledger.Admits.touched (ho : g.Admits i o) (hx : o.Touches x) :
    g.OwnByte i x ∨ ∃ k q, q ∈ g.linked k ∧ o = .load .pageheader q 0 8 := by
  cases ho with
  | own hallow hown =>
    left
    cases o with
    | load k q off n => exact hallow.2 x hx.1 hx.2
    | store k q off n v => exact (hallow.2 x hx.1 hx.2).1
    | fill k q n => exact (hallow.2 x hx.1 hx.2).1
    | acquire l => exact hx.elim
    | peek l => exact hx.elim
    | put l v => exact hx.elim
    | get y => exact hx.elim
    | set y v => exact hx.elim
  | link hq => exact .inr ⟨_, _, hq, rfl⟩
  | relink hown => exact .inl (hown x hx.1 hx.2)
  | pagehead => exact hx.elim
  | publish => exact hx.elim
  | enter => exact hx.elim
  | leave => exact hx.elim

/-- Without the heap lock a CPU touches no node of the free list. -/
theorem Kept.node_untouched (hk : Kept p s g) (ho : g.Admits i o) (hout : g.holder ≠ some i)
    {r : Region} (hr : r ∈ g.shape.free) (hx : r.node.Contains x) : ¬ o.Touches x := by
  intro htouch
  obtain hown | ⟨k, q, hq, rfl⟩ := ho.touched htouch
  · exact hout (hk.node_own hr hx hown)
  · obtain ⟨pg, hpg, hin⟩ := hk.link_page ⟨q, hq, htouch⟩
    exact (hk.sound.free_page hr (mem_pagesOf.mp hpg).1).not_contains hx hin

/-- What the links lead to lies on the path. -/
theorem Path.mem_of_follow {f : ℕ → ℕ} {a y n : ℕ} {l : List ℕ} (h : Path f a l 0)
    (hy : y ∈ follow f n a) : y ∈ l := by
  induction n generalizing a l with
  | zero => exact absurd hy List.not_mem_nil
  | succ n ih =>
    cases l with
    | nil =>
      obtain rfl : a = 0 := h
      exact absurd hy List.not_mem_nil
    | cons z l =>
      obtain ⟨rfl, h⟩ := h
      rw [follow] at hy
      split_ifs at hy with hzero
      · exact absurd hy List.not_mem_nil
      · obtain rfl | hy := List.mem_cons.mp hy
        · exact List.mem_cons_self
        · exact List.mem_cons_of_mem _ (ih h hy)

/-- A CPU works on its own pages. -/
theorem Kept.own_of_worksOn (hk : Kept p s g) (ho : g.Admits i o) (hq : IsPageHeader p s q)
    (hw : o.WorksOn q) : ∃ pg ∈ g.shape.pagesOf i, pg.base = q := by
  obtain ⟨cpu, hcpu, hmem⟩ := hq
  obtain ⟨pg, hpg, rfl⟩ := hk.bases cpu q ((hk.lists cpu hcpu).mem_of_follow hmem)
  obtain ⟨hlink, x, hx, hlow, hhigh⟩ := hw
  have hin : pg.span.Contains x := ⟨hlow, hhigh⟩
  obtain hown | ⟨k, q', hq', rfl⟩ := ho.touched hx
  · obtain rfl := hk.page_own ⟨pg, hpg, hin⟩ hown
    exact ⟨pg, hpg, rfl⟩
  · obtain ⟨pg', hpg', rfl⟩ := hk.bases k q' hq'
    have hin' : pg'.span.Contains x := by
      obtain ⟨h₁, h₂⟩ := hx
      unfold Region.Contains Page.span Region.stop pageBytes
      simp only
      omega
    by_cases hne : pg' = pg
    · exact absurd (by rw [hne]) hlink
    · have hd := hk.sound.pages_disj (mem_pagesOf.mp hpg).1 (mem_pagesOf.mp hpg').1 hne
      exact absurd hin' (hd.not_contains hin)

end Bytes

section Locks

variable {c c' : Config Struct Global Lock Check ℕ} {i j : ℕ} {o : Op Struct Global Lock}
  {k : ℕ → Code ℕ} {holder : Option ℕ}

theorem Moves.other (hm : Moves i c c') (hj : j ≠ i) : c'.thread j = c.thread j := by
  cases hm with
  | acquire hcode hfree => exact Config.update_other hj _ _
  | release hcode => exact Config.update_other hj _ _
  | plain hcode ho hr => exact Config.update_other hj _ _
  | fault hcode ho hr => exact Config.update_other hj _ _
  | loop hcode => rfl
  | finish hcode => exact Config.update_other hj _ _

theorem Op.holder_plain (ho : o.Plain) : o.holder i holder = holder := by
  cases o with
  | acquire l => exact ho.elim
  | put l v => exact ho.elim
  | _ => rfl

theorem Op.holder_of_some (ho : o ≠ .acquire .heapLock) (hi : o.holder i holder = some i) :
    holder = some i := by
  cases o with
  | acquire l =>
    cases l with
    | heapLock => exact absurd rfl ho
    | pagelist j => exact hi
  | put l v =>
    cases l with
    | heapLock => cases hi
    | pagelist j => exact hi
  | _ => exact hi

theorem Op.entry_of_ne {s entry : PmmState} (ho : o ≠ .acquire .heapLock) :
    o.entry s entry = entry := by
  cases o with
  | acquire l =>
    cases l with
    | heapLock => exact absurd rfl ho
    | pagelist j => rfl
  | _ => rfl

/-- A CPU takes a lock when it is free. -/
theorem Moves.lock_free {l : Lock} (hm : Moves i c c')
    (hcode : (c.thread i).code = some (.op (.acquire l) k)) : c.store.lock l = 0 := by
  cases hm with
  | acquire hc hfree =>
    rw [hcode] at hc
    cases hc
    exact hfree
  | release hc => rw [hcode] at hc; cases hc
  | plain hc ho _ => rw [hcode] at hc; cases hc; exact ho.elim
  | fault hc ho _ => rw [hcode] at hc; cases hc; exact ho.elim
  | loop hc => rw [hcode] at hc; cases hc
  | finish hc => rw [hcode] at hc; cases hc

/-- Whether the CPU holds the heap lock after the operation. -/
theorem Moves.heap_held (hm : Moves i c c') (hcode : (c.thread i).code = some (.op o k))
    (hnodup : (c.thread i).held.Nodup)
    (hholder : holder = some i ↔ .heapLock ∈ (c.thread i).held) :
    o.holder i holder = some i ↔ .heapLock ∈ (c'.thread i).held := by
  by_cases hplain : o.Plain
  · rw [Op.holder_plain hplain, hholder]
    cases hm with
    | plain hc ho hr => simp
    | fault hc ho hr => simp
    | acquire hc hfree => rw [hcode] at hc; cases hc; exact hplain.elim
    | @release l v k' hc =>
      obtain rfl : o = .put l v := by
        rw [hcode] at hc
        exact (Prog.op.inj (Option.some.inj hc)).1
      exact hplain.elim
    | loop hc => exact Iff.rfl
    | finish hc => rw [hcode] at hc; cases hc
  · cases o with
    | acquire l =>
      rw [hm.of_acquire hcode, Config.update_self]
      cases l with
      | heapLock => simp [Op.holder]
      | pagelist j => simp [Op.holder, hholder]
    | put l v =>
      rw [hm.of_put hcode, Config.update_self]
      cases l with
      | heapLock => simp [Op.holder, hnodup.not_mem_erase]
      | pagelist j =>
        simp only [Op.holder, hholder]
        exact (List.mem_erase_of_ne (by simp)).symm
    | load t q off n => exact absurd trivial hplain
    | store t q off n v => exact absurd trivial hplain
    | fill t q n => exact absurd trivial hplain
    | get y => exact absurd trivial hplain
    | set y v => exact absurd trivial hplain
    | peek l => exact absurd trivial hplain

/-- A lock that the CPU holds after an operation that takes none. -/
theorem Moves.held_before {l : Lock} (hm : Moves i c c')
    (hcode : (c.thread i).code = some (.op o k)) (ho : ∀ m, o ≠ .acquire m)
    (hl : l ∈ (c'.thread i).held) : l ∈ (c.thread i).held := by
  cases hm with
  | acquire hc hfree =>
    rw [hcode] at hc
    cases hc
    exact absurd rfl (ho _)
  | release hc =>
    rw [Config.update_self] at hl
    exact List.mem_of_mem_erase hl
  | plain hc _ hr => simpa using hl
  | fault hc _ hr => simpa using hl
  | loop hc => exact hl
  | finish hc => simpa using hl

end Locks

namespace Interplay

section Steps

variable {p : Platform} {s s' : Interplay} {g : Ledger} {i n : ℕ} {b : Block}
  {o : Op Struct Global Lock} {k : ℕ → Code ℕ} {c : Config Struct Global Lock Check ℕ}

theorem Booked.met_perform (hs : s.Booked p g) (ho : g.Admits i o) {h : Ledger}
    (hpages : ∀ pg ∈ g.shape.pagesOf i, pg ∈ h.shape.pagesOf i) (hm : Moves i s.config c)
    (hcode : (s.config.thread i).code = some (.op o k)) {x : ℕ}
    (hheld : .pagelist i ∈ (c.thread i).held) (hx : o.met p s.config.store (s.met i) x) :
    ∃ pg ∈ h.shape.pagesOf i, pg.base = x := by
  have hbefore : (∀ m, o ≠ .acquire m) → s.met i x ∨ (IsPageHeader p s.config.store x ∧
      o.WorksOn x) → ∃ pg ∈ h.shape.pagesOf i, pg.base = x := by
    rintro hnone (hold | ⟨hq, hw⟩)
    · exact hs.met_of hpages (hm.held_before hcode hnone hheld) hold
    · obtain ⟨pg, hpg, hbase⟩ := hs.kept.own_of_worksOn ho hq hw
      exact ⟨pg, hpages pg hpg, hbase⟩
  cases o with
  | acquire l =>
    cases l with
    | pagelist j => exact hx.elim
    | heapLock =>
      obtain hold | ⟨-, -, y, hy, -⟩ := hx
      · refine hs.met_of hpages ?_ hold
        rw [hm.of_acquire hcode, Config.update_self] at hheld
        simpa using hheld
      · exact hy.elim
  | put l v => exact hbefore nofun hx
  | load t q off n => exact hbefore nofun hx
  | store t q off n v => exact hbefore nofun hx
  | fill t q n => exact hbefore nofun hx
  | get y => exact hbefore nofun hx
  | set y v => exact hbefore nofun hx
  | peek l => exact hbefore nofun hx

/-- A CPU goes on in its call. -/
theorem Booked.perform (hs : s.Booked p g) (hord : Orderly (pmmLocks p) s.config)
    (hcode : (s.config.thread i).code = some (.op o k)) (hm : Moves i s.config c)
    (hassume : o = .acquire .heapLock → ∀ n, s.call i = some (.alloc n) →
      HeaderFits s.config.store n ∧ (n ≤ 16384 → RemainderFits s.config.store)) :
    ∃ h, (s.perform p i o c).Booked p h := by
  obtain ⟨call, hcall, hb⟩ := hs.busy i _ hcode
  have hadmit : g.Admits i o := (hb.safe _ g hs.kept (.refl _ i _ _)).1
  have hasks : ∀ o' k', Prog.op o k = .op o' k' →
      (pmmSharing p).assumes i o' s.config.store g := by
    intro o' k' heq
    cases heq
    intro ho n hn
    exact hassume ho n ((hb.asks n).mp hn ▸ hcall)
  obtain ⟨h, hgoes⟩ := Safe.moves hm hcode (by simp) hs.kept hasks hb.safe
  have hmoved : Ledger.Moved i o g h := hgoes.moves o k rfl
  obtain ⟨q, hq, hsafe⟩ := hgoes.safe
  refine ⟨h, hs.update hgoes.whole hgoes.others (fun j hj => hm.other hj) (fun _ _ => rfl)
    (hmoved.live.trans hs.live) ?_ (fun hout => ?_) (fun hi => ?_)
    (fun j hj => Function.update_of_ne hj _ _) (fun x hheld hx => ?_) (fun _ hnone => ?_)
    fun q' hq' => ?_⟩
  · rw [hmoved.holder]
    exact hm.heap_held hcode (hord.nodup i) (hs.holder i)
  · refine Op.entry_of_ne ?_
    rintro rfl
    exact hout hmoved.holder
  · rw [hmoved.free hi]
    rw [hmoved.holder] at hi
    by_cases ho : o = .acquire .heapLock
    · subst ho
      have hfree : s.config.store.lock .heapLock = 0 := hm.lock_free hcode
      exact hs.kept.heap (hs.kept.released hfree)
    · have hentry : (s.perform p i o c).entry = s.entry := Op.entry_of_ne ho
      rw [hentry]
      refine hs.entry ?_
      rw [Op.holder_of_some ho hi]
      exact Option.some_ne_none i
  · have hself : (s.perform p i o c).met i = o.met p s.config.store (s.met i) :=
      Function.update_self _ _ _
    rw [hself] at hx
    exact hs.met_perform hadmit hmoved.pages hm hcode hheld hx
  · change (c.thread i).code = none at hnone
    rw [hq] at hnone
    cases hnone
  · change (c.thread i).code = some q' at hq'
    rw [hq] at hq'
    cases hq'
    refine ⟨call, hcall, hb.cpu, fun n => ?_, hsafe⟩
    rw [hmoved.asks]
    exact hb.asks n

/-- The call of a CPU returns. -/
theorem Booked.finish {call : Call} {a : ℕ} (hs : s.Booked p g)
    (hord : Orderly (pmmLocks p) s.config) (hcall : s.call i = some call)
    (hcode : (s.config.thread i).code = some (.ret a)) :
    ∃ h, (s.finish i call a).Booked p h := by
  obtain ⟨call', hcall', hb⟩ := hs.busy i _ hcode
  obtain rfl : call = call' := Option.some.inj (hcall.symm.trans hcall')
  have hdone : (pmmSharing p).Finally i (Done p i call) a s.config.store g := hb.safe
  obtain ⟨h, hk, hothers, hlive, hr⟩ := hdone _ g hs.kept (.refl _ i _ _)
  have hself : (s.finish i call a).config.thread i = ⟨none, (s.config.thread i).held⟩ :=
    Config.update_self _ _ _
  have hheld : (s.config.thread i).held = [] := hord.code i _ hcode
  refine ⟨h, hs.update hk hothers (fun j hj => Config.update_other hj _ _)
    (fun j hj => Function.update_of_ne hj _ _) (hlive.trans (congrArg (call.returned a) hs.live)) ?_
    (fun _ => rfl) (fun hi => absurd hi hr.outside) (fun _ _ => rfl) (fun x hx => ?_)
    (fun _ _ => hr) fun q hq => ?_⟩
  · rw [hself, hheld]
    exact ⟨fun hi => absurd hi hr.outside, fun hmem => absurd hmem List.not_mem_nil⟩
  · rw [hself, hheld] at hx
    exact absurd hx List.not_mem_nil
  · rw [hself] at hq
    cases hq

/-- Every step keeps a ledger. -/
theorem Booked.step {e : SessionEvent} (hs : s.Booked p g)
    (hord : Orderly (pmmLocks p) s.config) (hapart : StaysApart p s e)
    (hstep : InterplayStep p s e s') : ∃ h, s'.Booked p h := by
  cases hstep with
  | alloc hi hidle => exact ⟨_, hs.alloc hord hi hidle _⟩
  | free hi hidle hb => exact ⟨_, hs.free hord hi hidle hb hapart⟩
  | enter hcode hm => exact hs.perform hord hcode hm fun _ => hapart
  | move hcode hne hm => exact hs.perform hord hcode hm fun heq => absurd heq hne
  | loop hcode => exact ⟨g, hs⟩
  | finish hcall hcode => exact hs.finish hord hcall hcode
  | @spin i l hw =>
    -- the lock word is 1 already
    have hone : s.config.store.lock l = 1 := by
      obtain ⟨⟨k, hcode⟩, htaken⟩ := hw
      obtain ⟨hzero, -⟩ | ⟨hone, -⟩ := hord.word l (hord.code i _ hcode).1
      · exact absurd hzero htaken
      · exact hone
    have hsame : s.config.store.setLock l 1 = s.config.store := by
      rw [← hone]
      exact Store.setLock_self _ _
    rw [hsame]
    exact ⟨g, hs⟩
  | write hb hx =>
    obtain ⟨hk, hagree⟩ := hs.kept.setByte (hs.live ▸ hb) hx _
    exact ⟨g, hs.restore hk hagree⟩

/-- A ledger goes with every state reached. -/
theorem booked_of_reach (hlen : (headerBytes : ℤ) ≤ p.recorded)
    (h : (interplay p).Reach (StaysApart p) s) : ∃ g, s.Booked p g := by
  refine h.invariant (I := fun s => ∃ g, s.Booked p g) (fun _ hinit => ?_) ?_
  · exact ⟨_, booked_init hlen hinit⟩
  · rintro s e s' hr ⟨g, hs⟩ hC hstep
    exact hs.step (orderly_reached (interplay_config hr)) hC hstep

end Steps

end Interplay

end KmallocKfree
