import KmallocKfree.MixedRuns

/-!
# The allocator as a function

What a call does depends on the shape of the heap only. A small request takes the first
block of the first page of its class, or block 1 of the first empty page, or block 1 of a
page cut off the first node that holds one; a large request takes the top of the highest
node that holds it. The allocator computes exactly this, and returns as long as the shape
avoids what the source gets wrong.
-/
namespace KmallocKfree

open Prog Region Shape

/-- The first free block of the page. -/
def Page.firstFree (pg : Page) : ℕ := (pg.runs.head?.map Region.start).getD 0

namespace Shape

/-- The page belongs to `cpu`, has class `c` and a free block. -/
def Serves (cpu c : ℕ) (pg : Page) : Prop := pg.owner = cpu ∧ pg.cls = c ∧ pg.runs ≠ []

/-- The page belongs to `cpu` and is empty. -/
def Vacant (cpu : ℕ) (pg : Page) : Prop := pg.owner = cpu ∧ pg.cls = 0

instance (cpu c : ℕ) : DecidablePred (Serves cpu c) := fun _ => inferInstanceAs (Decidable (_ ∧ _))
instance (cpu : ℕ) : DecidablePred (Vacant cpu) := fun _ => inferInstanceAs (Decidable (_ ∧ _))

/-- Change the page at `base`. -/
def onPage (sh : Shape) (base : ℕ) (f : Page → Page) : Shape :=
  ⟨sh.free, sh.pages.map fun pg => if pg.base = base then f pg else pg⟩

/-- Replace the node `r` by the nodes `l`. -/
def onNode (sh : Shape) (r : Region) (l : List Region) : Shape :=
  ⟨sh.free.flatMap fun x => if x = r then l else [x], sh.pages⟩

/-- The highest of the regions that hold `size` bytes. -/
def highest (size : ℕ) : List Region → Option Region
  | [] => none
  | r :: l =>
      match highest size l with
      | some t => if size ≤ r.len ∧ t.start < r.start then some r else some t
      | none => if size ≤ r.len then some r else none

def allocSmall (sh : Shape) (cpu c : ℕ) : Option (ℕ × Shape) :=
  match sh.pages.find? fun pg => Serves cpu c pg with
  | some pg => some (pg.firstFree, sh.onPage pg.base Page.pop)
  | none =>
      match sh.pages.find? fun pg => Vacant cpu pg with
      | some pg => some (pg.base + c, sh.onPage pg.base fun _ => Page.fresh cpu pg.base c)
      | none =>
          match sh.free.find? fun r => pageBytes ≤ r.len with
          | some r => some (r.start + c,
              ⟨(sh.onNode r (afterPage r)).free, Page.fresh cpu r.start c :: sh.pages⟩)
          | none => none

def allocHuge (sh : Shape) (size : ℕ) : Option (ℕ × Shape) :=
  (highest size sh.free).map fun r => (r.stop - size, sh.onNode r [beforeBlock r size])

/-- The block that `kalloc` returns, and the next shape; none when it returns 0. -/
def alloc (sh : Shape) (cpu n : ℕ) : Option (ℕ × Shape) :=
  if n ≤ 16384 then sh.allocSmall cpu (roundSize n)
  else if n ≤ 16777216 then sh.allocHuge (roundSize n)
  else none

/-- The shape after the block was freed. -/
def release (sh : Shape) (b : Block) : Shape :=
  if b.Huge then ⟨giveBack b.span sh.free, sh.pages⟩
  else
    match sh.pages.find? fun pg => pg.base < b.addr ∧ b.addr < pg.base + pageBytes with
    | some pg => sh.onPage pg.base fun pg => pg.freed b.region
    | none => sh

end Shape

/-- The heap without its memory. -/
structure Model where
  shape : Shape
  live : List Block

namespace Model

/-- What a command does; an owner's write does nothing. -/
def step (m : Model) : Cmd → Model
  | .alloc cpu n =>
      match m.shape.alloc cpu n with
      | some (a, sh) => ⟨sh, ⟨a, n⟩ :: m.live⟩
      | none => m
  | .free _ a =>
      match m.live.find? fun b => decide (b.addr = a) with
      | some b => ⟨m.shape.release b, m.live.erase b⟩
      | none => m
  | .write _ _ => m

end Model

section Lists

variable {sh : Shape} {P₁ P₂ : List Page} {l₁ l₂ l : List Region} {pg : Page} {r : Region}
  {size : ℕ}

theorem Shape.onPage_eq (hnd : (sh.pages.map Page.base).Nodup) (hpages : sh.pages = P₁ ++ pg :: P₂)
    (f : Page → Page) : sh.onPage pg.base f = ⟨sh.free, P₁ ++ f pg :: P₂⟩ := by
  rw [hpages, List.map_append, List.map_cons] at hnd
  obtain ⟨h₁, h₂⟩ := List.nodup_middle.mp hnd |> List.nodup_cons.mp
  have hsame : ∀ P : List Page, (∀ y ∈ P, y.base ∈ P₁.map Page.base ++ P₂.map Page.base) →
      P.map (fun y => if y.base = pg.base then f y else y) = P := by
    intro P hP
    have hid : P.map (fun y => if y.base = pg.base then f y else y) = P.map id := by
      refine List.map_congr_left fun y hy => if_neg fun heq => h₁ ?_
      rw [← heq]
      exact hP y hy
    rw [hid, List.map_id]
  unfold Shape.onPage
  rw [hpages, List.map_append, List.map_cons, if_pos rfl,
    hsame P₁ fun y hy => List.mem_append_left _ (List.mem_map_of_mem hy),
    hsame P₂ fun y hy => List.mem_append_right _ (List.mem_map_of_mem hy)]

theorem Shape.onNode_eq (hnd : sh.free.Nodup) (hfree : sh.free = l₁ ++ r :: l₂) (l : List Region) :
    sh.onNode r l = ⟨l₁ ++ l ++ l₂, sh.pages⟩ := by
  rw [hfree] at hnd
  obtain ⟨h₁, h₂⟩ := List.nodup_middle.mp hnd |> List.nodup_cons.mp
  have hsame : ∀ P : List Region, (∀ y ∈ P, y ∈ l₁ ++ l₂) →
      P.flatMap (fun y => if y = r then l else [y]) = P := by
    intro P hP
    have hid : P.flatMap (fun y => if y = r then l else [y]) = P.flatMap fun y => [y] := by
      refine List.flatMap_congr fun y hy => if_neg fun heq => h₁ ?_
      rw [← heq]
      exact hP y hy
    rw [hid]
    exact List.flatMap_singleton' P
  unfold Shape.onNode
  rw [hfree, List.flatMap_append, List.flatMap_cons, if_pos rfl,
    hsame l₁ fun y hy => List.mem_append_left _ hy,
    hsame l₂ fun y hy => List.mem_append_right _ hy, List.append_assoc]

theorem highest_none : highest size l = none ↔ ∀ r ∈ l, r.len < size := by
  induction l with
  | nil => simp [highest]
  | cons x l ih =>
    unfold highest
    cases h : highest size l with
    | some t =>
      rw [h] at ih
      simp only [reduceCtorEq, false_iff] at ih
      simp only
      split_ifs
      · simp only [false_iff]
        exact fun hall => ih fun r hr => hall r (List.mem_cons_of_mem _ hr)
      · simp only [false_iff]
        exact fun hall => ih fun r hr => hall r (List.mem_cons_of_mem _ hr)
    | none =>
      rw [h] at ih
      simp only
      split_ifs with hx
      · simp only [false_iff]
        intro hall
        have := hall x List.mem_cons_self
        omega
      · simp only [true_iff, List.forall_mem_cons]
        exact ⟨by omega, ih.mp rfl⟩

theorem highest_some (h : highest size l = some r) : HighestFit l size r := by
  induction l generalizing r with
  | nil => cases h
  | cons x l ih =>
    unfold highest at h
    cases ht : highest size l with
    | some t =>
      rw [ht] at h
      obtain ⟨htl, htlen, htop⟩ := ih ht
      simp only at h
      split_ifs at h with hx
      · cases h
        refine ⟨List.mem_cons_self, hx.1, fun y hy hyl => ?_⟩
        rcases List.mem_cons.mp hy with rfl | hy
        · exact le_rfl
        · exact le_trans (htop y hy hyl) hx.2.le
      · cases h
        refine ⟨List.mem_cons_of_mem _ htl, htlen, fun y hy hyl => ?_⟩
        rcases List.mem_cons.mp hy with rfl | hy
        · by_contra hlt
          exact hx ⟨hyl, by omega⟩
        · exact htop y hy hyl
    | none =>
      rw [ht] at h
      have hall := highest_none.mp ht
      simp only at h
      split_ifs at h with hx
      cases h
      refine ⟨List.mem_cons_self, hx, fun y hy hyl => ?_⟩
      rcases List.mem_cons.mp hy with rfl | hy
      · exact le_rfl
      · have := hall y hy
        omega

end Lists

section Choice

variable {p : Platform} {sh sh' : Shape} {live : List Block} {s t : PmmState} {cpu n a c : ℕ}
  {pg : Page} {r : Region} {A B : List Page}

theorem Shape.Sound.free_nodup (h : Sound p sh live) : sh.free.Nodup :=
  List.Nodup.of_map _ h.separated.nodup

/-- The page list of a CPU, split at a page. -/
theorem Shape.pagesOf_split (hpages : sh.pages = A ++ pg :: B) (howner : pg.owner = cpu) :
    (sh.pagesOf cpu).map Page.base = (A.filter fun y => y.owner = cpu).map Page.base ++
      pg.base :: (B.filter fun y => y.owner = cpu).map Page.base := by
  unfold Shape.pagesOf
  rw [hpages, List.filter_append, List.filter_cons_of_pos (by simpa using howner),
    List.map_append, List.map_cons]

/-- A small request takes the first block of the first page of its class. -/
theorem answer_serves (h : Inv p ⟨s, live⟩ sh) (hcpu : cpu < p.cpuCount) (hn : n ≤ 16384)
    (hpages : sh.pages = A ++ pg :: B) (hpg : Serves cpu (roundSize n) pg)
    (hA : ∀ y ∈ A, ¬ Serves cpu (roundSize n) y)
    (hexec : Prog.exec (kalloc p cpu n) s = .ok (a, t)) : a = pg.firstFree := by
  obtain ⟨howner, hcls, hruns⟩ := hpg
  have hclass := sizeClass_roundSize hn
  have hlisted := h.holds.listed h.sound
  have hmem : ∀ y ∈ A ++ pg :: B, y ∈ sh.pages := fun y hy => hpages ▸ hy
  have hsized : ∀ y ∈ sh.pages, HasSized s.mem (roundSize n) y.base ↔
      y.cls = roundSize n ∧ y.runs ≠ [] := fun y hy =>
    sized_iff (h.sound.pages y hy).1 (h.holds.pages y hy) hclass
  rw [hlisted.exec_kalloc_fast hcpu hn (h.unlocked.2 cpu hcpu) (Shape.pagesOf_split hpages howner)
    (fun x hx => ?_) ((hsized pg (hmem pg (by simp))).mpr ⟨hcls, hruns⟩)] at hexec
  · rw [exec_locked (h.unlocked.2 cpu hcpu)] at hexec
    obtain ⟨r, rest, hrest⟩ := List.exists_cons_of_ne_nil hruns
    have hrepr : pg.Repr (s.setLock (.pagelist cpu) 1).mem := h.holds.pages pg (hmem pg (by simp))
    have hfast := wp_result (wp_kallocFast_page h.sound hpages hrepr hcls hrest) hexec
    rw [hfast.1, Page.firstFree, hrest]
    rfl
  · obtain ⟨y, hy, rfl⟩ := List.mem_map.mp hx
    obtain ⟨hyA, hyo⟩ := List.mem_filter.mp hy
    intro hy'
    obtain ⟨h₁, h₂⟩ := (hsized y (hmem y (List.mem_append_left _ hyA))).mp hy'
    exact hA y hyA ⟨by simpa using hyo, h₁, h₂⟩

/-- Without such a page it takes block 1 of the first empty page. -/
theorem answer_vacant (h : Inv p ⟨s, live⟩ sh) (hcpu : cpu < p.cpuCount) (hn : n ≤ 16384)
    (hnone : ∀ y ∈ sh.pages, ¬ Serves cpu (roundSize n) y)
    (hpages : sh.pages = A ++ pg :: B) (hpg : Vacant cpu pg) (hA : ∀ y ∈ A, ¬ Vacant cpu y)
    (hexec : Prog.exec (kalloc p cpu n) s = .ok (a, t)) : a = pg.base + roundSize n := by
  obtain ⟨rfl, hcls⟩ := hpg
  have hclass := sizeClass_roundSize hn
  have hge := hclass.ge
  have hle := hclass.le
  have hlisted := h.holds.listed h.sound
  have hmem : ∀ y ∈ A ++ pg :: B, y ∈ sh.pages := fun y hy => hpages ▸ hy
  have hpgm := hmem pg (by simp)
  have hrepr := h.holds.pages pg hpgm
  have hsized : ∀ x ∈ (sh.pagesOf pg.owner).map Page.base, ¬ HasSized s.mem (roundSize n) x := by
    intro x hx hsized
    obtain ⟨y, hy, rfl⟩ := List.mem_map.mp hx
    obtain ⟨hy, hyo⟩ := mem_pagesOf.mp hy
    obtain ⟨h₁, h₂⟩ := (sized_iff (h.sound.pages y hy).1 (h.holds.pages y hy) hclass).mp hsized
    exact hnone y hy ⟨hyo, h₁, h₂⟩
  rw [hlisted.exec_kalloc_recycle hcpu hn (h.unlocked.2 _ hcpu) (Shape.pagesOf_split hpages rfl)
    hsized (fun x hx hempty => ?_) ((empty_iff hrepr).mpr hcls)] at hexec
  · rw [exec_locked (h.unlocked.2 _ hcpu)] at hexec
    have hwhole : Sound p ⟨sh.free, A ++ Page.whole pg.owner pg.base (roundSize n) :: B⟩ live :=
      h.sound.recycle hpages hcls hclass
    have hbase : (pageFoot (Page.whole pg.owner pg.base (roundSize n)) pg.owner live []).Owns
        .pageheader pg.base 16 :=
      pageFoot_owns (h.sound.pages pg hpgm).1.base_pos (page_record _)
        (h.sound.header_clear hpages) rfl
    have htake : wp (pageFoot (Page.whole pg.owner pg.base (roundSize n)) pg.owner live []).Allows
        (kallocRecycle pg.owner pg.base (roundSize n)) (s.setLock (.pagelist pg.owner) 1)
        fun ret _ => ret = pg.base + roundSize n := by
      unfold kallocRecycle
      rw [wp_bind, wp_writeSize hbase]
      refine wp_post (wp_takeFirstBlock_page hwhole rfl hn ?_ ?_) fun _ _ hret => hret.1
      · exact sizeAt_setSizeAt _ _ (by omega) (by omega)
      · refine (wordAt_setSizeAt _ _ _).trans (hrepr.index.trans ?_)
        rw [Page.index, if_pos hcls]
    exact wp_result htake hexec
  · obtain ⟨y, hy, rfl⟩ := List.mem_map.mp hx
    obtain ⟨hyA, hyo⟩ := List.mem_filter.mp hy
    have hym := hmem y (List.mem_append_left _ hyA)
    exact hA y hyA ⟨by simpa using hyo, (empty_iff (h.holds.pages y hym)).mp hempty⟩

/-- The first free block lies in the page. -/
theorem Shape.Sound.firstFree_inPage (h : Sound p sh live) (hpg : pg ∈ sh.pages)
    (hruns : pg.runs ≠ []) : InPage pg pg.firstFree := by
  obtain ⟨r, rest, hrest⟩ := List.exists_cons_of_ne_nil hruns
  have hr : r ∈ pg.runs := by rw [hrest]; simp
  have hv := (h.pages pg hpg).1
  have hbounds := (hv.run r hr).bounds
  have hge := (hv.sizeClass_of_mem hr).ge
  have hfirst : pg.firstFree = r.start := by
    rw [Page.firstFree, hrest]
    rfl
  unfold InPage Region.stop at *
  omega

theorem inPage_one (pg : Page) (hc : SizeClass c) : InPage pg (pg.base + c) := by
  have hge := hc.ge
  have hle := hc.le
  unfold InPage pageBytes
  omega

/-- No page reaches into a node that holds one. -/
theorem Shape.Sound.node_not_inPage (h : Sound p sh live) (hr : r ∈ sh.free)
    (hfit : pageBytes ≤ r.len) (hc : SizeClass c) (hpg : pg ∈ sh.pages) :
    ¬ InPage pg (r.start + c) := by
  intro hin
  have hge := hc.ge
  have hle := hc.le
  have hd := h.free_page hr hpg
  unfold Disj Region.node Page.span Region.stop at hd
  unfold InPage at hin
  unfold pageBytes at *
  simp only at hd
  omega

/-- A first page that passes a test, or none does. -/
theorem find_first {P : Page → Prop} [DecidablePred P] (l : List Page) :
    (l.find? (fun y => decide (P y)) = none ∧ ∀ y ∈ l, ¬ P y) ∨
      ∃ A pg B, l.find? (fun y => decide (P y)) = some pg ∧ l = A ++ pg :: B ∧ P pg ∧
        ∀ y ∈ A, ¬ P y := by
  cases hf : l.find? fun y => decide (P y) with
  | none =>
    refine .inl ⟨rfl, fun y hy => ?_⟩
    simpa using List.find?_eq_none.mp hf y hy
  | some pg =>
    obtain ⟨hpg, A, B, hl, hA⟩ := List.find?_eq_some_iff_append.mp hf
    exact .inr ⟨A, pg, B, rfl, hl, by simpa using hpg, fun y hy => by simpa using hA y hy⟩

/-- The step of a small request that returns a block is the one the function computes. -/
theorem SmallStep.computed (h : Inv p ⟨s, live⟩ sh) (hcpu : cpu < p.cpuCount) (hn : n ≤ 16384)
    (hexec : Prog.exec (kalloc p cpu n) s = .ok (a, t))
    (hstep : SmallStep sh cpu (roundSize n) a sh') :
    sh.allocSmall cpu (roundSize n) = some (a, sh') := by
  have hs := h.sound
  have hclass := sizeClass_roundSize hn
  have hge := hclass.ge
  have hfit : ∀ {l₁ l₂ : List Region} {r : Region}, sh.free = l₁ ++ r :: l₂ → r ∈ sh.free :=
    fun hfree => by rw [hfree]; simp
  have hpage : ∀ {A B : List Page} {pg : Page}, sh.pages = A ++ pg :: B → pg ∈ sh.pages :=
    fun hpages => by rw [hpages]; simp
  unfold Shape.allocSmall
  rcases find_first (P := Serves cpu (roundSize n)) sh.pages with
    ⟨hfind, hnone⟩ | ⟨A, pg, B, hfind, hpages, hpg, hA⟩
  · rw [hfind]
    rcases find_first (P := Vacant cpu) sh.pages with
      ⟨hfind', hnone'⟩ | ⟨A, pg, B, hfind', hpages, hpg, hA⟩
    · rw [hfind']
      cases hstep with
      | pop hpages howner hcls hruns =>
        exact absurd ⟨howner, hcls, by rw [hruns]; exact List.cons_ne_nil _ _⟩
          (hnone _ (hpage hpages))
      | recycle hpages howner hcls => exact absurd ⟨howner, hcls⟩ (hnone' _ (hpage hpages))
      | @extend l₁ l₂ r hfree hsmall hlen =>
        have hfirst : sh.free.find? (fun r => decide (pageBytes ≤ r.len)) = some r := by
          rw [hfree, List.find?_append]
          have hno : l₁.find? (fun r => decide (pageBytes ≤ r.len)) = none :=
            List.find?_eq_none.mpr fun x hx => by simpa using hsmall x hx
          rw [hno, Option.none_or, List.find?_cons_of_pos (by simpa using hlen)]
        simp only [hfirst, Shape.onNode_eq hs.free_nodup hfree]
    · rw [hfind']
      have hanswer := answer_vacant h hcpu hn hnone hpages hpg hA hexec
      have hpgm := hpage hpages
      cases hstep with
      | pop hpages' howner hcls hruns =>
        exact absurd ⟨howner, hcls, by rw [hruns]; exact List.cons_ne_nil _ _⟩
          (hnone _ (hpage hpages'))
      | @recycle P₁ P₂ y hpages' howner hcls =>
        have hin := inPage_one y hclass
        rw [hanswer] at hin
        obtain rfl := hs.inPage_unique hpgm (hpage hpages') (inPage_one pg hclass) hin
        simp only [Shape.onPage_eq hs.bases_nodup hpages']
      | @extend l₁ l₂ r hfree hsmall hlen =>
        refine absurd ?_ (hs.node_not_inPage (hfit hfree) hlen hclass hpgm)
        rw [hanswer]
        exact inPage_one pg hclass
  · rw [hfind]
    have hanswer := answer_serves h hcpu hn hpages hpg hA hexec
    have hpgm := hpage hpages
    have hin := hs.firstFree_inPage hpgm hpg.2.2
    rw [← hanswer] at hin
    cases hstep with
    | @pop P₁ P₂ y r rest hpages' howner hcls hruns =>
      have hym := hpage hpages'
      have hfirst : y.firstFree = r.start := by
        rw [Page.firstFree, hruns]
        rfl
      have hiny := hs.firstFree_inPage hym (by rw [hruns]; exact List.cons_ne_nil _ _)
      rw [hfirst] at hiny
      obtain rfl := hs.inPage_unique hpgm hym hin hiny
      simp only [Shape.onPage_eq hs.bases_nodup hpages', hfirst]
    | @recycle P₁ P₂ y hpages' howner hcls =>
      obtain rfl := hs.inPage_unique hpgm (hpage hpages') hin (inPage_one y hclass)
      have := hpg.2.1
      omega
    | extend hfree hsmall hlen =>
      exact absurd hin (hs.node_not_inPage (hfit hfree) hlen hclass hpgm)

theorem SmallRefused.computed (h : SmallRefused sh cpu c) : sh.allocSmall cpu c = none := by
  obtain ⟨hpages, hfree⟩ := h
  have hserves : sh.pages.find? (fun y => decide (Serves cpu c y)) = none := by
    refine List.find?_eq_none.mpr fun y hy hyes => ?_
    obtain ⟨howner, hcls, hruns⟩ : Serves cpu c y := by simpa using hyes
    exact hruns ((hpages y (mem_pagesOf.mpr ⟨hy, howner⟩)).1 hcls)
  have hvacant : sh.pages.find? (fun y => decide (Vacant cpu y)) = none := by
    refine List.find?_eq_none.mpr fun y hy hyes => ?_
    obtain ⟨howner, hcls⟩ : Vacant cpu y := by simpa using hyes
    exact (hpages y (mem_pagesOf.mpr ⟨hy, howner⟩)).2 hcls
  have hfit : sh.free.find? (fun r => decide (pageBytes ≤ r.len)) = none := by
    refine List.find?_eq_none.mpr fun r hr => ?_
    simpa using hfree r hr
  unfold Shape.allocSmall
  rw [hserves, hvacant, hfit]

theorem HighestFit.computed {size : ℕ} (hs : Sound p sh live) (h : HighestFit sh.free size r) :
    highest size sh.free = some r := by
  obtain ⟨hr, hlen, htop⟩ := h
  cases hx : highest size sh.free with
  | none =>
    have := highest_none.mp hx r hr
    omega
  | some x =>
    obtain ⟨hxm, hxlen, hxtop⟩ := highest_some hx
    have hstart : x.start = r.start := le_antisymm (htop x hxm hxlen) (hxtop r hr hlen)
    by_contra hne
    have hd := hs.node_disj hxm hr fun heq => hne (congrArg some heq)
    unfold Disj Region.node Region.stop headerBytes at hd
    simp only at hd
    omega

/-- The step of a request that returns a block is the one the function computes. -/
theorem AllocStep.computed (h : Inv p ⟨s, live⟩ sh) (hcpu : cpu < p.cpuCount)
    (hexec : Prog.exec (kalloc p cpu n) s = .ok (a, t)) (hstep : AllocStep sh cpu n a sh') :
    sh.alloc cpu n = some (a, sh') := by
  unfold Shape.alloc
  cases hstep with
  | small hn hstep =>
    rw [if_pos hn]
    exact hstep.computed h hcpu hn hexec
  | huge hbig hmax hfree hfit =>
    rw [if_neg (by omega), if_pos hmax]
    unfold Shape.allocHuge
    rw [hfit.computed h.sound, Option.map_some, Shape.onNode_eq h.sound.free_nodup hfree]
    simp

theorem Refused.computed (h : Refused sh cpu n) : sh.alloc cpu n = none := by
  unfold Shape.alloc
  split_ifs with hn hmax
  · exact (h.1 hn).computed
  · unfold Shape.allocHuge
    rw [highest_none.mpr (h.2 (by omega) hmax), Option.map_none]
  · rfl

/-- The step of a `kfree` is the one the function computes. -/
theorem FreeStep.computed {b : Block} (hs : Sound p sh live) (hstep : FreeStep sh b sh') :
    sh.release b = sh' := by
  unfold Shape.release
  cases hstep with
  | huge hb => rw [if_pos hb]
  | @small P₁ P₂ pg hb hpages hhouse =>
    rw [if_neg hb]
    have hmem : pg ∈ sh.pages := by rw [hpages]; simp
    have hin := hhouse.inPage hb
    rcases find_first (P := fun y => y.base < b.addr ∧ b.addr < y.base + pageBytes) sh.pages with
      ⟨hfind, hnone⟩ | ⟨A, y, B, hfind, hpages', hy, hA⟩
    · exact absurd hin (hnone pg hmem)
    · obtain rfl := hs.inPage_unique hmem (by rw [hpages']; simp) hin hy
      rw [hfind]
      exact Shape.onPage_eq hs.bases_nodup hpages _

end Choice
end KmallocKfree
