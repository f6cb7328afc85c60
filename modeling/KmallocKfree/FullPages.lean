import KmallocKfree.OneBlock

/-!
# A block of a full page is freed

The index of a full page is 0, so `kfree` takes the page header for the first free node
and walks on through the headers behind it in the list. Block 1 is joined to the page
header, whose size doubles. The last block is joined to a page header right behind the
page, which leaves the page list. Any other block becomes a node that links to the page
header, an index that `kalloc` reads as a full page again.
-/
namespace KmallocKfree

open Prog Region
open ByteMemory (Mem)

/-- A full page. -/
structure Full (m : Mem) (pg : Page) : Prop where
  valid : pg.Valid
  cls : SizeClass pg.cls
  repr : pg.Repr m
  full : pg.runs = []

/-- What freeing block `t` makes of a full page and of the headers `B` behind it. -/
inductive FullFreed (m m' : Mem) (pg : Page) (t : Region) (B : List ℕ) : Prop
  | doubled : t.start = pg.base + pg.cls →
      sizeAt m' pg.base = (if pg.cls = 16384 then 0 else 2 * pg.cls : ℕ) → wordAt m' pg.base = 0 →
      (∀ q ∈ pg.base :: B, nextAt m' q = nextAt m q) → FullFreed m m' pg t B
  | pushed : t.start ≠ pg.base + pg.cls → t.stop ∉ B →
      PageList m' pg.base pg.cls [t] pg.base →
      (∀ q ∈ pg.base :: B, nextAt m' q = nextAt m q) → FullFreed m m' pg t B
  | swallowed (B₁ B₂ : List ℕ) (n : ℕ) : t.start ≠ pg.base + pg.cls → B = B₁ ++ t.stop :: B₂ →
      (n : ℤ) = pg.cls + sizeAt m t.stop → PageList m' pg.base pg.cls [⟨t.start, n⟩] pg.base →
      nextAt m' (B₁.getLastD pg.base) = nextAt m t.stop →
      (∀ q ∈ pg.base :: B, q ≠ B₁.getLastD pg.base → nextAt m' q = nextAt m q) →
      FullFreed m m' pg t B

/-- It only depends on the headers. -/
theorem FullFreed.congr {m m₁ m' : Mem} {pg : Page} {t : Region} {B : List ℕ}
    (h : FullFreed m₁ m' pg t B) (hsame : ∀ q ∈ pg.base :: B, SameRecord m m₁ q) :
    FullFreed m m' pg t B := by
  cases h with
  | doubled hstart hsize hindex hlinks =>
    exact .doubled hstart hsize hindex fun q hq => (hlinks q hq).trans (hsame q hq).next
  | pushed hstart hstop hlist hlinks =>
    exact .pushed hstart hstop hlist fun q hq => (hlinks q hq).trans (hsame q hq).next
  | swallowed B₁ B₂ n hstart hB hn hlist hlink hlinks =>
    have hmem : t.stop ∈ pg.base :: B := by
      rw [hB]
      simp
    refine .swallowed B₁ B₂ n hstart hB ?_ hlist ?_ ?_
    · rw [hn, (hsame _ hmem).size]
    · rw [hlink, (hsame _ hmem).next]
    · intro q hq hne
      exact (hlinks q hq hne).trans (hsame q hq).next

/-- Where a block of a full page is freed: the list runs on from the page through `B`. -/
structure FullSite (F : Footprint Struct Global Lock) (m : Mem) (pg : Page) (t : Region)
    (B : List ℕ) : Prop where
  site : FreeSite F pg t (pg.base :: B)
  full : pg.runs = []
  list : PageList m pg.base pg.cls [] pg.tail
  path : Path (nextAt m) pg.base (pg.base :: B) 0
  heads : ∀ q ∈ pg.base :: B, F.Owns .pagefreenode q 16
  spread : ∀ q ∈ pg.base :: B, ∀ q' ∈ pg.base :: B, q ≠ q' → Apart q q'
  classes : ∀ q ∈ B, ∃ d : ℕ, sizeAt m q = d ∧ d ≤ 16384

namespace FullSite

variable {F : Footprint Struct Global Lock} {s : PmmState} {m : Mem} {pg : Page} {t : Region}
  {B : List ℕ} {a q : ℕ}

/-- The other headers lie outside the page. -/
theorem outside (h : FullSite F m pg t B) (hq : q ∈ B) :
    q + 16 ≤ pg.base ∨ pg.base + pageBytes ≤ q := by
  obtain hbase | hout := h.site.outside q (List.mem_cons_of_mem _ hq)
  · subst hbase
    exact absurd hq (List.nodup_cons.mp h.site.nodup).1
  · exact hout

theorem apart (h : FullSite F m pg t B) (hq : q ∈ pg.base :: B) : Apart t.start q := by
  have hb := h.site.start_bounds
  have hge := h.site.cls.ge
  have hlen := h.site.len
  unfold Region.stop at hb
  unfold Apart
  obtain rfl | hq := List.mem_cons.mp hq
  · omega
  · have := h.outside hq
    omega

/-- The page header is the nearest node below the block. -/
theorem nearest_below (h : FullSite F m pg t B) {b : ℕ}
    (hb : NearestBelow (pg.base :: B) t.start b) : b = pg.base := by
  have hbounds := h.site.start_bounds
  have hge := h.site.cls.ge
  have hmem : pg.base ∈ pg.base :: B := List.mem_cons_self
  obtain ⟨-, hnone⟩ | ⟨hbm, hlt, hbest⟩ := hb
  · have := hnone _ hmem
    omega
  · have hbase := hbest _ hmem (by omega)
    obtain rfl | hbm := List.mem_cons.mp hbm
    · rfl
    · have := h.outside hbm
      unfold Region.stop at hbounds
      have hlen := h.site.len
      omega

/-- The nearest node above the block is a header behind the page, or none. -/
theorem nearest_above (h : FullSite F m pg t B) (ha : NearestAbove (pg.base :: B) t.start a) :
    (a = 0 ∨ (a ∈ B ∧ pg.base + pageBytes ≤ a)) ∧ (a = t.stop ↔ t.stop ∈ B) := by
  have hbounds := h.site.start_bounds
  have hge := h.site.cls.ge
  have hlen := h.site.len
  unfold Region.stop at hbounds
  have hbehind : ∀ q ∈ B, t.start < q → pg.base + pageBytes ≤ q := by
    intro q hq hlt
    have := h.outside hq
    omega
  obtain ⟨rfl, hnone⟩ | ⟨ham, hlt, hbest⟩ := ha
  · refine ⟨.inl rfl, fun h0 => ?_, fun hmem => ?_⟩
    · unfold Region.stop at h0
      omega
    · have := hnone _ (List.mem_cons_of_mem _ hmem)
      unfold Region.stop at this
      omega
  · obtain rfl | ham := List.mem_cons.mp ham
    · omega
    · have hfar := hbehind a ham hlt
      refine ⟨.inr ⟨ham, hfar⟩, fun heq => heq ▸ ham, fun hmem => ?_⟩
      have hle := hbest _ (List.mem_cons_of_mem _ hmem) (by unfold Region.stop; omega)
      unfold Region.stop at hle ⊢
      omega

theorem apart_header (h : FullSite F m pg t B) (hq : q ∈ B) : Apart pg.base q := by
  have := h.outside hq
  have hpb : pageBytes = 65536 := rfl
  unfold Apart
  omega

/-- Block 1 is joined to the page header. -/
theorem wp_doubleHeader (h : FullSite F s.mem pg t B) (hstart : t.start = pg.base + pg.cls)
    (ha : a = 0 ∨ pg.base + pageBytes ≤ a) :
    wp F.Allows (mergeBefore pg.base t.start pg.base a) s fun _ s' =>
      FullFreed s.mem s'.mem pg t B ∧ s'.var = s.var ∧ s'.lock = s.lock := by
  have hge := h.site.cls.ge
  have hle := h.site.cls.le
  have hmax := h.site.valid.max
  have hpb : pageBytes = 65536 := rfl
  have hhead := h.site.header
  have hnode := h.heads pg.base List.mem_cons_self
  have hsum : (pg.cls : ℤ) + pg.cls = ((2 * pg.cls : ℕ) : ℤ) := by
    push_cast
    ring
  set m₁ := setSizeAt s.mem pg.base ((2 * pg.cls : ℕ) : ℤ) with hm₁
  have hsize : sizeAt m₁ pg.base = ((2 * pg.cls : ℕ) : ℤ) :=
    sizeAt_setSizeAt _ _ (by omega) (by omega)
  have hindex : wordAt m₁ pg.base = 0 := (wordAt_setSizeAt _ _ _).trans h.list.index
  have htoSize : toSize ((2 * pg.cls : ℕ) : ℤ) = 2 * pg.cls := toSize_natCast (by omega)
  have hne : addPtr t.start (2 * pg.cls) ≠ a := by
    rw [addPtr_of_lt (by omega)]
    omega
  have hlinks : ∀ q ∈ pg.base :: B, nextAt m₁ q = nextAt s.mem q := by
    intro q hq
    obtain rfl | hq := List.mem_cons.mp hq
    · exact nextAt_setSizeAt _ _ _
    · exact (SameRecord.setSizeAt (h.apart_header hq) _).next
  unfold mergeBefore
  simp only [wp_bind, wp_readSize hnode.toSees, wp_readSize hhead.toSees, h.list.size, hsum,
    wp_writeSize hnode, Store.setMem_mem, ← hm₁, hsize, htoSize, if_neg hne]
  rw [wp_markIfEmpty (s := s.setMem m₁) hsize hnode.toSees hhead, Store.setMem_mem, hsize]
  split_ifs with hall
  · refine ⟨.doubled hstart ?_ ((wordAt_setSizeAt _ _ _).trans hindex) ?_, rfl, rfl⟩
    · rw [if_pos (show pg.cls = 16384 by push_cast at hall; omega)]
      exact sizeAt_setSizeAt _ _ (by omega) (by omega)
    · intro q hq
      refine Eq.trans ?_ (hlinks q hq)
      obtain rfl | hq := List.mem_cons.mp hq
      · exact nextAt_setSizeAt _ _ _
      · exact (SameRecord.setSizeAt (h.apart_header hq) _).next
  · refine ⟨.doubled hstart ?_ hindex hlinks, rfl, rfl⟩
    rw [if_neg (show pg.cls ≠ 16384 by push_cast at hall; omega)]
    exact hsize

/-- The last block is joined to the page header right behind the page. -/
theorem wp_swallowHeader (h : FullSite F s.mem pg t B) (hstart : t.start ≠ pg.base + pg.cls)
    (ha : t.stop ∈ B) :
    wp F.Allows (mergeAfter pg.base t.start t.stop) s fun _ s' =>
      FullFreed s.mem s'.mem pg t B ∧ s'.var = s.var ∧ s'.lock = s.lock := by
  have hle := h.site.cls.le
  have hpb : pageBytes = 65536 := rfl
  have hhead := h.site.header
  have hnode := h.site.node
  have hmem : t.stop ∈ pg.base :: B := List.mem_cons_of_mem _ ha
  have haown := h.heads _ hmem
  obtain ⟨d, hd, hdle⟩ := h.classes _ ha
  obtain ⟨B₁, B₂, hB⟩ := List.append_of_mem ha
  set n := pg.cls + d with hn
  have hcast : (pg.cls : ℤ) + d = ((n : ℕ) : ℤ) := by omega
  have hnil : PageList s.mem pg.base pg.cls pg.runs pg.tail := by
    rw [h.full]
    exact h.list
  have hpush := h.site.push (n := n) (by omega) hnil
  rw [h.full] at hpush
  change PageList (pushMem s.mem pg.base pg.cls t.start n pg.base) pg.base pg.cls
    [⟨t.start, n⟩] pg.base at hpush
  set m := pushMem s.mem pg.base pg.cls t.start n pg.base with hm
  have hlinks : ∀ q ∈ pg.base :: B, nextAt m q = nextAt s.mem q := by
    intro q hq
    rw [hm, pushMem_next h.site _ _ _ (.inr hq)]
  -- the walk from the new node finds the header before the one that is joined
  have hwalk : Path (nextAt m) t.start (t.start :: pg.base :: B) 0 := by
    have hpath := hpush.walk (T := pg.base :: B) (by
      rw [endOf, if_neg (by simp)]
      exact h.path.congr hlinks)
    exact hpath
  have hnd : (t.start :: pg.base :: B).Nodup := by
    refine List.nodup_cons.mpr ⟨fun hmem => ?_, h.site.nodup⟩
    exact (h.apart hmem).ne rfl
  have hsees : ∀ x ∈ t.start :: pg.base :: B, F.Sees .pagefreenode x 16 := by
    intro x hx
    obtain rfl | hx := List.mem_cons.mp hx
    · exact hnode.toSees
    · exact (h.heads x hx).toSees
  have hlen : (t.start :: pg.base :: B).length < loopBound := by
    have := h.site.count
    rw [List.length_cons]
    omega
  have hsplit : t.start :: pg.base :: B = (t.start :: pg.base :: B₁) ++ t.stop :: B₂ := by
    rw [hB]
    rfl
  set q := B₁.getLastD pg.base with hq
  have hlast : (t.start :: pg.base :: B₁).getLastD 0 = q := by
    rw [List.getLastD_cons, List.getLastD_cons]
  have hqmem : q ∈ pg.base :: B₁ := List.getLastD_mem_cons
  have hqB : q ∈ pg.base :: B := by
    rw [hB]
    obtain hx | hx := List.mem_cons.mp hqmem
    · rw [hx]
      exact List.mem_cons_self
    · exact List.mem_cons_of_mem _ (List.mem_append_left _ hx)
  have hqown := h.heads q hqB
  have hempty : headOf pg.base pg.runs = pg.base := by
    rw [h.full]
    rfl
  rw [wp_mergeAfter_mem h.site hnil haown.toSees (h.apart hmem) hd hn.symm (by omega), hempty, ← hm,
    wp_bind]
  rw [hsplit] at hwalk hnd hsees hlen
  refine wp_predecessor_before hwalk hnd hsees hlen ?_
  rw [hlast]
  simp only [wp_bind, wp_readPtr haown.toSees, wp_writePtr hqown, Store.setMem_mem]
  set m₂ := setNextAt m q (nextAt m t.stop) with hm₂
  have htq : SameRecord m m₂ t.start := .setNextAt (h.apart hqB).symm _
  have hbase : sizeAt m₂ pg.base = sizeAt m pg.base ∧ wordAt m₂ pg.base = wordAt m pg.base := by
    by_cases heq : q = pg.base
    · rw [hm₂, heq]
      exact ⟨sizeAt_setNextAt _ _ _, wordAt_setNextAt _ _ _⟩
    · have hap := h.spread q hqB pg.base List.mem_cons_self heq
      exact ⟨(SameRecord.setNextAt hap _).size, (SameRecord.setNextAt hap _).word⟩
  have hl₂ : PageList m₂ pg.base pg.cls [⟨t.start, n⟩] pg.base := by
    refine ⟨hbase.1.trans hpush.size, hbase.2.trans hpush.index, ?_, ?_⟩
    · obtain ⟨x, hx⟩ := hpush.list
      refine ⟨x, hx.frame fun r hr => ?_⟩
      rw [List.mem_singleton.mp hr]
      exact htq
    · intro r hr
      rw [← hpush.magic r hr, List.mem_singleton.mp hr]
      exact htq.word
  obtain ⟨x, hx⟩ := hl₂.list
  have hnsize : sizeAt m₂ t.start = (n : ℤ) := hx.size ⟨t.start, n⟩ (List.mem_singleton_self _)
  refine (wp_markIfEmpty hl₂.size hnode.toSees hhead _).mpr ?_
  rw [Store.setMem_mem, hnsize, if_neg (by omega)]
  refine ⟨.swallowed B₁ B₂ n hstart hB (by rw [hd, hcast]) hl₂ ?_ ?_, rfl, rfl⟩
  · rw [← hq, hm₂, nextAt_setNextAt _ _ (nextAt_lt _ _), hlinks _ hmem]
  · intro y hy hyq
    have hap := h.spread q hqB y hy (Ne.symm hyq)
    rw [← hlinks y hy]
    exact (SameRecord.setNextAt hap _).next

/-- Any other block becomes a node that links to the page header. -/
theorem wp_pushHeader (h : FullSite F s.mem pg t B) (hstart : t.start ≠ pg.base + pg.cls)
    (ha : t.stop ∉ B) :
    wp F.Allows (pushNode pg.base t.start) s fun _ s' =>
      FullFreed s.mem s'.mem pg t B ∧ s'.var = s.var ∧ s'.lock = s.lock := by
  have hle := h.site.cls.le
  have hl : PageList s.mem pg.base pg.cls pg.runs pg.tail := by
    rw [h.full]
    exact h.list
  have hpush := h.site.push (n := t.len) (by have := h.site.len; omega) hl
  rw [h.full] at hpush
  rw [wp_pushNode_mem h.site hl]
  refine ⟨.pushed hstart ha ?_ ?_, rfl, rfl⟩
  · rw [h.full]
    exact hpush
  · intro q hq
    exact pushMem_next h.site _ _ _ (.inr hq)

/-- What the writes of the page branch leave alone before the block joins the list. -/
theorem fill (h : FullSite F m pg t B) :
    FullSite F (ByteMemory.fill m t.start t.len 0) pg t B ∧
      ∀ q ∈ pg.base :: B, SameRecord m (ByteMemory.fill m t.start t.len 0) q := by
  have hsame : ∀ q ∈ pg.base :: B, SameRecord m (ByteMemory.fill m t.start t.len 0) q :=
    fun q hq => h.site.fill m (.inr (.inr hq))
  refine ⟨⟨h.site, h.full, h.list.frame (hsame _ List.mem_cons_self) (by simp), ?_, h.heads,
    h.spread, ?_⟩, hsame⟩
  · exact h.path.congr fun q hq => (hsame q hq).next
  · intro q hq
    obtain ⟨d, hd, hle⟩ := h.classes q hq
    exact ⟨d, (hsame q (List.mem_cons_of_mem _ hq)).size.trans hd, hle⟩

/-- The page branch of `kfree` on a full page. -/
theorem wp_kfreePage_full {cpu : ℕ} (h : FullSite F s.mem pg t B) (hF : F.locks (.pagelist cpu)) :
    wp F.Allows (kfreePage cpu pg.base t.start) s fun _ s' =>
      FullFreed s.mem s'.mem pg t B ∧ s'.var = s.var ∧
        s'.lock = (s.setLock (.pagelist cpu) 0).lock := by
  have hc := h.site.cls.ge
  have hcle := h.site.cls.le
  have hmax := h.site.valid.max
  have hpb : pageBytes = 65536 := rfl
  have hlen := h.site.len
  have htb := h.site.start_bounds
  have hhead := h.site.header
  have htoSize : toSize (pg.cls : ℤ) = t.len := by
    rw [hlen]
    exact toSize_natCast (by omega)
  have hstop : addPtr t.start t.len = t.stop := by
    unfold Region.stop at *
    exact addPtr_of_lt (by omega)
  obtain ⟨hu, hsame⟩ := h.fill
  set u := s.setMem (ByteMemory.fill s.mem t.start t.len 0) with hudef
  have hlu : PageList u.mem pg.base pg.cls [] pg.tail := hu.list
  have hbaseStop : stopAt u.mem pg.base = pg.base + pg.cls := by
    rw [stopAt, hlu.size, toSize_natCast (by omega), addPtr_of_lt (by omega)]
  have hdone : ∀ v : PmmState, (FullFreed u.mem v.mem pg t B ∧ v.var = u.var ∧ v.lock = u.lock) →
      wp F.Allows (unlock (.pagelist cpu)) v fun _ s' =>
        FullFreed s.mem s'.mem pg t B ∧ s'.var = s.var ∧
          s'.lock = (s.setLock (.pagelist cpu) 0).lock := by
    rintro v ⟨hfreed, hvar, hlock⟩
    rw [wp_unlock hF]
    refine ⟨hfreed.congr hsame, hvar, ?_⟩
    simp only [Store.setLock, hlock, hudef, Store.setMem_lock]
  unfold kfreePage
  simp only [wp_bind, wp_readSize hhead.toSees, h.list.size, htoSize, wp_memset0 h.site.bytes]
  rw [← hudef, wp_freeListHead hlu h.site.cls hmax (by simp) hhead.toSees]
  refine wp_neighbours hu.path h.site.walk (by have := h.site.count; omega) fun b a hb ha => ?_
  obtain rfl := h.nearest_below hb
  obtain ⟨hafar, hatouch⟩ := h.nearest_above ha
  refine wp_endsAt (fun _ => h.site.walk _ List.mem_cons_self) ?_
  by_cases hstart : t.start = pg.base + pg.cls
  · have hmerge : pg.base ≠ 0 ∧ stopAt u.mem pg.base = t.start :=
      ⟨h.site.valid.base_pos.ne', hbaseStop.trans hstart.symm⟩
    simp only [hmerge, ne_eq, not_false_eq_true, and_self, decide_true, if_true, wp_bind]
    refine wp_post (hu.wp_doubleHeader hstart ?_) fun _ v hv => hdone v hv
    obtain rfl | ⟨-, hfar⟩ := hafar
    · exact .inl rfl
    · exact .inr hfar
  · have hmerge : ¬ (pg.base ≠ 0 ∧ stopAt u.mem pg.base = t.start) := fun h' =>
      hstart (h'.2.symm.trans hbaseStop)
    simp only [hmerge, decide_false, if_false, Bool.false_eq_true, wp_bind,
      wp_readSize hhead.toSees, hlu.size, htoSize, hstop]
    by_cases hswallow : t.stop ∈ B
    · obtain rfl := hatouch.mpr hswallow
      rw [if_pos rfl, wp_bind]
      exact wp_post (hu.wp_swallowHeader hstart hswallow) fun _ v hv => hdone v hv
    · rw [if_neg fun heq => hswallow (hatouch.mp heq.symm), wp_bind]
      exact wp_post (hu.wp_pushHeader hstart hswallow) fun _ v hv => hdone v hv

end FullSite

/-- The free list of the page is the block `t`: the next `kalloc` that the page serves
returns it and makes the page full again. -/
structure FreesOne (m : Mem) (s' : PmmState) (cpu : ℕ) (pg : Page) (t : Region) : Prop where
  next : nextAt s'.mem pg.base = nextAt m pg.base
  list : ∃ e, PageList s'.mem pg.base pg.cls [t] e
  taken : ∃ s'', Prog.exec (do lock (.pagelist cpu); kallocFast cpu pg.base pg.cls) s' =
    .ok (t.start, s'') ∧ wordAt s''.mem pg.base = 0

section FullPage

variable {p : Platform} {s s' : PmmState} {L : ℕ → List ℕ} {F : Footprint Struct Global Lock}
  {m : Mem} {cpu k : ℕ} {A B : List ℕ} {pg : Page} {t : Region}

/-- A full page in a page list, the headers behind it being those of pages. -/
theorem Listed.fullSite (h : Listed p s L) (hk : k < p.cpuCount) (hsplit : L k = A ++ pg.base :: B)
    (hpage : Full s.mem pg) (hclass : ∀ q ∈ B, ∃ d : ℕ, sizeAt s.mem q = d ∧ d ≤ 16384)
    (ht : Freeable pg t) (hown : ∀ q ∈ pg.base :: B, OwnsPage F q) : FullSite F s.mem pg t B := by
  have hge := ht.cls.ge
  have hmem : ∀ q ∈ pg.base :: B, q ∈ L k := by
    intro q hq
    rw [hsplit]
    exact List.mem_append_right _ hq
  have hnd := h.nodup k hk
  rw [hsplit] at hnd
  have hndB := (List.nodup_append.mp hnd).2.1
  have hapart : ∀ q ∈ pg.base :: B, ∀ q' ∈ pg.base :: B, q ≠ q' →
      q + pageBytes ≤ q' ∨ q' + pageBytes ≤ q := fun q hq q' hq' hne =>
    h.apart k hk k hk q (hmem q hq) q' (hmem q' hq') hne
  have hpb : pageBytes = 65536 := rfl
  have hheads : ∀ q ∈ pg.base :: B, F.Owns .pagefreenode q 16 := fun q hq =>
    hown q hq _ _ _ le_rfl (by omega)
  have hsite := ht.site (hown _ List.mem_cons_self)
  have hpath := h.path k hk
  rw [hsplit] at hpath
  obtain ⟨x, -, hpath⟩ := Path.append.mp hpath
  obtain rfl := hpath.1
  refine ⟨⟨ht, ?_, hndB, ?_, hsite.header, hsite.nodes, hsite.node, ?_, hsite.bytes⟩, hpage.full,
    ?_, hpath, hheads, ?_, hclass⟩
  · intro q hq
    by_cases heq : q = pg.base
    · exact .inl heq
    · have := hapart q hq pg.base List.mem_cons_self heq
      omega
  · have hcount := length_lt_loopBound (l := t.start :: pg.base :: B) ?_ ?_ ?_
    · rw [hpage.full]
      simpa using hcount
    · refine List.nodup_cons.mpr ⟨fun hmem' => ?_, hndB⟩
      have hb := ht.start_bounds
      have hlen := ht.len
      unfold Region.stop at hb
      by_cases heq : t.start = pg.base
      · omega
      · have := hapart _ hmem' pg.base List.mem_cons_self heq
        omega
    · intro h0
      obtain h0 | h0 := List.mem_cons.mp h0
      · have := ht.start_bounds.1
        omega
      · have := (h.pos hk (hmem 0 h0)).1
        omega
    · intro x hx
      obtain rfl | hx := List.mem_cons.mp hx
      · have hb := ht.start_bounds.2
        have hmax := ht.valid.max
        unfold Region.stop at hb
        omega
      · have := (h.pos hk (hmem x hx)).2
        omega
  · exact fun q hq => (hheads q hq).toSees
  · have hlist := (Page.repr_iff (show pg.cls ≠ 0 by omega)).mp hpage.repr
    rw [hpage.full] at hlist
    exact hlist
  · intro q hq q' hq' hne
    have := hapart q hq q' hq' hne
    unfold Apart
    omega

/-- A free list of the one block serves the next request. -/
theorem FreesOne.of_list (ht : Freeable pg t) (hlock : s'.lock (.pagelist cpu) = 0)
    (hl : PageList s'.mem pg.base pg.cls [t] pg.base)
    (hnext : nextAt s'.mem pg.base = nextAt m pg.base) : FreesOne m s' cpu pg t := by
  have hge := ht.cls.ge
  refine ⟨hnext, ⟨_, hl⟩, ?_⟩
  set pg' : Page := { pg with runs := [t], looped := true } with hpg'
  have hv : pg'.Valid := ⟨ht.valid.base_pos, ht.valid.max, ht.valid.cls, fun r hr => by
    rw [List.mem_singleton.mp hr]
    exact ht.isRun, List.pairwise_singleton _ _, fun h0 => by
    change pg.cls = 0 at h0
    omega⟩
  have hrepr : pg'.Repr s'.mem :=
    (Page.repr_iff (show pg'.cls ≠ 0 by change pg.cls ≠ 0; omega)).mpr hl
  have hwp := wp_kallocFast_own (s := s'.setLock (.pagelist cpu) 1) hv hrepr
    (show pg'.runs = [t] from rfl) (anyFoot_ownsPage hv.base_pos)
    (show anyFoot.locks (.pagelist cpu) from trivial)
  obtain ⟨ret, s'', hexec, rfl, hpop, -⟩ := wp_exec hwp
  refine ⟨s'', ?_, ?_⟩
  · rw [exec_locked hlock]
    exact hexec
  · have hruns : pg'.pop.runs = [] := Page.pop_runs_last rfl ht.len
    have hindex := hpop.index
    rw [Page.index, if_neg (show pg'.pop.cls ≠ 0 by change pg.cls ≠ 0; omega), hruns] at hindex
    exact hindex

/-- What becomes of the page tells whether the block is its free list. -/
theorem FullFreed.freesOne_iff (h : FullFreed s.mem s'.mem pg t B) (ht : Freeable pg t)
    (hpath : Path (nextAt s.mem) pg.base (pg.base :: B) 0)
    (hnd : (pg.base :: B).Nodup) (hlock : s'.lock (.pagelist cpu) = 0) :
    FreesOne s.mem s' cpu pg t ↔
      t.start ≠ pg.base + pg.cls ∧
        (t.stop ∈ B → B.head? ≠ some t.stop ∧ sizeAt s.mem t.stop = 0) := by
  have hge := ht.cls.ge
  have hlen := ht.len
  cases h with
  | doubled hstart hsize _ _ =>
    refine ⟨fun hone => ?_, fun hcond => absurd hstart hcond.1⟩
    obtain ⟨e, hl⟩ := hone.list
    have hcls := hl.size
    rw [hsize] at hcls
    split_ifs at hcls <;> omega
  | pushed hstart hstop hlist hlinks =>
    exact ⟨fun _ => ⟨hstart, fun hmem => absurd hmem hstop⟩,
      fun _ => .of_list ht hlock hlist (hlinks _ List.mem_cons_self)⟩
  | swallowed B₁ B₂ n hstart hB hn hlist hlink hlinks =>
    have hmem : t.stop ∈ B := by rw [hB]; simp
    have hndB := (List.nodup_cons.mp hnd).2
    rw [hB] at hndB
    obtain ⟨-, hnd₂, hcross⟩ := List.nodup_append.mp hndB
    obtain ⟨-, hpathB⟩ := hpath
    rw [hB] at hpathB
    obtain ⟨x, hpath₁, hxstop, hpath₂⟩ := Path.append.mp hpathB
    constructor
    · intro hone
      refine ⟨hstart, fun _ => ⟨fun hhead => ?_, ?_⟩⟩
      · -- the page header would link past the joined header
        have hB₁ : B₁ = [] := by
          cases B₁ with
          | nil => rfl
          | cons y B₁ =>
            rw [hB] at hhead
            obtain rfl : y = t.stop := by simpa using hhead
            exact absurd rfl (hcross t.stop List.mem_cons_self t.stop List.mem_cons_self)
        subst hB₁
        have hbase : nextAt s.mem pg.base = t.stop := hpath₁.trans hxstop
        have hloop : nextAt s.mem t.stop = t.stop := hlink.symm.trans (hone.next.trans hbase)
        have hstop : t.stop ≠ 0 := by
          have := ht.start_bounds.1
          unfold Region.stop
          omega
        have hrest : Path (nextAt s.mem) t.stop (t.stop :: B₂) 0 := ⟨rfl, hpath₂⟩
        exact hrest.link_ne_start hnd₂ hstop List.mem_cons_self hloop
      · obtain ⟨e, hl⟩ := hone.list
        obtain ⟨a, ha⟩ := hl.list
        obtain ⟨b, hb⟩ := hlist.list
        have hold := ha.size t (List.mem_singleton_self _)
        have hnew := hb.size ⟨t.start, n⟩ (List.mem_singleton_self _)
        simp only at hnew
        omega
    · intro hcond
      obtain ⟨hhead, hzero⟩ := hcond.2 hmem
      have hlen' : n = t.len := by omega
      subst hlen'
      have hne : pg.base ≠ B₁.getLastD pg.base := by
        cases B₁ with
        | nil => exact absurd (by rw [hB]; rfl) hhead
        | cons y B₁ =>
          have hlast : (y :: B₁).getLastD pg.base ∈ y :: B₁ := by
            rw [List.getLastD_cons]
            exact List.getLastD_mem_cons
          intro heq
          rw [← heq] at hlast
          apply (List.nodup_cons.mp hnd).1
          rw [hB]
          exact List.mem_append_left _ hlast
      exact .of_list ht hlock hlist (hlinks _ List.mem_cons_self hne)

/-- The new node, if there is one, does not end the list. -/
theorem FullFreed.not_freeBlocks {m' : Mem} (h : FullFreed m m' pg t B) (ht : Freeable pg t) :
    ¬ FreeBlocks m' pg.base pg.cls [t] := by
  have hpos := ht.valid.base_pos
  have hlinked : ∀ {n : ℕ}, PageList m' pg.base pg.cls [⟨t.start, n⟩] pg.base →
      ¬ FreeBlocks m' pg.base pg.cls [t] := by
    rintro n hl ⟨-, hlist, -, -, -⟩
    obtain ⟨a, ha⟩ := hl.list
    have hlink : nextAt m' t.start = pg.base := FreeList.nil.mp (FreeList.cons.mp ha).2.2
    have hnull : nextAt m' t.start = 0 := FreeList.nil.mp (FreeList.cons.mp hlist).2.2
    omega
  cases h with
  | doubled hstart hsize hindex hlinks =>
    intro hblocks
    have := hblocks.index
    omega
  | pushed hstart hstop hlist hlinks => exact hlinked hlist
  | swallowed B₁ B₂ n hstart hB hn hlist hlink hlinks => exact hlinked hlist

/-- `kfree` of a block of a full page. -/
theorem Listed.kfree_full (h : Listed p s L) (hlock : s.lock (.pagelist cpu) = 0)
    (hk : k < p.cpuCount) (hsplit : L k = A ++ pg.base :: B) (hpage : Full s.mem pg)
    (hclass : ∀ q ∈ B, sizeAt s.mem q = 0 ∨ ∃ c : ℕ, SizeClass c ∧ sizeAt s.mem q = c)
    (ht : Freeable pg t) : ∃ s', Prog.exec (kfree p cpu t.start) s = .ok ((), s') ∧
      FullFreed s.mem s'.mem pg t B ∧
      (FreesOne s.mem s' cpu pg t ↔ t.start ≠ pg.base + pg.cls ∧
        (t.stop ∈ B → B.head? ≠ some t.stop ∧ sizeAt s.mem t.stop = 0)) := by
  have hq : pg.base ∈ L k := by rw [hsplit]; simp
  have hsmall : ∀ q ∈ B, ∃ d : ℕ, sizeAt s.mem q = d ∧ d ≤ 16384 := by
    intro q hq
    obtain hzero | ⟨c, hc, hsize⟩ := hclass q hq
    · exact ⟨0, hzero, by omega⟩
    · exact ⟨c, hsize, hc.le⟩
  have hpos : ∀ q ∈ pg.base :: B, 0 < q := by
    intro q hq
    apply (h.pos hk (q := q) _).1
    rw [hsplit]
    exact List.mem_append_right _ hq
  have hsite := h.fullSite (F := anyFoot) hk hsplit hpage hsmall ht
    fun q hq => anyFoot_ownsPage (hpos q hq)
  have hwp := hsite.wp_kfreePage_full (s := s.setLock (.pagelist cpu) 1)
    (show anyFoot.locks (.pagelist cpu) from trivial)
  obtain ⟨_, s', hexec, hfreed, -, hlock'⟩ := wp_exec hwp
  have hfree : s'.lock (.pagelist cpu) = 0 := by
    rw [hlock']
    simp [Store.setLock]
  refine ⟨s', ?_, hfreed, hfreed.freesOne_iff ht hsite.path hsite.site.nodup hfree⟩
  rw [h.exec_kfree hlock hk hq ht.inSpan, exec_locked hlock]
  exact hexec

/-- Freeing into a full page gives back exactly the block, unless the block is block 1, or
the last block with the header of the next page of the list, or of a page in use, right
behind it. In no case is the free list null-terminated. -/
theorem kfree_full_page_iff (h : Listed p s L) (hlock : s.lock (.pagelist cpu) = 0)
    (hk : k < p.cpuCount) (hsplit : L k = A ++ pg.base :: B) (hpage : Full s.mem pg)
    (hclass : ∀ q ∈ B, sizeAt s.mem q = 0 ∨ ∃ c : ℕ, SizeClass c ∧ sizeAt s.mem q = c)
    (ht : Freeable pg t) :
    ∃ s', Prog.exec (kfree p cpu t.start) s = .ok ((), s') ∧
      (FreesOne s.mem s' cpu pg t ↔ t.start ≠ pg.base + pg.cls ∧
        (t.stop ∈ B → B.head? ≠ some t.stop ∧ sizeAt s.mem t.stop = 0)) ∧
      ¬ FreeBlocks s'.mem pg.base pg.cls [t] := by
  obtain ⟨s', hexec, hfreed, hiff⟩ := h.kfree_full hlock hk hsplit hpage hclass ht
  exact ⟨s', hexec, hiff, hfreed.not_freeBlocks ht⟩

/-- A page of blocks of 16 KiB, all of them live. -/
def fullPage : Page := ⟨0, 0x100000, 16384, [], false⟩

theorem exists_fullPage : ∃ s : PmmState,
    Listed halfMega s onePage ∧ Full s.mem fullPage ∧ s.lock (.pagelist 0) = 0 := by
  have hrun : ((runFrom halfMega (fun _ _ => True) blank
      [.alloc 0 16384, .alloc 0 16384, .alloc 0 16384]).map fun w =>
      decide ((w.st.var (.pagehead 0) = 0x100000 ∧ w.st.var (.pagehead 1) = 0 ∧
        nextAt w.st.mem 0x100000 = 0) ∧ (sizeAt w.st.mem 0x100000 = 16384 ∧
        wordAt w.st.mem 0x100000 = 0) ∧ w.st.lock (.pagelist 0) = 0)) = some true := by
    decide +kernel
  obtain ⟨w, hw, hall⟩ := Option.map_eq_some_iff.mp hrun
  obtain ⟨⟨hhead, hother, hnext⟩, ⟨hsize, hindex⟩, hlock⟩ := of_decide_eq_true hall
  have hclass : SizeClass 16384 := by
    have hround : roundSize 16384 = 16384 := by decide +kernel
    rw [← hround]
    exact sizeClass_roundSize le_rfl
  refine ⟨w.st, listed_onePage hhead hother hnext, ⟨?_, hclass, ?_, rfl⟩, hlock⟩
  · exact ⟨by decide, by decide, .inr hclass, by simp [fullPage], List.Pairwise.nil, by decide⟩
  · exact ⟨hsize, hindex, ⟨0, FreeList.nil.mpr rfl⟩, by simp [fullPage]⟩

theorem freeable_fullPage {b : ℕ} (hb : b ∈ [1, 2, 3]) :
    Freeable fullPage ⟨0x100000 + b * 16384, 16384⟩ := by
  obtain ⟨s, -, hfull, -⟩ := exists_fullPage
  refine ⟨hfull.valid, hfull.cls, ⟨b, ?_⟩, rfl, by simp [fullPage]⟩
  have hpb : pageBytes = 65536 := rfl
  have hcls : fullPage.cls = 16384 := rfl
  have hbase : fullPage.base = 0x100000 := rfl
  simp only [List.mem_cons, List.not_mem_nil, or_false] at hb
  rw [hcls, hbase, hpb]
  obtain rfl | rfl | rfl := hb <;> decide

/-- Block 2 of 3 comes back as it was. -/
theorem kfree_full_page_second : ∃ s s' : PmmState, Full s.mem fullPage ∧
    Prog.exec (kfree halfMega 0 0x108000) s = .ok ((), s') ∧
    FreesOne s.mem s' 0 fullPage ⟨0x108000, 16384⟩ := by
  obtain ⟨s, hlisted, hfull, hlock⟩ := exists_fullPage
  obtain ⟨s', hexec, hiff, -⟩ := kfree_full_page_iff (k := 0) (A := []) (B := [])
    hlisted hlock (by decide) rfl hfull (by simp) (freeable_fullPage (b := 2) (by decide))
  exact ⟨s, s', hfull, hexec, hiff.mpr ⟨by decide, by simp⟩⟩

/-- Block 1 is joined to the page header: the page changes its class, and no block is free. -/
theorem kfree_full_page_drops_first : ¬ ∀ (p : Platform) (s : PmmState) (L : ℕ → List ℕ)
    (cpu k : ℕ) (A B : List ℕ) (pg : Page) (t : Region), Listed p s L →
      s.lock (.pagelist cpu) = 0 → k < p.cpuCount → L k = A ++ pg.base :: B → Full s.mem pg →
      (∀ q ∈ B, sizeAt s.mem q = 0 ∨ ∃ c : ℕ, SizeClass c ∧ sizeAt s.mem q = c) →
      Freeable pg t → ∃ s', Prog.exec (kfree p cpu t.start) s = .ok ((), s') ∧
        FreesOne s.mem s' cpu pg t := by
  intro hclaim
  obtain ⟨s, hlisted, hfull, hlock⟩ := exists_fullPage
  have hlive := freeable_fullPage (b := 1) (by decide)
  obtain ⟨s', hexec, hone⟩ := hclaim halfMega s onePage 0 0 [] [] fullPage _ hlisted hlock
    (by decide) rfl hfull (by simp) hlive
  obtain ⟨s'', hexec', -, hiff⟩ := hlisted.kfree_full (k := 0) (A := []) (B := [])
    hlock (by decide) rfl hfull (by simp) hlive
  rw [hexec] at hexec'
  cases hexec'
  exact (hiff.mp hone).1 rfl

end FullPage
end KmallocKfree
