import KmallocKfree.ModelRuns
import KmallocKfree.OneBlock

/-!
# Where the bytes of the heap are

Each byte is free, in a page, or in a live large block with its header, but for what `kfree`
loses: the 16 bytes of a header when no free node ends where it starts, and the free nodes
of a page that its list no longer leads to. What a run has lost is the sum of these.
-/
namespace KmallocKfree

open Region Shape Machine

def total (l : List Region) : ℕ := (l.map Region.len).sum

/-- The bytes of a page that no block has: all of an empty page, otherwise the header and the
free nodes. -/
def Page.bytes (pg : Page) : ℕ := if pg.cls = 0 then pageBytes else pg.cls + total pg.runs

/-- A large block counts with its header. -/
def Block.bytes (b : Block) : ℕ := if b.Huge then b.span.len else b.size

/-- The free nodes that are cut off when a block is freed that touches the head of the list and
another node. -/
def Page.skipped (pg : Page) (t : Region) : List Region :=
  match touchingBelow pg.runs t, touchingAbove pg.runs t with
  | some b, some a =>
      if pg.runs.head? = some a then pg.runs.tail.takeWhile fun r => decide (r.start ≠ b.start)
      else []
  | _, _ => []

/-- The bytes of the heap that no block has. -/
def Shape.bytes (sh : Shape) : ℕ := total sh.free + (sh.pages.map Page.bytes).sum

namespace Model

/-- The bytes that are not lost. -/
def bytes (m : Model) : ℕ := m.shape.bytes + (m.live.map Block.bytes).sum

/-- The bytes that are lost when a block is freed: the header of a large one with no free node
below it, or the nodes that are cut off in the page of a small one. -/
def lost (sh : Shape) (b : Block) : ℕ :=
  if b.Huge then
    if touchingBelow sh.free b.span = none then headerBytes else 0
  else
    match sh.pages.find? fun pg => pg.base < b.addr ∧ b.addr < pg.base + pageBytes with
    | some pg => total (pg.skipped b.region)
    | none => 0

/-- The bytes that a command loses. -/
def forfeit (m : Model) : Cmd → ℕ
  | .free _ a =>
      match m.live.find? fun b => decide (b.addr = a) with
      | some b => lost m.shape b
      | none => 0
  | _ => 0

/-- The bytes that the commands lose one after the other. -/
def forfeited (m : Model) : List Cmd → ℕ
  | [] => 0
  | c :: cmds => m.forfeit c + (m.step c).forfeited cmds

end Model

section Totals

variable {l l₁ l₂ : List Region} {a b r t : Region} {n : ℕ}

@[simp] theorem total_nil : total [] = 0 := rfl

@[simp] theorem total_cons : total (r :: l) = r.len + total l := by
  simp [total]

@[simp] theorem total_append : total (l₁ ++ l₂) = total l₁ + total l₂ := by
  simp [total]

theorem total_perm (h : l₁.Perm l₂) : total l₁ = total l₂ := (h.map _).sum_eq

theorem total_erase (h : a ∈ l) : total (l.erase a) + a.len = total l := by
  rw [total_perm (List.perm_cons_erase h), total_cons, Nat.add_comm]

theorem total_grow (hnd : l.Nodup) (hb : b ∈ l) : total (grow b n l) = total l + n := by
  have herase := total_erase hb
  rw [total_perm (grow_perm n hnd hb), total_cons]
  simp only
  omega

theorem mem_grow (ha : a ∈ l) (hne : a ≠ b) : a ∈ grow b n l :=
  List.mem_map.mpr ⟨a, ha, if_neg hne⟩

theorem below_ne_above (hlen : 0 < t.len) (hb : b.stop = t.start) (ha : a.start = t.stop) :
    a ≠ b := by
  rintro rfl
  unfold Region.stop at *
  omega

theorem Around.total_joined {T : List ℕ} {lo hi : ℕ} (h : Around l t T lo hi) :
    (joined t l).len + total (others t l) = total l + t.len := by
  unfold joined others
  cases hb : touchingBelow l t with
  | some b =>
    have hberase := total_erase (touchingBelow_some hb).1
    cases ha : touchingAbove l t with
    | some a =>
      have hne := h.below_ne_above hb ha
      have haerase := total_erase
        ((List.mem_erase_of_ne hne.symm).mpr (touchingAbove_some ha).1)
      simp only
      omega
    | none =>
      simp only
      omega
  | none =>
    cases ha : touchingAbove l t with
    | some a =>
      have haerase := total_erase (touchingAbove_some ha).1
      simp only
      omega
    | none =>
      simp only
      omega

/-- The heap's free list after a large block was freed. -/
theorem total_giveBack (hnd : l.Nodup) (hlen : headerBytes ≤ t.len) :
    total (giveBack t l) + (if touchingBelow l t = none then headerBytes else 0) =
      total l + t.len := by
  have hpos : 0 < t.len := lt_of_lt_of_le (by decide) hlen
  unfold giveBack
  cases hb : touchingBelow l t with
  | some b =>
    obtain ⟨hbm, hbt⟩ := touchingBelow_some hb
    cases ha : touchingAbove l t with
    | some a =>
      obtain ⟨ham, hat⟩ := touchingAbove_some ha
      have herase := total_erase (mem_grow (n := t.len + a.len) ham (below_ne_above hpos hbt hat))
      rw [total_grow hnd hbm] at herase
      simp only [reduceCtorEq, if_false]
      omega
    | none =>
      simp only [reduceCtorEq, if_false, total_grow hnd hbm]
      omega
  | none =>
    cases ha : touchingAbove l t with
    | some a =>
      obtain ⟨ham, hat⟩ := touchingAbove_some ha
      have herase := total_erase
        (List.mem_cons_of_mem ⟨t.start, t.len - headerBytes + a.len⟩ ham)
      rw [total_cons] at herase
      simp only [if_true] at herase ⊢
      omega
    | none =>
      simp only [if_true, total_cons]
      omega

end Totals

section Pages

variable {pg : Page} {t a b : Region} {l₁ l₂ : List Region}

/-- Behind the head, the nodes before the lower neighbour are cut off. -/
theorem Freeable.skipped_of_skips (h : Freeable pg t) (hruns : pg.runs = a :: (l₁ ++ b :: l₂))
    (ha : a.start = t.stop) (hb : b.stop = t.start) : pg.skipped t = l₁ := by
  have hbelow := h.touchingBelow_eq (by rw [hruns]; simp) hb
  have habove := h.touchingAbove_eq (by rw [hruns]; simp) ha
  have hnodup := h.valid.separated.nodup
  rw [hruns, List.map_cons, List.map_append, List.map_cons] at hnodup
  have hstarts : ∀ x ∈ l₁, x.start ≠ b.start := by
    intro x hx heq
    have hdisj := (List.nodup_append.mp (List.nodup_cons.mp hnodup).2).2.2
    exact hdisj _ (List.mem_map_of_mem hx) _ List.mem_cons_self heq
  unfold Page.skipped
  rw [hbelow, habove, hruns]
  simp only [List.head?_cons, if_true, List.tail_cons]
  rw [List.takeWhile_append_of_pos fun x hx => by simpa using hstarts x hx]
  simp

theorem Freeable.skipped_of_keeps (h : Freeable pg t) (hkeep : ¬ Skips pg t) :
    pg.skipped t = [] := by
  unfold Page.skipped
  split
  · next b a hb ha =>
    obtain ⟨hbm, hbt⟩ := touchingBelow_some hb
    obtain ⟨-, hat⟩ := touchingAbove_some ha
    have hne := below_ne_above h.around.len hbt hat
    split_ifs with hhead
    · obtain ⟨rest, hrest⟩ := List.head?_eq_some_iff.mp hhead
      have hmem : b ∈ rest := (List.mem_cons.mp (hrest ▸ hbm)).resolve_left hne.symm
      obtain ⟨l₁, l₂, rfl⟩ := List.append_of_mem hmem
      have hnil : l₁ = [] := by
        by_contra hcut
        exact hkeep ⟨a, l₁, b, l₂, hrest, hcut, hat, hbt⟩
      rw [hrest, hnil]
      simp
    · rfl
  · rfl

/-- The free list of a page after a block was freed. -/
theorem Freeable.total_release (h : Freeable pg t) :
    total (pg.release t) + total (pg.skipped t) = total pg.runs + t.len := by
  by_cases hskip : Skips pg t
  · obtain ⟨a, l₁, b, l₂, hruns, -, ha, hb⟩ := hskip
    have hjoined : (joined t pg.runs).len = b.len + (t.len + a.len) := by
      have hbelow := h.touchingBelow_eq (by rw [hruns]; simp) hb
      have habove := h.touchingAbove_eq (by rw [hruns]; simp) ha
      unfold joined
      rw [hbelow, habove]
    rw [h.release_of_skips hruns ha hb, h.skipped_of_skips hruns ha hb, total_cons, hjoined, hruns]
    simp only [total_cons, total_append]
    omega
  · rw [h.skipped_of_keeps hskip, total_perm (h.release_perm hskip), total_cons, total_nil]
    exact h.around.total_joined

/-- The page after a block was freed: what it has lost are the nodes that were cut off. -/
theorem Freeable.freed_bytes (h : Freeable pg t) :
    (pg.freed t).bytes + total (pg.skipped t) = pg.bytes + t.len := by
  have hge := h.cls.ge
  have hle := h.cls.le
  have hpb : pageBytes = 65536 := rfl
  have hrel := h.total_release
  have hcls : pg.cls ≠ 0 := by omega
  unfold Page.freed
  split_ifs with hall
  · have hjoined := h.around.total_joined
    have herase := total_erase h.joined_mem_release
    rw [(h.whole_of_len hall).2, total_nil] at hjoined
    simp only [Page.bytes, if_true, if_neg hcls]
    omega
  · simp only [Page.bytes, if_neg hcls]
    omega

/-- A page without its first free block. -/
theorem Page.pop_bytes (hv : pg.Valid) (hruns : pg.runs ≠ []) :
    pg.pop.bytes + pg.cls = pg.bytes := by
  obtain ⟨r, rest, hrest⟩ := List.exists_cons_of_ne_nil hruns
  have hr : r ∈ pg.runs := by rw [hrest]; simp
  have hge := (hv.sizeClass_of_mem hr).ge
  have hcls : pg.cls ≠ 0 := by omega
  have hlen := (hv.run r hr).bounds.2.1
  unfold Page.pop Page.bytes
  simp only [hrest, if_neg hcls]
  split_ifs with heq
  · rw [total_cons]
    omega
  · simp only [total_cons]
    omega

theorem Page.fresh_bytes {cpu base c : ℕ} (hc : SizeClass c) :
    (Page.fresh cpu base c).bytes + c = pageBytes := by
  have hge := hc.ge
  have hle := hc.le
  have hpb : pageBytes = 65536 := rfl
  have hcls : c ≠ 0 := by omega
  simp only [Page.bytes, Page.fresh, if_neg hcls, total_cons, total_nil]
  omega

end Pages

section Steps

variable {p : Platform} {sh sh' : Shape} {live : List Block} {cpu c a n size : ℕ} {b : Block}
  {w w' : World} {m m' : Model} {r : Region} {pg : Page} {P₁ P₂ : List Page} {cmd : Cmd}
  {cmds : List Cmd}

/-- A change of one page. -/
theorem Shape.bytes_onPage (hs : Sound p sh live) (hpg : pg ∈ sh.pages) (f : Page → Page) :
    (sh.onPage pg.base f).bytes + pg.bytes = sh.bytes + (f pg).bytes := by
  obtain ⟨P₁, P₂, hpages⟩ := List.append_of_mem hpg
  rw [Shape.onPage_eq hs.bases_nodup hpages]
  simp only [Shape.bytes, hpages, List.map_append, List.map_cons, List.sum_append, List.sum_cons]
  omega

/-- A change of one node. -/
theorem Shape.bytes_onNode (hs : Sound p sh live) (hr : r ∈ sh.free) (l : List Region) :
    (sh.onNode r l).bytes + r.len = sh.bytes + total l := by
  obtain ⟨l₁, l₂, hfree⟩ := List.append_of_mem hr
  rw [Shape.onNode_eq hs.free_nodup hfree]
  simp only [Shape.bytes, hfree, total_append, total_cons]
  omega

theorem total_afterPage (h : pageBytes ≤ r.len) : total (afterPage r) + pageBytes = r.len := by
  unfold afterPage
  split_ifs with hlen
  · rw [total_nil]
    omega
  · simp only [total_cons, total_nil]
    omega

theorem Shape.Sound.bytes_allocSmall (hs : Sound p sh live) (hc : SizeClass c)
    (h : sh.allocSmall cpu c = some (a, sh')) : sh'.bytes + c = sh.bytes := by
  have hfresh : ∀ base, (Page.fresh cpu base c).bytes + c = pageBytes := fun _ =>
    Page.fresh_bytes hc
  unfold Shape.allocSmall at h
  split at h
  · next pg hpg =>
    obtain ⟨-, rfl, hruns⟩ : Serves cpu c pg := by simpa using List.find?_some hpg
    have hmem := List.mem_of_find?_eq_some hpg
    cases h
    have hpage := Shape.bytes_onPage hs hmem Page.pop
    have hpop := Page.pop_bytes (hs.pages pg hmem).1 hruns
    omega
  · split at h
    · next pg hpg =>
      obtain ⟨-, hcls⟩ : Vacant cpu pg := by simpa using List.find?_some hpg
      cases h
      have hpage := Shape.bytes_onPage hs (List.mem_of_find?_eq_some hpg)
        fun _ => Page.fresh cpu pg.base c
      have hempty : pg.bytes = pageBytes := by rw [Page.bytes, if_pos hcls]
      have := hfresh pg.base
      omega
    · split at h
      · next r hr =>
        have hfit : pageBytes ≤ r.len := by simpa using List.find?_some hr
        cases h
        have hnode := Shape.bytes_onNode hs (List.mem_of_find?_eq_some hr) (afterPage r)
        have hafter := total_afterPage hfit
        have := hfresh r.start
        simp only [Shape.bytes, List.map_cons, List.sum_cons] at hnode ⊢
        rw [show (sh.onNode r (afterPage r)).pages = sh.pages from rfl] at hnode
        omega
      · cases h

theorem Shape.Sound.bytes_allocHuge (hs : Sound p sh live)
    (hroom : ∀ r ∈ highest size sh.free, size + 32 ≤ r.len)
    (h : sh.allocHuge size = some (a, sh')) : sh'.bytes + (size + headerBytes) = sh.bytes := by
  obtain ⟨r, hr, heq⟩ := Option.map_eq_some_iff.mp h
  cases heq
  have hnode := Shape.bytes_onNode hs (highest_some hr).1 [beforeBlock r size]
  have hlen := hroom r hr
  have hhb : headerBytes = 16 := rfl
  simp only [beforeBlock, total_cons, total_nil] at hnode
  simp only [beforeBlock]
  omega

/-- The bytes of a request that returns a block. -/
theorem Shape.Sound.bytes_alloc (hs : Sound p sh live)
    (hroom : 16384 < n → n ≤ 16777216 → ∀ r ∈ highest (roundSize n) sh.free,
      roundSize n + 32 ≤ r.len)
    (h : sh.alloc cpu n = some (a, sh')) : sh'.bytes + Block.bytes ⟨a, n⟩ = sh.bytes := by
  unfold Shape.alloc at h
  split_ifs at h with hn hmax
  · have hsmall : ¬ Block.Huge ⟨a, n⟩ := fun hb : 16 * 1024 < n => by omega
    rw [Block.bytes, if_neg hsmall]
    exact hs.bytes_allocSmall (sizeClass_roundSize hn) h
  · have hbig : Block.Huge ⟨a, n⟩ := show 16 * 1024 < n by omega
    rw [Block.bytes, if_pos hbig]
    exact hs.bytes_allocHuge (hroom (by omega) hmax) h

/-- What becomes of the bytes of a block that is freed. -/
theorem Shape.Sound.bytes_release (hs : Sound p sh live) (hb : b ∈ live) :
    (sh.release b).bytes + Model.lost sh b = sh.bytes + b.bytes := by
  unfold Shape.release Model.lost Block.bytes
  by_cases hbh : b.Huge
  · have hlen : headerBytes ≤ b.span.len := Nat.le_add_left _ _
    have hback := total_giveBack hs.free_nodup hlen
    simp only [if_pos hbh, Shape.bytes]
    omega
  · simp only [if_neg hbh]
    obtain ⟨pg, hpg, hhouse⟩ := hs.small b hb hbh
    have hin := hhouse.inPage hbh
    rcases find_first (P := fun y => y.base < b.addr ∧ b.addr < y.base + pageBytes) sh.pages with
      ⟨-, hnone⟩ | ⟨A, y, B, hfind, hpages, hy, -⟩
    · exact absurd hin (hnone pg hpg)
    · obtain rfl := hs.inPage_unique hpg (by rw [hpages]; simp) hin hy
      have hpage := Shape.bytes_onPage hs hpg fun y => y.freed b.region
      have hfreed := (hs.freeable hpg hbh hhouse).freed_bytes
      rw [hfind]
      simp only at hpage ⊢
      rw [show b.region.len = b.size from rfl] at hfreed
      omega

/-- A safe command keeps all bytes but those that it loses. -/
theorem Computes.step_bytes (h : Computes p w m) (hsafe : m.Safe p cmd) :
    (m.step cmd).bytes + m.forfeit cmd = m.bytes := by
  obtain ⟨s, live⟩ := w
  obtain ⟨sh, l⟩ := m
  obtain ⟨hinv, rfl, -⟩ := h
  have hs : Sound p sh live := hinv.sound
  cases cmd with
  | alloc cpu n =>
    obtain ⟨-, -, hroom⟩ := hsafe
    cases halloc : sh.alloc cpu n with
    | none => simp only [Model.step, Model.forfeit, halloc, Nat.add_zero]
    | some r =>
      have hbytes := hs.bytes_alloc hroom halloc
      simp only [Model.step, Model.forfeit, halloc, Model.bytes, List.map_cons, List.sum_cons]
      omega
  | free cpu a =>
    cases hb : live.find? fun b => decide (b.addr = a) with
    | none => simp only [Model.step, Model.forfeit, hb, Nat.add_zero]
    | some b =>
      have hbm : b ∈ live := List.mem_of_find?_eq_some hb
      have hbytes := hs.bytes_release hbm
      have hlive := ((List.perm_cons_erase hbm).map Block.bytes).sum_eq
      rw [List.map_cons, List.sum_cons] at hlive
      simp only [Model.step, Model.forfeit, hb, Model.bytes]
      omega
  | write a v => rfl

/-- A safe run keeps all bytes but those that its commands lose. -/
theorem Computes.run_bytes (h : Computes p w m) (hrun : m.run p cmds = some m') :
    m'.bytes + m.forfeited cmds = m.bytes := by
  induction cmds generalizing w m with
  | nil =>
    cases hrun
    rfl
  | cons c cmds ih =>
    rw [Model.run_cons] at hrun
    split_ifs at hrun with hsafe
    obtain ⟨u, -, hcomp⟩ := h.step hsafe
    have hstep := h.step_bytes hsafe
    have hrest := ih hcomp hrun
    unfold Model.forfeited
    omega

theorem Model.boot_bytes (p : Platform) : (Model.boot p).bytes = p.recorded.toNat := by
  simp [Model.bytes, Shape.bytes, Model.boot, bootShape]

/-- At the end of every run that avoids what the source gets wrong, the free nodes and the pages
in memory and the live blocks have all bytes of the first node but those that its calls of
`kfree` have lost. -/
theorem bytes_accounted (hlen : (headerBytes : ℤ) ≤ p.recorded) (hw : Booted p w)
    (ht : (allocator p).Trace (MixedRun p) w cmds w') :
    ∃ m, (Model.boot p).run p (calls cmds) = some m ∧ Computes p w' m ∧
      m.bytes + (Model.boot p).forfeited (calls cmds) = p.recorded.toNat := by
  have hcomp := Computes.booted hlen hw
  obtain ⟨m, hrun, hcomp'⟩ := hcomp.trace ht
  exact ⟨m, hrun, hcomp', (hcomp.run_bytes hrun).trans (Model.boot_bytes p)⟩

/-- The first of two large blocks is freed; its header is lost. -/
theorem bytes_accounted_run : ∃ (w : World) (m : Model),
    w.live = [⟨0x167ff0, 20000⟩] ∧ Computes halfMega w m ∧
      m.bytes + headerBytes = halfMega.recorded.toNat := by
  have hrun : (runFrom halfMega (MixedRun halfMega) blank
      [.alloc 0 40000, .write 0x170000 7, .alloc 1 20000, .free 0 0x170000]).map World.live =
        some [⟨0x167ff0, 20000⟩] := by decide +kernel
  have hlost : (Model.boot halfMega).forfeited
      [.alloc 0 40000, .alloc 1 20000, .free 0 0x170000] = headerBytes := by decide +kernel
  obtain ⟨w', hw', hlive⟩ := Option.map_eq_some_iff.mp hrun
  obtain ⟨w, hw, ht⟩ := trace_of_runFrom hw'
  obtain ⟨m, -, hmodel, hbytes⟩ := bytes_accounted (by decide) hw ht
  exact ⟨w', m, hlive, hmodel, hlost ▸ hbytes⟩

end Steps
end KmallocKfree
