import KmallocKfree.Atomicity
import KmallocKfree.LargeRuns
import KmallocKfree.LockDiscipline
import KmallocKfree.ModelRuns

/-!
# The sections under the heap lock

`kalloc` of a large block is one section under `heap_lock`. `kfree` of a large block takes
and releases the lock of its CPU's page list first, for a scan of page lists that are empty
when there are no pages. A section touches the nodes of the heap free list, the node or the
header that it makes, and the freed block, so no byte of a block that stays live.
-/
namespace KmallocKfree

open Prog Region Shape

/-- `kfreeHuge` behind the release of the page list. -/
def hugeSection (ptr : ℕ) : Code Unit := do
  lock .heapLock
  let header := subPtr ptr headerBytes
  let h ← getGlobal .head
  let magic ← Header.magic header
  check .headerMagic (magic = hugeMagic)
  let size ← Header.size header
  let size := toSize size
  let again ← Header.size header
  memset0 .bytes (subPtr ptr headerBytes) (addPtr (toSize again) headerBytes)
  let near ← neighbours Freenode.next header h
  let merges ← endsAt Freenode.size near.1 header
  if merges = true then hugeMergeBefore ptr size near.1 near.2
  else if addPtr ptr size = near.2 then hugeMergeAfter header size near.2
  else hugePushNode header size
  unlock .heapLock

/-- What a large call does under the heap lock, with its answer. -/
def Call.underLock : Call → Code ℕ
  | .alloc n => kallocHugeMemory (roundSize n)
  | .free ptr => do
    hugeSection ptr
    pure 0

/-- A request above 16 KiB, of at most 16 MiB, or a `kfree`. -/
def Call.Large : Call → Prop
  | .alloc n => 16384 < n ∧ n ≤ 16777216
  | .free ptr => ptr ≠ 0

/-- The page lists are empty and stay so. -/
def emptyLists (p : Platform) : Global → Option ℕ
  | .head => none
  | .pagehead cpu => if cpu < p.cpuCount then some 0 else none

theorem emptyLists_eq {p : Platform} {f : Global → ℕ} {x : Global} {v : ℕ}
    (h : ∀ cpu < p.cpuCount, f (.pagehead cpu) = 0) (hx : emptyLists p x = some v) : f x = v := by
  cases x with
  | head => cases hx
  | pagehead cpu =>
    simp only [emptyLists] at hx
    split_ifs at hx with hcpu
    cases hx
    exact h cpu hcpu

section Syntax

/-- The program takes and releases no lock. -/
abbrev Lockless {α : Type} (c : Code α) : Prop := c.All (Op.Within .heapLock)

variable {α β : Type} {k : Struct} {x y z off n v : ℕ} {i : ℤ}

theorem lockless_perform {o : Op Struct Global Lock} (ho : o.Within .heapLock) :
    Lockless (perform o) := ⟨ho, fun _ => trivial⟩

theorem lockless_readPtr : Lockless (readPtr k x) := lockless_perform (o := .load k x 0 8) trivial

theorem lockless_readInt : Lockless (readInt k x off) :=
  all_bind (lockless_perform (o := .load k x off 4) trivial) fun _ => trivial

theorem lockless_writePtr : Lockless (writePtr k x v) :=
  all_bind (lockless_perform (o := .store k x 0 8 v) trivial) fun _ => trivial

theorem lockless_writeInt : Lockless (writeInt k x off i) :=
  all_bind (lockless_perform (o := .store k x off 4 (toWord i)) trivial) fun _ => trivial

theorem lockless_memset0 : Lockless (memset0 k x n) :=
  all_bind (lockless_perform (o := .fill k x n) trivial) fun _ => trivial

theorem lockless_getGlobal {g : Global} : Lockless (getGlobal g) :=
  lockless_perform (o := .get g) trivial

theorem lockless_setGlobal {g : Global} : Lockless (setGlobal g v) :=
  all_bind (lockless_perform (o := .set g v) trivial) fun _ => trivial

theorem lockless_highestFit : Lockless (highestFit n x) := by
  apply all_walk
  · intro a b
    refine all_bind lockless_readInt fun w => ?_
    split_ifs <;> trivial
  · intro a
    exact lockless_readPtr

theorem lockless_neighbours : Lockless (neighbours (readPtr k) x y) := by
  apply all_walk
  · intro a b
    trivial
  · intro a
    exact lockless_readPtr

theorem lockless_predecessor : Lockless (predecessor (readPtr k) x y) := by
  apply all_walk
  · intro a b
    refine all_bind lockless_readPtr fun w => ?_
    split_ifs <;> trivial
  · intro a
    exact lockless_readPtr

theorem lockless_endsAt : Lockless (endsAt (fun q => readInt k q 8) x y) := by
  unfold endsAt
  split_ifs
  · exact all_bind lockless_readInt fun _ => trivial
  · trivial

theorem lockless_hugeUnlink : Lockless (hugeUnlink x) := by
  refine all_bind lockless_getGlobal fun h => all_bind lockless_predecessor fun pre => ?_
  split_ifs
  · exact all_bind lockless_readPtr fun _ => lockless_writePtr
  · exact all_bind lockless_getGlobal fun _ => all_bind lockless_readPtr fun _ =>
      lockless_setGlobal

theorem lockless_hugeMergeBefore : Lockless (hugeMergeBefore x n y z) := by
  refine all_bind lockless_readInt fun a => all_bind lockless_writeInt fun _ => ?_
  split_ifs
  · exact all_bind lockless_readInt fun _ => all_bind lockless_readInt fun _ =>
      all_bind lockless_writeInt fun _ => lockless_hugeUnlink
  · trivial

theorem lockless_hugeMergeAfter : Lockless (hugeMergeAfter x n y) :=
  all_bind lockless_readInt fun _ => all_bind lockless_writeInt fun _ =>
    all_bind lockless_getGlobal fun _ => all_bind lockless_writePtr fun _ =>
    all_bind lockless_setGlobal fun _ => all_bind lockless_predecessor fun _ =>
    all_bind lockless_readPtr fun _ => lockless_writePtr

theorem lockless_hugePushNode : Lockless (hugePushNode x n) :=
  all_bind lockless_writeInt fun _ => all_bind lockless_getGlobal fun _ =>
    all_bind lockless_writePtr fun _ => lockless_setGlobal

theorem lockless_firstFit : Lockless (firstFit x) := by
  apply all_walk
  · intro a b
    refine all_bind lockless_readInt fun w => ?_
    split_ifs <;> trivial
  · intro a
    exact lockless_readPtr

theorem lockless_takeWholeNode : Lockless (takeWholeNode x y) := by
  unfold takeWholeNode
  split_ifs
  · exact all_bind lockless_readPtr fun _ => all_bind (all_check _ _) fun _ =>
      all_bind lockless_readPtr fun _ => lockless_writePtr
  · exact all_bind lockless_getGlobal fun _ => all_bind (all_check _ _) fun _ =>
      all_bind lockless_readPtr fun _ => lockless_setGlobal

theorem lockless_splitNode : Lockless (splitNode x y) := by
  refine all_bind lockless_readInt fun _ => all_bind (all_check _ _) fun _ =>
    all_bind lockless_readPtr fun _ => all_bind lockless_writePtr fun _ =>
    all_bind lockless_readInt fun _ => all_bind lockless_writeInt fun _ => ?_
  split_ifs
  · exact all_bind lockless_getGlobal fun _ => all_bind (all_check _ _) fun _ => lockless_setGlobal
  · exact all_bind lockless_readPtr fun _ => all_bind (all_check _ _) fun _ => lockless_writePtr

/-- The release ends the section. -/
theorem critical_unlock (a : α) :
    Critical .heapLock (do unlock .heapLock; pure a : Code α) := ⟨rfl, rfl, a, rfl⟩

theorem exists_page_section : ∃ k : ℕ → Code ℕ,
    allockpage = .op (.acquire .heapLock) k ∧ Critical .heapLock (k 0) := by
  refine ⟨_, rfl, ⟨rfl, fun w => ?_⟩⟩
  refine critical_bind (all_check _ _) fun _ => ?_
  refine critical_bind lockless_getGlobal fun h => ?_
  refine critical_bind lockless_firstFit fun fit => ?_
  split_ifs
  · refine critical_bind lockless_readInt fun size => ?_
    split_ifs
    · exact critical_bind lockless_takeWholeNode fun _ => critical_bind lockless_memset0 fun _ =>
        critical_unlock _
    · exact critical_bind lockless_splitNode fun _ => critical_bind lockless_memset0 fun _ =>
        critical_unlock _
  · exact critical_unlock _

theorem exists_alloc_section (n : ℕ) : ∃ k : ℕ → Code ℕ,
    kallocHugeMemory n = .op (.acquire .heapLock) k ∧ Critical .heapLock (k 0) := by
  refine ⟨_, rfl, ⟨rfl, fun w => ?_⟩⟩
  refine critical_bind (all_check _ _) fun _ => ?_
  refine critical_bind lockless_getGlobal fun h => ?_
  refine critical_bind lockless_highestFit fun node => ?_
  split_ifs
  · exact critical_bind lockless_readInt fun _ => critical_bind lockless_writeInt fun _ =>
      critical_bind lockless_writeInt fun _ => critical_bind lockless_writeInt fun _ =>
      critical_unlock _
  · exact critical_unlock _

theorem exists_free_section (ptr : ℕ) : ∃ k : ℕ → Code Unit,
    hugeSection ptr = .op (.acquire .heapLock) k ∧ Critical .heapLock (k 0) := by
  refine ⟨_, rfl, ⟨rfl, fun w => ?_⟩⟩
  refine critical_bind (all_check _ _) fun _ => ?_
  refine critical_bind lockless_getGlobal fun h => ?_
  refine critical_bind lockless_readInt fun magic => ?_
  refine critical_bind (all_check _ _) fun _ => ?_
  refine critical_bind lockless_readInt fun size => ?_
  refine critical_bind lockless_readInt fun again => ?_
  refine critical_bind lockless_memset0 fun _ => ?_
  refine critical_bind lockless_neighbours fun near => ?_
  refine critical_bind lockless_endsAt fun merges => ?_
  split_ifs
  · exact critical_bind lockless_hugeMergeBefore fun _ => critical_unlock ()
  · exact critical_bind lockless_hugeMergeAfter fun _ => critical_unlock ()
  · exact critical_bind lockless_hugePushNode fun _ => critical_unlock ()

/-- What a call does under the heap lock is a section. -/
theorem Call.exists_section (c : Call) : ∃ k : ℕ → Code ℕ,
    c.underLock = .op (.acquire .heapLock) k ∧ Critical .heapLock (k 0) := by
  cases c with
  | alloc n => exact exists_alloc_section (roundSize n)
  | free ptr =>
    obtain ⟨k, hk, hcrit⟩ := exists_free_section ptr
    refine ⟨fun v => k v >>= fun _ => pure 0, ?_, hcrit.map fun _ => 0⟩
    change (hugeSection ptr >>= fun _ => pure 0) = _
    rw [hk]
    rfl

end Syntax

section Opening

variable {p : Platform} {cpu ptr n : ℕ}

theorem scanPagelist_empty : scanPagelist ptr 0 = .ret (0, false) := by
  obtain ⟨m, hm⟩ : ∃ m, loopBound = m + 1 := ⟨loopBound - 1, by have := one_lt_loopBound; omega⟩
  unfold scanPagelist walk
  rw [hm]
  rfl

/-- The scan of empty page lists finds nothing. -/
theorem leads_scanCpus {i : ℕ} (hin : i + n ≤ p.cpuCount) :
    Leads (.pagelist cpu) (emptyLists p) true true (scanCpus ptr n i) (.ret (0, false)) := by
  induction n generalizing i with
  | zero => exact .here
  | succ n ih =>
    have hlist : emptyLists p (.pagehead i) = some 0 := if_pos (by omega)
    have hrest : Leads (.pagelist cpu) (emptyLists p) true true
        (do
          let found ← scanPagelist ptr 0
          if found.2 = true then pure found else scanCpus ptr n (i + 1)) (.ret (0, false)) := by
      rw [scanPagelist_empty]
      exact ih (by omega)
    exact .get hlist hrest

theorem leads_lock {l : Lock} {const : Global → Option ℕ} :
    Leads l const false true (lock l) (.ret ()) := .acquire (.peek .here)

theorem leads_unlock {l : Lock} {const : Global → Option ℕ} :
    Leads l const true false (unlock l) (.ret ()) := .put .here

/-- A large call leads to its section. -/
theorem Call.leads {c : Call} (hc : c.Large) : Leads (.pagelist cpu) (emptyLists p) false false
    (c.run p cpu) c.underLock := by
  cases c with
  | alloc n =>
    change Leads _ _ _ _ (kalloc p cpu n) _
    rw [kalloc_huge hc.1 hc.2]
    exact .here
  | free ptr =>
    refine Leads.followed ?_ fun _ => pure 0
    have hcheck : (check .ptrNotNull (ptr ≠ 0) : Code Unit) = .ret () := if_pos hc
    unfold kfree
    rw [hcheck]
    refine Leads.bind .here (leads_lock.bind ((leads_scanCpus (Nat.zero_add _).le).bind ?_))
    exact leads_unlock.bind .here

end Opening

/-- What a section touches: bytes of the nodes, and `head`. -/
def sectionFoot (nodes : List Region) (cpu : ℕ) : Footprint Struct Global Lock where
  reads x := ∃ r ∈ nodes, r.node.Contains x
  writes x := ∃ r ∈ nodes, r.node.Contains x
  derefs _ _ := True
  gets x := x = .head
  sets x := x = .head
  locks l := l = .heapLock ∨ l = .pagelist cpu

/-- The command that a call on `cpu` is. -/
def Call.cmd (cpu : ℕ) : Call → Cmd
  | .alloc n => .alloc cpu n
  | .free ptr => .free cpu ptr

/-- What the call returns when CPU `cpu` makes it alone in `w`. -/
def Call.answer (p : Platform) (w : World) (cpu : ℕ) (c : Call) : Option ℕ :=
  match Prog.exec (c.run p cpu) w.st with
  | .ok (a, _) => some a
  | .error _ => none

/-- The live blocks before a call that returns `a`, and after it. -/
def Call.Settles (a : ℕ) (live live' : List Block) : Call → Prop
  | .alloc n => live' = if a = 0 then live else ⟨a, n⟩ :: live
  | .free ptr => ∃ b ∈ live, b.addr = ptr ∧ live' = live.erase b

section Footprints

variable {p : Platform} {sh : Shape} {live : List Block} {s : PmmState} {w : World} {m : Model}
  {cpu n q x : ℕ} {nodes : List Region} {r : Region} {b : Block} {k : Struct} {c : Call}

theorem sectionFoot_owns (hr : r ∈ nodes) (hq : q ≠ 0) (hin : Within ⟨q, n⟩ r.node) :
    (sectionFoot nodes cpu).Owns k q n where
  ne_null := hq
  derefs := trivial
  reads _ hy hy' := ⟨r, hr, contains_of_within hin hy hy'⟩
  writes _ hy hy' := ⟨r, hr, contains_of_within hin hy hy'⟩

theorem sectionFoot_node (hr : r ∈ nodes) (hpos : 0 < r.start) :
    (sectionFoot nodes cpu).Owns k r.start 16 :=
  sectionFoot_owns hr hpos.ne' (node_record r)

/-- A page is cut off under the heap lock. -/
theorem wp_page_section {l₁ l₂ : List Region} (hs : Sound p sh live)
    (hl : FreeList s.mem (s.var .head) sh.free 0) (hlock : s.lock .heapLock = 0)
    (hfree : sh.free = l₁ ++ r :: l₂) (hsmall : ∀ x ∈ l₁, x.len < pageBytes)
    (hfit : pageBytes ≤ r.len) (hroom : r.len = pageBytes ∨ pageBytes + headerBytes ≤ r.len) :
    wp (sectionFoot sh.free cpu).Allows allockpage s fun page s' =>
      page = r.start ∧ FreeList s'.mem (s'.var .head) (l₁ ++ afterPage r ++ l₂) 0 ∧
        s'.lock = s.lock ∧ ∀ x, r.start ≤ x → x < r.start + headerBytes → s'.mem x = 0 := by
  have hr : r ∈ sh.free := by rw [hfree]; simp
  have hlimit := p.limit_max
  have hstop := (hs.free r hr).2.2
  have hcount := hs.free_count
  have hsep := hs.separated
  rw [hfree] at hl hcount hsep
  have howns : ∀ x ∈ l₁ ++ r :: l₂, (sectionFoot sh.free cpu).Owns .freenode x.start 16 := by
    intro x hx
    rw [← hfree] at hx
    exact sectionFoot_node hx (hs.free_pos hx)
  refine wp_allockpage hl hlock (.inl rfl) (.of_owns howns rfl rfl) hcount hsep hsmall hfit
    (by omega) fun hne => ?_
  have hlong := hroom.resolve_left hne
  have hin : Within ⟨r.start + pageBytes, headerBytes⟩ r.node := by
    unfold Within Region.node Region.stop
    simp only
    omega
  refine ⟨sectionFoot_owns hr (by unfold pageBytes; omega) hin, fun x hx => ?_⟩
  have hxr : x ≠ r := by
    rintro rfl
    exact (hsep.apart hx).ne rfl
  have hx' : x ∈ sh.free := by
    rw [hfree]
    simp only [List.mem_append, List.mem_cons] at hx ⊢
    tauto
  have hd := (hs.node_disj hr hx' hxr.symm).mono hin
  unfold Disj Region.node Region.stop headerBytes at hd
  unfold Apart
  simp only at hd
  omega

/-- Without a node that can hold a page, nothing changes under the heap lock. -/
theorem wp_page_refused (hs : Sound p sh live) (hl : FreeList s.mem (s.var .head) sh.free 0)
    (hlock : s.lock .heapLock = 0) (hsmall : ∀ x ∈ sh.free, x.len < pageBytes) :
    wp (sectionFoot sh.free cpu).Allows allockpage s fun page s' => page = 0 ∧ s' = s := by
  refine wp_allockpage_none hl.path (fun x hx => ?_) (by rw [List.length_map]; exact hs.free_count)
    hlock (.inl rfl) rfl fun x hx => ?_
  · obtain ⟨r, hr, rfl⟩ := List.mem_map.mp hx
    exact (sectionFoot_node hr (hs.free_pos hr)).toSees
  · obtain ⟨r, hr, rfl⟩ := List.mem_map.mp hx
    rw [hl.size r hr]
    exact_mod_cast hsmall r hr

/-- A large request under the heap lock. -/
theorem wp_alloc_section (hs : Sound p sh live) (hl : FreeList s.mem (s.var .head) sh.free 0)
    (hlock : s.lock .heapLock = 0) (hbig : 16384 < n) (hmax : n ≤ 16777216)
    (hroom : ∀ r, HighestFit sh.free (roundSize n) r → roundSize n + 32 ≤ r.len) :
    wp (sectionFoot sh.free cpu).Allows (kallocHugeMemory (roundSize n)) s fun ret s' =>
      s'.lock = s.lock ∧ s'.var = s.var ∧
      ((ret = 0 ∧ s' = s ∧ ∀ r ∈ sh.free, r.len < roundSize n) ∨
        ∃ l₁ r l₂, sh.free = l₁ ++ r :: l₂ ∧ HighestFit sh.free (roundSize n) r ∧
          ret = r.stop - roundSize n ∧
          FreeList s'.mem (s.var .head) (l₁ ++ beforeBlock r (roundSize n) :: l₂) 0 ∧
          sizeAt s'.mem (ret - headerBytes) = roundSize n ∧
          wordAt s'.mem (ret - headerBytes) = toWord hugeMagic) := by
  have hsize := roundSize_huge hbig hmax
  have hlimit := p.limit_max
  refine wp_kallocHugeMemory hl hlock (.inl rfl) rfl
    (fun x hx => sectionFoot_node hx (hs.free_pos hx)) hs.free_count hs.separated (by omega)
    (fun x hx => lt_of_le_of_lt (hs.free x hx).2.2 hlimit) hroom fun x hx => ?_
  have hlen := hroom x hx
  have hpos := hs.free_pos hx.1
  have hin : Within ⟨x.stop - roundSize n - headerBytes, headerBytes⟩ x.node := by
    unfold Within Region.node Region.stop headerBytes
    simp only
    omega
  refine ⟨sectionFoot_owns hx.1 ?_ hin, fun t ht hne => ?_⟩
  · unfold Region.stop headerBytes
    omega
  · have hd := (hs.node_disj hx.1 ht hne.symm).mono hin
    unfold Disj Region.node Region.stop headerBytes at hd
    unfold Apart Region.stop headerBytes
    simp only at hd
    omega

/-- A large block is given back under the heap lock. -/
theorem wp_free_section (hs : Sound p sh live) (hl : FreeList s.mem (s.var .head) sh.free 0)
    (hlock : s.lock .heapLock = 0) (hpages : s.lock (.pagelist cpu) = 0) (hb : b ∈ live)
    (hhuge : b.Huge) (hlong : ∀ r ∈ sh.free, headerBytes ≤ r.len)
    (hheadsize : sizeAt s.mem b.span.start = b.size)
    (hmagic : wordAt s.mem b.span.start = toWord hugeMagic) :
    wp (sectionFoot (sh.free ++ [b.span]) cpu).Allows (hugeSection b.addr) s fun _ s' =>
      FreeList s'.mem (s'.var .head) (giveBack b.span sh.free) 0 ∧ s'.lock = s.lock := by
  have hsound : Sound p sh (b :: live.erase b) := hs.perm (List.perm_cons_erase hb)
  obtain ⟨hreq, haddr, hend⟩ := hs.huge b hb hhuge
  have hsize := b.size_pos hreq
  have hmax := p.limit_max
  have hlim := p.limit_lt
  have hstart := p.heapStart_pos
  have hpos : 0 < b.span.start := by
    unfold Block.span
    simp only
    omega
  have hspan : b.span ∈ sh.free ++ [b.span] := by simp
  have hbytes : (sectionFoot (sh.free ++ [b.span]) cpu).Owns .bytes b.span.start b.span.len :=
    sectionFoot_owns hspan hpos.ne' (Region.within_node _)
  have hheap : (s.setLock (.pagelist cpu) 1).lock .heapLock = 0 := pagelist_ne_heap hlock
  have hrun := wp_kfreeHuge (F := sectionFoot (sh.free ++ [b.span]) cpu)
    (s := s.setLock (.pagelist cpu) 1) hl hheap (.inl rfl) (.inr rfl) rfl rfl
    (fun x hx => sectionFoot_node (List.mem_append_left _ hx) (hs.free_pos hx))
    (hsound.free_count_huge hhuge) hlong rfl (by unfold headerBytes at *; omega)
    (hsound.around hhuge) hlim hmax (sectionFoot_node hspan hpos) (sectionFoot_node hspan hpos)
    hbytes hheadsize hmagic
  have hway : Leads (.pagelist cpu) (fun _ => none) true false (kfreeHuge cpu b.addr)
      (hugeSection b.addr) := leads_unlock.bind .here
  have hsection := hway.wp (by simp) (fun _ _ h => by cases h) hrun
  have hself : s.setLock (.pagelist cpu) 0 = s := by
    have h := s.setLock_self (.pagelist cpu)
    rwa [hpages] at h
  rw [Store.setLock_setLock, Bool.toNat_false, hself] at hsection
  refine wp_post hsection ?_
  rintro _ s' ⟨hlist, hlocks⟩
  rw [Store.setLock_setLock, hself] at hlocks
  exact ⟨hlist, hlocks⟩

/-- Without pages all live blocks are large, and all page lists are empty. -/
structure Pageless (p : Platform) (w : World) : Prop where
  huge : ∀ b ∈ w.live, b.Huge
  heads : ∀ cpu < p.cpuCount, w.st.var (.pagehead cpu) = 0

theorem Inv.pageless (h : Inv p w sh) (hpages : sh.pages = []) : Pageless p w where
  huge b hb := by
    by_contra hsmall
    obtain ⟨pg, hpg, -⟩ := h.sound.small b hb hsmall
    rw [hpages] at hpg
    cases hpg
  heads cpu hcpu := by
    have hpath := h.holds.lists cpu hcpu
    unfold Shape.pagesOf at hpath
    rw [hpages] at hpath
    exact hpath

/-- No byte of the block is in the footprint. -/
def Spares (F : Footprint Struct Global Lock) (b : Block) : Prop :=
  ∀ x, b.region.Contains x → ¬ F.reads x ∧ ¬ F.writes x

theorem sectionFoot_spares (h : ∀ r ∈ nodes, r.node.Disj b.region) :
    Spares (sectionFoot nodes cpu) b := by
  intro x hx
  have hnot : ¬ ∃ r ∈ nodes, r.node.Contains x := by
    rintro ⟨r, hr, hrx⟩
    exact (h r hr).not_contains hrx hx
  exact ⟨hnot, hnot⟩

/-- A safe large call runs its section to the end, and touches no block that stays live. -/
theorem Computes.section (h : Computes p w m) (hpages : m.shape.pages = []) (hc : c.Large)
    (hsafe : m.Safe p (c.cmd cpu)) {k : ℕ → Code ℕ}
    (hk : c.underLock = .op (.acquire .heapLock) k) (hcrit : Critical .heapLock (k 0)) :
    ∃ F a w', w.exec p (c.cmd cpu) = some w' ∧ Computes p w' (m.step (c.cmd cpu)) ∧
      c.answer p w cpu = some a ∧ c.Settles a w.live w'.live ∧
      (∀ b ∈ w.live, c ≠ .free b.addr → Spares F b) ∧
      (∀ x, F.sets x → x = .head) ∧
      Finishes (F.only .heapLock) (k 0) (w.st.setLock .heapLock 1) a w'.st := by
  obtain ⟨s, live⟩ := w
  obtain ⟨w', hexec, hcomp⟩ := h.step hsafe
  have hinv := h.inv
  have hs : Sound p m.shape live := hinv.sound
  have hless := hinv.pageless hpages
  have hclear : ∀ r ∈ m.shape.free, ∀ b ∈ live, r.node.Disj b.region := fun r hr b hb =>
    hs.disj_all (fun pg hpg => hs.free_page hr hpg) (fun c hc hch => hs.free_huge hr hc hch) hb
  cases c with
  | alloc n =>
    obtain ⟨hcpu, a, t, hrun, rfl⟩ := exec_alloc_some hexec
    have hanswer : Call.answer p ⟨s, live⟩ cpu (.alloc n) = some a := by
      rw [Call.answer, Call.run, hrun]
    refine ⟨sectionFoot m.shape.free cpu, a, _, hexec, hcomp, hanswer, rfl, fun b hb _ =>
      sectionFoot_spares fun r hr => hclear r hr b hb, fun x hx => hx, ?_⟩
    have hwp : wp (sectionFoot m.shape.free cpu).Allows (kallocHugeMemory (roundSize n)) s
        fun _ _ => True :=
      wp_post (wp_alloc_section hs hinv.holds.heap hinv.unlocked.1 hc.1 hc.2
        fun r hr => hsafe.2.2 hc.1 hc.2 r (hr.computed hs)) fun _ _ _ => trivial
    have hrun : Prog.exec (Call.underLock (.alloc n)) s = .ok (a, t) := by
      rw [kalloc_huge hc.1 hc.2] at hrun
      exact hrun
    change wp _ (Call.underLock (.alloc n)) _ _ at hwp
    rw [hk] at hwp hrun
    exact finishes_behind hcrit hinv.unlocked.1 hwp hrun
  | free ptr =>
    obtain ⟨hcpu, b, t, hb, rfl, hrun, rfl⟩ := exec_free_some hexec
    have hbh := hless.huge b hb
    have hcall : Prog.exec ((Call.free b.addr).run p cpu) s = .ok (0, t) := by
      change Prog.exec (kfree p cpu b.addr >>= fun _ => pure 0) s = _
      rw [exec_bind, hrun]
      rfl
    have hanswer : Call.answer p ⟨s, live⟩ cpu (.free b.addr) = some 0 := by
      rw [Call.answer, hcall]
    refine ⟨sectionFoot (m.shape.free ++ [b.span]) cpu, 0, _, hexec, hcomp, hanswer,
      ⟨b, hb, rfl, rfl⟩, fun d hd hne => sectionFoot_spares fun r hr => ?_, fun x hx => hx, ?_⟩
    · rcases List.mem_append.mp hr with hr | hr
      · exact hclear r hr d hd
      · obtain rfl := List.mem_singleton.mp hr
        have hdb : d ≠ b := by
          rintro rfl
          exact hne rfl
        rw [Region.node_eq (Nat.le_add_left _ _)]
        exact (hs.large_apart hb hbh ((List.mem_erase_of_ne hdb).mpr hd)).1
    · have hlocks := hinv.unlocked.2 cpu hcpu
      have hrun : Prog.exec (Call.underLock (.free b.addr)) s = .ok (0, t) := by
        have hway := (Call.leads hc).exec hlocks fun _ _ => emptyLists_eq hless.heads
        rw [Bool.toNat_false, ← hlocks, Store.setLock_self] at hway
        exact hway.symm.trans hcall
      have hwp : wp (sectionFoot (m.shape.free ++ [b.span]) cpu).Allows
          (Call.underLock (.free b.addr)) s fun _ _ => True := by
        change wp _ (hugeSection b.addr >>= fun _ => pure 0) s _
        rw [wp_bind]
        obtain ⟨hsize, hmagic⟩ := hinv.holds.headers b hb hbh
        exact wp_post (wp_free_section hs hinv.holds.heap hinv.unlocked.1 hlocks hb hbh h.long
          hsize hmagic) fun _ _ _ => trivial
      rw [hk] at hwp hrun
      exact finishes_behind hcrit hinv.unlocked.1 hwp hrun

end Footprints
end KmallocKfree
