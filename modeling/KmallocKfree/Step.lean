import KmallocKfree.Kfree

/-!
# Steps of the allocator

Every command that the allocator executes from a state that holds a sound shape is a
step of the shape, as long as the step avoids the cases that the source gets wrong:
the allocator refines the machine of shapes and live blocks. The bytes of the live
blocks are the owners' own: no call changes them.
-/
namespace KmallocKfree

open Prog Region Shape

/-- The successful allocations. -/
inductive AllocStep (sh : Shape) (cpu n : ℕ) : ℕ → Shape → Prop
  | small {a : ℕ} {sh' : Shape} : n ≤ 16384 → SmallStep sh cpu (roundSize n) a sh' →
      AllocStep sh cpu n a sh'
  | huge {l₁ l₂ : List Region} {r : Region} : 16384 < n → n ≤ 16777216 →
      sh.free = l₁ ++ r :: l₂ → HighestFit sh.free (roundSize n) r →
      AllocStep sh cpu n (r.stop - roundSize n)
        ⟨l₁ ++ beforeBlock r (roundSize n) :: l₂, sh.pages⟩

/-- No place for the request. -/
def Refused (sh : Shape) (cpu n : ℕ) : Prop :=
  (n ≤ 16384 → SmallRefused sh cpu (roundSize n)) ∧
    (16384 < n → n ≤ 16777216 → ∀ r ∈ sh.free, r.len < roundSize n)

inductive FreeStep (sh : Shape) (b : Block) : Shape → Prop
  | small {P₁ P₂ : List Page} {pg : Page} : ¬ b.Huge → sh.pages = P₁ ++ pg :: P₂ →
      Houses pg b → FreeStep sh b ⟨sh.free, P₁ ++ pg.freed b.region :: P₂⟩
  | huge : b.Huge → FreeStep sh b ⟨giveBack b.span sh.free, sh.pages⟩

/-- The commands as steps of the shape and the live blocks. -/
inductive ShapeStep (sh : Shape) (live : List Block) : Cmd → Shape → List Block → Prop
  | refuse {cpu n : ℕ} : Refused sh cpu n → ShapeStep sh live (.alloc cpu n) sh live
  | alloc {cpu n a : ℕ} {sh' : Shape} : AllocStep sh cpu n a sh' →
      ShapeStep sh live (.alloc cpu n) sh' (⟨a, n⟩ :: live)
  | free {cpu : ℕ} {b : Block} {sh' : Shape} : b ∈ live → FreeStep sh b sh' →
      ShapeStep sh live (.free cpu b.addr) sh' (live.erase b)
  | write {a : ℕ} {v : UInt8} : ShapeStep sh live (.write a v) sh live

/-- What a step does to the free list of the heap and to the places of the pages. -/
inductive HeapStep (sh : Shape) (live : List Block) : Cmd → Shape → Prop
  | same {c : Cmd} {sh' : Shape} : sh'.free = sh.free →
      sh'.pages.map Page.base = sh.pages.map Page.base → HeapStep sh live c sh'
  | page {cpu n : ℕ} {l₁ l₂ : List Region} {r : Region} {sh' : Shape} : n ≤ 16384 →
      sh.free = l₁ ++ r :: l₂ → (∀ x ∈ l₁, x.len < pageBytes) → pageBytes ≤ r.len →
      sh'.free = l₁ ++ afterPage r ++ l₂ →
      sh'.pages.map Page.base = r.start :: sh.pages.map Page.base →
      HeapStep sh live (.alloc cpu n) sh'
  | cut {cpu n : ℕ} {l₁ l₂ : List Region} {r : Region} {sh' : Shape} : 16384 < n →
      n ≤ 16777216 → sh.free = l₁ ++ r :: l₂ → HighestFit sh.free (roundSize n) r →
      sh'.free = l₁ ++ beforeBlock r (roundSize n) :: l₂ →
      sh'.pages.map Page.base = sh.pages.map Page.base → HeapStep sh live (.alloc cpu n) sh'
  | back {cpu : ℕ} {b : Block} {sh' : Shape} : b ∈ live → b.Huge →
      sh'.free = giveBack b.span sh.free →
      sh'.pages.map Page.base = sh.pages.map Page.base → HeapStep sh live (.free cpu b.addr) sh'

theorem bases_replace {sh : Shape} {P₁ P₂ : List Page} {pg pg' : Page}
    (hpages : sh.pages = P₁ ++ pg :: P₂) (hbase : pg'.base = pg.base) :
    (P₁ ++ pg' :: P₂).map Page.base = sh.pages.map Page.base := by
  rw [hpages]
  simp [hbase]

theorem ShapeStep.heap {sh sh' : Shape} {live live' : List Block} {c : Cmd}
    (h : ShapeStep sh live c sh' live') : HeapStep sh live c sh' := by
  cases h with
  | refuse _ => exact .same rfl rfl
  | write => exact .same rfl rfl
  | alloc hstep =>
    cases hstep with
    | small hn hstep =>
      cases hstep with
      | pop hpages _ _ _ => exact .same rfl (bases_replace hpages rfl)
      | recycle hpages _ _ => exact .same rfl (bases_replace hpages rfl)
      | extend hfree hsmall hfit => exact .page hn hfree hsmall hfit rfl rfl
    | huge hbig hmax hfree hfit => exact .cut hbig hmax hfree hfit rfl rfl
  | free hb hstep =>
    cases hstep with
    | small _ hpages _ => exact .same rfl (bases_replace hpages (Page.freed_base _ _))
    | huge hbh => exact .back hb hbh rfl rfl

/-- What a small and a large allocation need of the shape. -/
structure AllocOK (sh : Shape) (live : List Block) (n : ℕ) : Prop where
  small : n ≤ 16384 → RoomAfterPage sh live
  huge : 16384 < n → n ≤ 16777216 →
    ∀ r, HighestFit sh.free (roundSize n) r → roundSize n + 32 ≤ r.len

/-- What a `kfree` needs of the state and the shape. -/
structure FreeOK (p : Platform) (s : PmmState) (sh : Shape) (b : Block) : Prop where
  small : ¬ b.Huge → ¬ MergesPageHeader p s b.addr
  huge : b.Huge → ∀ r ∈ sh.free, headerBytes ≤ r.len

section Calls

variable {p : Platform} {sh sh' : Shape} {live : List Block} {s : PmmState} {cpu n a : ℕ}
  {b : Block}

theorem Shape.Sound.addr_pos (h : Sound p sh live) (hb : b ∈ live) : 0 < b.addr := by
  have hstart := p.heapStart_pos
  by_cases hbh : b.Huge
  · have := (h.huge b hb hbh).2.1
    omega
  · obtain ⟨pg, hpg, hhouse⟩ := h.small b hb hbh
    have := (hhouse.inPage hbh).1
    omega

theorem kalloc_small (hn : n ≤ 16384) : kalloc p cpu n = kallocSmall p cpu (roundSize n) := by
  unfold kalloc
  split_ifs <;> first | rfl | omega

theorem kalloc_huge (hbig : 16384 < n) (hmax : n ≤ 16777216) :
    kalloc p cpu n = kallocHugeMemory (roundSize n) := by
  unfold kalloc
  split_ifs <;> first | rfl | omega

theorem kalloc_toolarge (hmax : 16777216 < n) : kalloc p cpu n = pure 0 := by
  unfold kalloc
  split_ifs <;> first | rfl | omega

/-- A request was refused and changed nothing, or gave a block. -/
def KallocResult (p : Platform) (sh : Shape) (live : List Block) (s : PmmState) (cpu n a : ℕ)
    (s' : PmmState) : Prop :=
  (a = 0 ∧ s' = s ∧ Refused sh cpu n) ∨
    (a ≠ 0 ∧ ∃ sh', AllocStep sh cpu n a sh' ∧ Inv p ⟨s', ⟨a, n⟩ :: live⟩ sh')

theorem wp_kalloc (h : Inv p ⟨s, live⟩ sh) (hcpu : cpu < p.cpuCount) (hok : AllocOK sh live n)
    (hpage : n ≤ 16384 → sh.pagesOf cpu = [] → ∃ r ∈ sh.free, pageBytes ≤ r.len) :
    wp (callFoot sh live []).Allows (kalloc p cpu n) s (KallocResult p sh live s cpu n) := by
  have hsmall : n ≤ 16384 → wp (callFoot sh live []).Allows (kallocSmall p cpu (roundSize n)) s
      (KallocResult p sh live s cpu n) := by
    intro hn
    refine wp_post (wp_kallocSmall_inv h hcpu hn (hok.small hn) (hpage hn)) ?_
    rintro a t (⟨rfl, rfl, hrefused⟩ | ⟨sh', hstep, hinv⟩)
    · exact .inl ⟨rfl, rfl, fun _ => hrefused, fun hbig => absurd hn (by omega)⟩
    · exact .inr ⟨(hinv.sound.addr_pos List.mem_cons_self).ne', sh', .small hn hstep, hinv⟩
  rcases Nat.lt_or_ge 16384 n with hbig | hn
  · rcases Nat.lt_or_ge 16777216 n with hmax | hmax
    · rw [kalloc_toolarge hmax]
      exact .inl ⟨rfl, rfl, fun hn => absurd hn (by omega), fun _ hle => absurd hle (by omega)⟩
    · rw [kalloc_huge hbig hmax]
      refine wp_post (wp_kallocHugeMemory_inv h hbig hmax (hok.huge hbig hmax)) ?_
      rintro a t (⟨rfl, rfl, hnone⟩ | ⟨l₁, r, l₂, hfree, hfit, rfl, hinv⟩)
      · exact .inl ⟨rfl, rfl, fun hn => absurd hn (by omega), fun _ _ => hnone⟩
      · exact .inr ⟨(hinv.sound.addr_pos List.mem_cons_self).ne', _,
          .huge hbig hmax hfree hfit, hinv⟩
  · rw [kalloc_small hn]
    exact hsmall hn

/-- On an exhausted heap the first small request of a CPU stops in an assertion. -/
theorem exec_kalloc_exhausted (h : Inv p ⟨s, live⟩ sh) (hcpu : cpu < p.cpuCount)
    (hn : n ≤ 16384) (hempty : sh.pagesOf cpu = []) (hsmall : ∀ x ∈ sh.free, x.len < pageBytes) :
    Prog.exec (kalloc p cpu n) s = .error (.assertion .firstPageAllocated) := by
  have hpath := h.holds.lists cpu hcpu
  rw [hempty] at hpath
  rw [kalloc_small hn]
  have hpage : wp (callFoot sh live []).Allows allockpage (s.setLock (.pagelist cpu) 1)
      fun page s' => page = 0 ∧ s' = s.setLock (.pagelist cpu) 1 :=
    wp_allockpage_refused h.sound h.holds (pagelist_ne_heap h.unlocked.1) hsmall
  exact exec_kallocSmall_nopage hcpu hpath (h.unlocked.2 cpu hcpu) (exec_of_wp hpage) _

/-- Where a freed block becomes a node: a large one at its header. -/
def Block.nodeAddr (b : Block) : ℕ := if b.Huge then b.span.start else b.addr

/-- `kfree` of a live block; `T` lists the page headers that it uses as free nodes. -/
theorem wp_kfree (h : Inv p ⟨s, live⟩ sh) (hcpu : cpu < p.cpuCount) (hb : b ∈ live)
    (hok : FreeOK p s sh b) :
    ∃ T, ((∀ pg ∈ sh.pages, Houses pg b → pg.runs ≠ [] ∧ pg.looped = false) → T = []) ∧
      wp (callFoot sh (live.erase b) (b.nodeAddr :: T)).Allows (kfree p cpu b.addr) s
        fun _ s' => ∃ sh', FreeStep sh b sh' ∧ Inv p ⟨s', live.erase b⟩ sh' := by
  by_cases hbh : b.Huge
  · refine ⟨[], fun _ => rfl, ?_⟩
    rw [Block.nodeAddr, if_pos hbh]
    exact wp_post (wp_kfree_huge h hcpu hb hbh (hok.huge hbh)) fun _ _ hinv => ⟨_, .huge hbh, hinv⟩
  · obtain ⟨pg, hpg, hhouse⟩ := h.sound.small b hb hbh
    obtain ⟨P₁, P₂, hpages⟩ := List.append_of_mem hpg
    obtain ⟨T, hT⟩ := h.holds.walkOn h.sound hpg
    obtain ⟨hbelow, habove⟩ := h.holds.walkOn_clean h.sound hb hbh hpages hhouse hT (hok.small hbh)
    refine ⟨T, fun hplain => ?_, ?_⟩
    · obtain ⟨hruns, hloop⟩ := hplain pg hpg hhouse
      exact hT.plain hruns hloop
    · rw [Block.nodeAddr, if_neg hbh]
      exact wp_post (wp_kfree_small h hcpu hb hbh hpages hhouse hT hbelow habove)
        fun _ _ hinv => ⟨_, .small hbh hpages hhouse, hinv⟩

end Calls

section Commands

variable {p : Platform} {sh : Shape} {w w' : World} {c : Cmd}

/-- What a command needs of the state and the shape. -/
def StepOK (p : Platform) (w : World) (sh : Shape) : Cmd → Prop
  | .alloc _ n => AllocOK sh w.live n
  | .free _ a => ∀ b ∈ w.live, b.addr = a → FreeOK p w.st sh b
  | .write _ _ => True

/-- The bytes of the blocks that stay live are the same. -/
def Untouched (w w' : World) : Prop :=
  ∀ b ∈ w.live, b ∈ w'.live → ∀ x, b.region.Contains x → w'.st.mem x = w.st.mem x

/-- No live block overlaps the header of a large one. -/
theorem Shape.Sound.huge_header_clear {live : List Block} {b c : Block} (h : Sound p sh live)
    (hc : c ∈ live) (hch : c.Huge) (hb : b ∈ live) : Disj ⟨c.span.start, headerBytes⟩ b.region := by
  obtain ⟨-, haddr, -⟩ := h.huge c hc hch
  by_cases hbc : b = c
  · left
    subst hbc
    unfold Block.span Block.region Region.stop
    simp only
    omega
  · have hsound : Sound p sh (c :: live.erase c) := h.perm (List.perm_cons_erase hc)
    have hmem : b ∈ live.erase c := (List.mem_erase_of_ne hbc).mpr hb
    refine Disj.mono ?_ (span_record c)
    exact (hsound.sublist (List.sublist_cons_self _ _)).disj_all
      (fun pg hpg => (h.page_huge hpg hc hch).symm)
      (fun d hd hdh => hsound.huge_huge hch hd hdh) hmem

/-- A write into a live block changes no record of the shape. -/
theorem Inv.write (h : Inv p w sh) {b : Block} (hb : b ∈ w.live) {a : ℕ}
    (ha : b.region.Contains a) (v : UInt8) :
    Inv p ⟨w.st.setMem fun x => if x = a then v else w.st.mem x, w.live⟩ sh := by
  have hs := h.sound
  have hsame : ∀ q, Disj ⟨q, headerBytes⟩ b.region →
      SameRecord w.st.mem (fun x => if x = a then v else w.st.mem x) q := by
    intro q hd x h₁ h₂
    refine if_neg ?_
    rintro rfl
    exact hd.not_contains ⟨h₁, h₂⟩ ha
  refine ⟨hs, h.holds.frame (fun r hr => hsame _ ?_) (fun pg hpg => hsame _ ?_)
    (fun pg hpg r hr => hsame _ ?_) fun c hc hch => hsame _ ?_, h.unlocked⟩
  · have hd := hs.disj_all (x := r.node) (fun pg hpg => hs.free_page hr hpg)
      (fun c hc hch => hs.free_huge hr hc hch) hb
    exact hd.mono (node_record r)
  · obtain ⟨P₁, P₂, hpages⟩ := List.append_of_mem hpg
    exact hs.header_clear hpages b hb
  · obtain ⟨P₁, P₂, hpages⟩ := List.append_of_mem hpg
    exact hs.run_clear hpages hr (run_record (hs.pages pg hpg).1 hr).1 b hb
  · exact hs.huge_header_clear hc hch hb

/-- The refinement: a command is a step of the shape, and keeps the invariant. -/
theorem exec_refines (h : Inv p w sh) (hok : StepOK p w sh c) (hstep : w.exec p c = some w') :
    ∃ sh', ShapeStep sh w.live c sh' w'.live ∧ Inv p w' sh' ∧
      ((∀ a v, c ≠ .write a v) → Untouched w w') := by
  cases c with
  | alloc cpu n =>
    obtain ⟨hcpu, a, t, hexec, rfl⟩ := exec_alloc_some hstep
    by_cases hpage : n ≤ 16384 → sh.pagesOf cpu = [] → ∃ r ∈ sh.free, pageBytes ≤ r.len
    · obtain ⟨hres, hframe⟩ := wp_result (wp_frame (wp_kalloc h hcpu hok hpage)) hexec
      have hsame : ∀ b ∈ w.live, ∀ x, b.region.Contains x → t.mem x = w.st.mem x :=
        fun b hb x hx => hframe.mem x fun hw => hw b hb hx
      rcases hres with ⟨rfl, rfl, hrefused⟩ | ⟨ha, sh', hstep', hinv⟩
      · exact ⟨sh, .refuse hrefused, h, fun _ _ _ _ _ _ => rfl⟩
      · rw [if_neg ha]
        exact ⟨sh', .alloc hstep', hinv, fun _ b hb _ => hsame b hb⟩
    · push Not at hpage
      obtain ⟨hn, hempty, hsmall⟩ := hpage
      rw [exec_kalloc_exhausted h hcpu hn hempty hsmall] at hexec
      cases hexec
  | free cpu a =>
    obtain ⟨hcpu, b, t, hb, rfl, hexec, rfl⟩ := exec_free_some hstep
    obtain ⟨T, -, hwp⟩ := wp_kfree h hcpu hb (hok b hb rfl)
    obtain ⟨⟨sh', hstep', hinv⟩, hframe⟩ := wp_result (wp_frame hwp) hexec
    exact ⟨sh', .free hb hstep', hinv, fun _ c _ hc x hx => hframe.mem x fun hw => hw c hc hx⟩
  | write a v =>
    obtain ⟨⟨b, hb, ha⟩, rfl⟩ := exec_write_some hstep
    exact ⟨sh, .write, h.write hb ha v, fun hne => absurd rfl (hne a v)⟩

end Commands
end KmallocKfree
