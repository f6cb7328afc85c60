import KmallocKfree.FullPages
import KmallocKfree.RecycledPages

/-!
# Local calls of different CPUs commute

A call that the caller's own pages serve runs in a footprint of its own: the bytes of
these pages and the lock of their list. Footprints of different CPUs are independent, and
a search over the page lists finds the same page before and after the other call, so the
two calls can be run in either order.
-/
namespace KmallocKfree

open Prog Region
open ByteMemory (Mem)

/-- A call, made by some CPU. -/
inductive Call where
  | alloc (n : ℕ)
  | free (ptr : ℕ)
  deriving DecidableEq

/-- What the call does, and what it returns; 0 for `kfree`. -/
def Call.run (p : Platform) (cpu : ℕ) : Call → Code ℕ
  | .alloc n => kalloc p cpu n
  | .free ptr => do
    kfree p cpu ptr
    pure 0

/-- A page that can take blocks back: full, or with a null-terminated free list. -/
def Serving (m : Mem) (pg : Page) : Prop := Full m pg ∨ (InUse m pg ∧ pg.runs ≠ [])

/-- The page at `q` is full, partly free, or empty. -/
inductive WellPaged (m : Mem) (q : ℕ) : Prop
  | serving (pg : Page) : pg.base = q → Serving m pg → WellPaged m q
  | empty : sizeAt m q = 0 → wordAt m q = 1 → WellPaged m q

/-- All pages are disjoint and well formed, and no call is under way. -/
structure Quiet (p : Platform) (s : PmmState) (L : ℕ → List ℕ) : Prop where
  listed : Listed p s L
  own : ∀ i < p.cpuCount, ∀ j < p.cpuCount, i ≠ j → ∀ q ∈ L i, q ∉ L j
  pages : ∀ i < p.cpuCount, ∀ q ∈ L i, WellPaged s.mem q
  unlocked : ∀ i < p.cpuCount, s.lock (.pagelist i) = 0

/-- A call that the pages `l` serve: a request that fits a page with a free block of its
class or an empty page, or the freeing of a block that is not free. -/
inductive LocalCall (s : PmmState) (l : List ℕ) : Call → Prop
  | sized (n q : ℕ) : n ≤ 16384 → q ∈ l → HasSized s.mem (roundSize n) q → LocalCall s l (.alloc n)
  | empty (n q : ℕ) : n ≤ 16384 → q ∈ l → HasEmpty s.mem q → LocalCall s l (.alloc n)
  | free (pg : Page) (t : Region) : pg.base ∈ l → Serving s.mem pg → Freeable pg t →
      LocalCall s l (.free t.start)

/-- The bytes of the pages `l`, and the lock of the list of CPU `cpu`. -/
def pagesFoot (l : List ℕ) (cpu : ℕ) : Footprint Struct Global Lock where
  reads x := ∃ q ∈ l, q ≤ x ∧ x < q + pageBytes
  writes x := ∃ q ∈ l, q ≤ x ∧ x < q + pageBytes
  derefs _ _ := True
  gets _ := False
  sets _ := False
  locks k := k = .pagelist cpu

section Footprints

variable {l l' : List ℕ} {cpu i j q : ℕ} {s s' : PmmState}

theorem pagesFoot_owns (hq : q ∈ l) (hpos : 0 < q) : OwnsPage (pagesFoot l cpu) q := by
  intro k a n hlo hhi
  refine ⟨⟨by omega, trivial, fun x h₁ h₂ => ?_⟩, fun x h₁ h₂ => ?_⟩
  · exact ⟨q, hq, by omega, by omega⟩
  · exact ⟨q, hq, by omega, by omega⟩

theorem pagesFoot_sub (h : ∀ q ∈ l, q ∈ l') : (pagesFoot l cpu).Sub (pagesFoot l' cpu) where
  reads := fun _ ⟨q, hq, hx⟩ => ⟨q, h q hq, hx⟩
  writes := fun _ ⟨q, hq, hx⟩ => ⟨q, h q hq, hx⟩
  derefs := fun _ _ => id
  gets := fun _ => id
  sets := fun _ => id
  locks := fun _ => id

theorem pagesFoot_independent (hij : i ≠ j)
    (hapart : ∀ q ∈ l, ∀ q' ∈ l', q + pageBytes ≤ q' ∨ q' + pageBytes ≤ q) :
    Independent (pagesFoot l i) (pagesFoot l' j) := by
  have hbytes : ∀ x, (∃ q ∈ l, q ≤ x ∧ x < q + pageBytes) →
      ¬ ∃ q ∈ l', q ≤ x ∧ x < q + pageBytes := by
    rintro x ⟨q, hq, h₁, h₂⟩ ⟨q', hq', h₁', h₂'⟩
    have := hapart q hq q' hq'
    omega
  refine ⟨hbytes, fun x hx hx' => hbytes x hx' hx, hbytes, fun _ h => h.elim, fun _ h => h.elim,
    fun _ h => h.elim, ?_⟩
  intro k hk hk'
  change k = .pagelist i at hk
  change k = .pagelist j at hk'
  rw [hk] at hk'
  exact hij (Lock.pagelist.inj hk')

/-- A header away from the pages of a footprint stays as it was. -/
theorem sameRecord_of_framed (h : Framed (pagesFoot l cpu) s s')
    (hapart : ∀ q' ∈ l, q + pageBytes ≤ q' ∨ q' + pageBytes ≤ q) : SameRecord s.mem s'.mem q := by
  intro x h₁ h₂
  apply h.mem
  rintro ⟨q', hq', h₁', h₂'⟩
  have := hapart q' hq'
  have hpb : pageBytes = 65536 := rfl
  omega

end Footprints

section Calls

variable {p : Platform} {s s' u : PmmState} {L L' : ℕ → List ℕ} {cpu i j n q : ℕ} {l A B : List ℕ}
  {c : Call} {code : Code ℕ} {pg : Page} {t : Region}

theorem Quiet.apart (h : Quiet p s L) (hi : i < p.cpuCount) (hj : j < p.cpuCount) (hij : i ≠ j) :
    ∀ q ∈ L i, ∀ q' ∈ L j, q + pageBytes ≤ q' ∨ q' + pageBytes ≤ q := by
  intro q hq q' hq'
  apply h.listed.apart i hi j hj q hq q' hq'
  rintro rfl
  exact h.own i hi j hj hij q hq hq'

/-- The lists after a call that stayed in the pages of CPU `i` and may have dropped some. -/
theorem Quiet.listed_after (h : Quiet p s L) (hi : i < p.cpuCount)
    (hf : Framed (pagesFoot (L i) i) s s') (hsub : l.Sublist (L i))
    (hpath : Path (nextAt s'.mem) (s.var (.pagehead i)) l 0) :
    Listed p s' (Function.update L i l) := by
  have hvar : s'.var = s.var := funext fun x => hf.var x id
  have hmem : ∀ k q, q ∈ Function.update L i l k → q ∈ L k := by
    intro k q hq
    by_cases hk : k = i
    · subst hk
      rw [Function.update_self] at hq
      exact hsub.subset hq
    · rwa [Function.update_of_ne hk] at hq
  refine ⟨?_, ?_, ?_, ?_⟩
  · intro k hk
    rw [hvar]
    by_cases hki : k = i
    · subst hki
      rw [Function.update_self]
      exact hpath
    · rw [Function.update_of_ne hki]
      exact (h.listed.path k hk).congr fun q hq =>
        (sameRecord_of_framed hf (h.apart hk hi hki q hq)).next
  · intro k hk
    by_cases hki : k = i
    · subst hki
      rw [Function.update_self]
      exact (h.listed.nodup k hk).sublist hsub
    · rw [Function.update_of_ne hki]
      exact h.listed.nodup k hk
  · intro k hk q hq
    exact h.listed.inside k hk q (hmem k q hq)
  · intro k hk k' hk' q hq q' hq'
    exact h.listed.apart k hk k' hk' q (hmem k q hq) q' (hmem k' q' hq')

/-- What a local call of CPU `cpu` comes down to: in every state with the same own pages
it is the program `code`, which stays in these pages and keeps the list. -/
structure LocalRun (p : Platform) (s : PmmState) (L : ℕ → List ℕ) (cpu : ℕ) (c : Call)
    (code : Code ℕ) : Prop where
  exec_eq : ∀ u L', Listed p u L' → L' cpu = L cpu → u.lock (.pagelist cpu) = 0 →
    (∀ q ∈ L cpu, SameRecord s.mem u.mem q) → Prog.exec (c.run p cpu) u = Prog.exec code u
  stays : wp (pagesFoot (L cpu) cpu).Allows code s fun _ s' =>
    ∃ l, l.Sublist (L cpu) ∧ Path (nextAt s'.mem) (s.var (.pagehead cpu)) l 0

/-- Two local calls of different CPUs. -/
theorem LocalRun.commute {a b : Call} {code' : Code ℕ} (h : Quiet p s L) (hi : i < p.cpuCount)
    (hj : j < p.cpuCount) (hij : i ≠ j) (ha : LocalRun p s L i a code)
    (hb : LocalRun p s L j b code') : ∃ x y s₁ s₂ t,
      Prog.exec (a.run p i) s = .ok (x, s₁) ∧ Prog.exec (b.run p j) s₁ = .ok (y, t) ∧
      Prog.exec (b.run p j) s = .ok (y, s₂) ∧ Prog.exec (a.run p i) s₂ = .ok (x, t) := by
  have hind := pagesFoot_independent hij (h.apart hi hj hij)
  obtain ⟨x, y, s₁, s₂, t, h₁, h₂, h₃, h₄, ⟨l₁, hsub₁, hpath₁⟩, ⟨l₂, hsub₂, hpath₂⟩, hf₁, hf₂⟩ :=
    exec_commute hind ha.stays hb.stays
  have hne : ∀ {i j : ℕ}, i ≠ j → ¬ (pagesFoot (L i) i).locks (.pagelist j) := fun hij heq =>
    hij (Lock.pagelist.inj heq).symm
  refine ⟨x, y, s₁, s₂, t, ?_, ?_, ?_, ?_⟩
  · rw [ha.exec_eq s L h.listed rfl (h.unlocked i hi) fun q _ => .refl _ _]
    exact h₁
  · rw [hb.exec_eq s₁ _ (h.listed_after hi hf₁ hsub₁ hpath₁) (Function.update_of_ne hij.symm _ _)
      ((hf₁.lock _ (hne hij)).trans (h.unlocked j hj)) fun q hq =>
        sameRecord_of_framed hf₁ (h.apart hj hi hij.symm q hq)]
    exact h₂
  · rw [hb.exec_eq s L h.listed rfl (h.unlocked j hj) fun q _ => .refl _ _]
    exact h₃
  · rw [ha.exec_eq s₂ _ (h.listed_after hj hf₂ hsub₂ hpath₂) (Function.update_of_ne hij _ _)
      ((hf₂.lock _ (hne hij.symm)).trans (h.unlocked i hi)) fun q hq =>
        sameRecord_of_framed hf₂ (h.apart hi hj hij q hq)]
    exact h₄

/-- The first element with a property splits the list. -/
theorem exists_first {P : ℕ → Prop} [DecidablePred P] (h : ∃ x ∈ l, P x) :
    ∃ A q B, l = A ++ q :: B ∧ (∀ x ∈ A, ¬ P x) ∧ P q := by
  obtain ⟨x, hx, hPx⟩ := h
  cases hfind : l.find? (fun x => decide (P x)) with
  | none => exact absurd (decide_eq_true hPx) (List.find?_eq_none.mp hfind x hx)
  | some q =>
    obtain ⟨hq, A, B, hl, hA⟩ := List.find?_eq_some_iff_append.mp hfind
    exact ⟨A, q, B, hl, fun x hx => by simpa using hA x hx, of_decide_eq_true hq⟩

/-- The headers decide which page serves a request. -/
theorem HasSized.congr {m m' : Mem} {c : ℕ} (h : SameRecord m m' q) :
    HasSized m' c q ↔ HasSized m c q := by
  rw [HasSized, HasSized, h.size, h.word]

theorem HasEmpty.congr {m m' : Mem} (h : SameRecord m m' q) : HasEmpty m' q ↔ HasEmpty m q := by
  rw [HasEmpty, HasEmpty, h.size, h.word]

/-- A call that writes in one page and keeps its link keeps the list. -/
theorem Listed.path_kept (h : Listed p s L) (hcpu : cpu < p.cpuCount) (hq : q ∈ L cpu)
    (hf : Framed (pagesFoot [q] cpu) u s') (hu : u.mem = s.mem)
    (hnext : nextAt s'.mem q = nextAt u.mem q) :
    Path (nextAt s'.mem) (s.var (.pagehead cpu)) (L cpu) 0 := by
  refine (h.path cpu hcpu).congr fun x hx => ?_
  rw [← hu]
  by_cases hxq : x = q
  · rw [hxq, hnext]
  · refine (sameRecord_of_framed hf fun q' hq' => ?_).next
    rw [List.mem_singleton.mp hq']
    exact h.apart cpu hcpu cpu hcpu x hx q hq hxq

/-- A request that a page with a free block of its class serves. -/
theorem Quiet.local_sized (h : Quiet p s L) (hcpu : cpu < p.cpuCount) (hn : n ≤ 16384)
    (hsized : ∃ q ∈ L cpu, HasSized s.mem (roundSize n) q) :
    ∃ code, LocalRun p s L cpu (.alloc n) code := by
  have hclass := sizeClass_roundSize hn
  obtain ⟨A, q, B, hsplit, hA, hq⟩ := exists_first hsized
  have hmem : q ∈ L cpu := by rw [hsplit]; simp
  have hmemA : ∀ x ∈ A, x ∈ L cpu := fun x hx => by
    rw [hsplit]
    exact List.mem_append_left _ hx
  refine ⟨do lock (.pagelist cpu); kallocFast cpu q (roundSize n), ?_, ?_⟩
  · intro u L' hu hL' hlock hsame
    rw [← hL'] at hsplit
    refine hu.exec_kalloc_fast hcpu hn hlock hsplit ?_ ?_
    · intro x hx
      rw [HasSized.congr (hsame x (hmemA x hx))]
      exact hA x hx
    · rw [HasSized.congr (hsame q hmem)]
      exact hq
  · -- the page is in use, with a first free node
    obtain ⟨pg, rfl, hserving⟩ | ⟨hsize, hindex⟩ := h.pages cpu hcpu q hmem
    · obtain hfull | ⟨huse, hne⟩ := hserving
      · have hempty := ((sized_iff hfull.valid hfull.repr hclass).mp hq).2
        exact absurd hfull.full hempty
      · obtain ⟨r, rest, hruns⟩ := List.exists_cons_of_ne_nil hne
        have hcls := ((sized_iff huse.valid huse.repr hclass).mp hq).1
        rw [← hcls, wp_bind, wp_lock (show (pagesFoot (L cpu) cpu).locks _ from rfl)
          (h.unlocked cpu hcpu)]
        refine wp_post (wp_within (wp_kallocFast_own (F := pagesFoot [pg.base] cpu) huse.valid
          huse.repr hruns (pagesFoot_owns (List.mem_singleton_self _) huse.valid.base_pos) rfl)
          (pagesFoot_sub fun x hx => by rwa [List.mem_singleton.mp hx])) ?_
        rintro ret s' ⟨⟨-, -, hnext, -⟩, hf⟩
        exact ⟨L cpu, .refl _, h.listed.path_kept hcpu hmem hf rfl hnext⟩
    · have hzero := hq.1
      rw [hsize] at hzero
      have := hclass.ge
      have h0 : toSize 0 = 0 := rfl
      omega

/-- A request that no page of its class, but an empty page serves. -/
theorem Quiet.local_empty (h : Quiet p s L) (hcpu : cpu < p.cpuCount) (hn : n ≤ 16384)
    (hnone : ∀ q ∈ L cpu, ¬ HasSized s.mem (roundSize n) q)
    (hempty : ∃ q ∈ L cpu, HasEmpty s.mem q) :
    ∃ code, LocalRun p s L cpu (.alloc n) code := by
  have hclass := sizeClass_roundSize hn
  obtain ⟨A, q, B, hsplit, hA, hq⟩ := exists_first hempty
  have hmem : q ∈ L cpu := by rw [hsplit]; simp
  have hmemA : ∀ x ∈ A, x ∈ L cpu := fun x hx => by
    rw [hsplit]
    exact List.mem_append_left _ hx
  refine ⟨do lock (.pagelist cpu); kallocRecycle cpu q (roundSize n), ?_, ?_⟩
  · intro u L' hu hL' hlock hsame
    rw [← hL'] at hsplit hnone
    refine hu.exec_kalloc_recycle hcpu hn hlock hsplit ?_ ?_ ?_
    · intro x hx
      rw [hL'] at hx
      rw [HasSized.congr (hsame x hx)]
      exact hnone x (hL' ▸ hx)
    · intro x hx
      rw [HasEmpty.congr (hsame x (hmemA x hx))]
      exact hA x hx
    · rw [HasEmpty.congr (hsame q hmem)]
      exact hq
  · obtain ⟨hpos, hmax⟩ := h.listed.pos hcpu hmem
    have hindex : wordAt s.mem q = 1 := by
      obtain ⟨pg, rfl, hserving⟩ | ⟨-, hindex⟩ := h.pages cpu hcpu q hmem
      · have hzero := hq.1
        obtain hfull | ⟨huse, -⟩ := hserving
        · have := hfull.cls.ge
          rw [hfull.repr.size] at hzero
          omega
        · have := huse.cls.ge
          rw [huse.repr.size] at hzero
          omega
      · exact hindex
    rw [wp_bind, wp_lock (show (pagesFoot (L cpu) cpu).locks _ from rfl) (h.unlocked cpu hcpu)]
    refine wp_post (wp_within (wp_kallocRecycle (F := pagesFoot [q] cpu) hclass hmax hindex
      (pagesFoot_owns (List.mem_singleton_self _) hpos) rfl)
      (pagesFoot_sub fun x hx => by rwa [List.mem_singleton.mp hx])) ?_
    rintro ret s' ⟨⟨-, -, hnext⟩, hf⟩
    exact ⟨L cpu, .refl _, h.listed.path_kept hcpu hmem hf rfl hnext⟩

/-- The headers from a freed full page on: all are kept, but for one that was swallowed. -/
theorem FullFreed.path_kept {m m' : Mem} (h : FullFreed m m' pg t B)
    (hpath : Path (nextAt m) pg.base (pg.base :: B) 0) (hnd : (pg.base :: B).Nodup) :
    ∃ B', B'.Sublist B ∧ Path (nextAt m') pg.base (pg.base :: B') 0 := by
  cases h with
  | doubled hstart hsize hindex hlinks => exact ⟨B, .refl _, hpath.congr hlinks⟩
  | pushed hstart hstop hlist hlinks => exact ⟨B, .refl _, hpath.congr hlinks⟩
  | swallowed B₁ B₂ n hstart hB hn hlist hlink hlinks =>
    subst hB
    refine ⟨B₁ ++ B₂, (List.sublist_cons_self _ _).append_left _, ?_⟩
    obtain ⟨l₀, hl₀⟩ : ∃ l₀, pg.base :: B₁ = l₀ ++ [B₁.getLastD pg.base] := by
      obtain rfl | ⟨l₁, x, rfl⟩ := List.eq_nil_or_concat' B₁
      · exact ⟨[], rfl⟩
      · exact ⟨pg.base :: l₁, by simp⟩
    rw [← List.cons_append, hl₀, List.append_assoc, List.singleton_append] at hpath hnd hlinks ⊢
    refine hpath.unlink hlink fun z hz => hlinks z ?_ ?_
    · simp only [List.mem_append, List.mem_cons] at hz ⊢
      tauto
    · rintro rfl
      apply (List.nodup_cons.mp (List.nodup_middle.mp hnd)).1
      simp only [List.mem_append, List.mem_cons] at hz ⊢
      tauto

/-- The freeing of a block, once the page was found. -/
theorem Listed.exec_free (h : Listed p u L) (hlock : u.lock (.pagelist cpu) = 0)
    (hcpu : cpu < p.cpuCount) (hq : q ∈ L cpu) (hin : InSpan q t.start) :
    Prog.exec ((Call.free t.start).run p cpu) u = Prog.exec (do
      lock (.pagelist cpu)
      kfreePage cpu q t.start
      pure 0) u := by
  change Prog.exec (do kfree p cpu t.start; pure 0) u = _
  rw [exec_bind, h.exec_kfree hlock hcpu hq hin, exec_locked hlock, exec_locked hlock, exec_bind]

/-- A block of a page in use. -/
theorem Quiet.local_free (h : Quiet p s L) (hcpu : cpu < p.cpuCount) (hq : pg.base ∈ L cpu)
    (huse : InUse s.mem pg) (hne : pg.runs ≠ []) (ht : Freeable pg t) :
    ∃ code, LocalRun p s L cpu (.free t.start) code := by
  refine ⟨do lock (.pagelist cpu); kfreePage cpu pg.base t.start; pure 0, ?_, ?_⟩
  · intro u L' hu hL' hlock _
    rw [← hL'] at hq
    exact hu.exec_free hlock hcpu hq ht.inSpan
  · rw [wp_bind, wp_lock (show (pagesFoot (L cpu) cpu).locks _ from rfl) (h.unlocked cpu hcpu),
      wp_bind]
    refine wp_post (wp_within (wp_kfreePage_own (F := pagesFoot [pg.base] cpu) huse hne ht
      (pagesFoot_owns (List.mem_singleton_self _) huse.valid.base_pos) rfl)
      (pagesFoot_sub fun x hx => by rwa [List.mem_singleton.mp hx])) ?_
    rintro _ s' ⟨⟨-, hnext, -⟩, hf⟩
    exact ⟨L cpu, .refl _, h.listed.path_kept hcpu hq hf rfl hnext⟩

/-- The size that a page header states. -/
theorem WellPaged.size {m : Mem} (h : WellPaged m q) :
    sizeAt m q = 0 ∨ ∃ c : ℕ, SizeClass c ∧ sizeAt m q = c := by
  obtain ⟨pg, rfl, hserving⟩ | ⟨hsize, -⟩ := h
  · right
    obtain hfull | ⟨huse, -⟩ := hserving
    · exact ⟨pg.cls, hfull.cls, hfull.repr.size⟩
    · exact ⟨pg.cls, huse.cls, huse.repr.size⟩
  · exact .inl hsize

/-- A block of a full page. -/
theorem Quiet.local_free_full (h : Quiet p s L) (hcpu : cpu < p.cpuCount) (hq : pg.base ∈ L cpu)
    (hfull : Full s.mem pg) (ht : Freeable pg t) :
    ∃ code, LocalRun p s L cpu (.free t.start) code := by
  refine ⟨do lock (.pagelist cpu); kfreePage cpu pg.base t.start; pure 0, ?_, ?_⟩
  · intro u L' hu hL' hlock _
    rw [← hL'] at hq
    exact hu.exec_free hlock hcpu hq ht.inSpan
  · obtain ⟨A, B, hsplit⟩ := List.append_of_mem hq
    have hmem : ∀ x ∈ pg.base :: B, x ∈ L cpu := fun x hx => by
      rw [hsplit]
      exact List.mem_append_right _ hx
    have hclass : ∀ x ∈ B, ∃ d : ℕ, sizeAt s.mem x = d ∧ d ≤ 16384 := by
      intro x hx
      obtain hzero | ⟨c, hc, hsize⟩ :=
        (h.pages cpu hcpu x (hmem x (List.mem_cons_of_mem _ hx))).size
      · exact ⟨0, hzero, by omega⟩
      · exact ⟨c, hsize, hc.le⟩
    have hsite := h.listed.fullSite (F := pagesFoot (pg.base :: B) cpu) hcpu hsplit hfull hclass ht
      fun x hx => pagesFoot_owns hx (h.listed.pos hcpu (hmem x hx)).1
    rw [wp_bind, wp_lock (show (pagesFoot (L cpu) cpu).locks _ from rfl) (h.unlocked cpu hcpu),
      wp_bind]
    refine wp_post (wp_within (hsite.wp_kfreePage_full (s := s.setLock (.pagelist cpu) 1) rfl)
      (pagesFoot_sub hmem)) ?_
    rintro _ s' ⟨⟨hfreed, -⟩, hf⟩
    obtain ⟨B', hsub, hpath⟩ := hfreed.path_kept hsite.path hsite.site.nodup
    refine ⟨A ++ pg.base :: B', ?_, ?_⟩
    · rw [hsplit]
      exact (hsub.cons_cons _).append_left _
    · have hold := h.listed.path cpu hcpu
      have hnd := h.listed.nodup cpu hcpu
      rw [hsplit] at hold hnd
      obtain ⟨x, hbefore, hbase, -⟩ := Path.append.mp hold
      refine Path.append.mpr ⟨x, hbefore.congr fun y hy => ?_, hbase ▸ hpath⟩
      refine (sameRecord_of_framed hf fun q' hq' => ?_).next
      apply h.listed.apart cpu hcpu cpu hcpu y _ q' (hmem q' hq')
      · rintro rfl
        exact (List.nodup_append.mp hnd).2.2 y hy y hq' rfl
      · rw [hsplit]
        exact List.mem_append_left _ hy

/-- Every local call comes down to a program on the caller's own pages. -/
theorem Quiet.local_run (h : Quiet p s L) (hcpu : cpu < p.cpuCount)
    (hc : LocalCall s (L cpu) c) : ∃ code, LocalRun p s L cpu c code := by
  cases hc with
  | sized n q hn hq hsized => exact h.local_sized hcpu hn ⟨q, hq, hsized⟩
  | empty n q hn hq hempty =>
    by_cases hsized : ∃ x ∈ L cpu, HasSized s.mem (roundSize n) x
    · exact h.local_sized hcpu hn hsized
    · exact h.local_empty hcpu hn (fun x hx hx' => hsized ⟨x, hx, hx'⟩) ⟨q, hq, hempty⟩
  | free pg t hq hserving ht =>
    obtain hfull | ⟨huse, hne⟩ := hserving
    · exact h.local_free_full hcpu hq hfull ht
    · exact h.local_free hcpu hq huse hne ht

/-- Local calls of different CPUs commute: in either order they return the same values and
end in the same memory, with the same page lists and the same heap. -/
theorem local_calls_commute {a b : Call} (h : Quiet p s L) (hi : i < p.cpuCount)
    (hj : j < p.cpuCount) (hij : i ≠ j) (ha : LocalCall s (L i) a) (hb : LocalCall s (L j) b) :
    ∃ x y s₁ s₂ t,
      Prog.exec (a.run p i) s = .ok (x, s₁) ∧ Prog.exec (b.run p j) s₁ = .ok (y, t) ∧
      Prog.exec (b.run p j) s = .ok (y, s₂) ∧ Prog.exec (a.run p i) s₂ = .ok (x, t) := by
  obtain ⟨code, hcode⟩ := h.local_run hi ha
  obtain ⟨code', hcode'⟩ := h.local_run hj hb
  exact LocalRun.commute h hi hj hij hcode hcode'

/-- CPU 0 has the page at 1 MiB, CPU 1 the next. -/
def twoPages (cpu : ℕ) : List ℕ := if cpu = 0 then [0x100000] else [0x110000]

theorem exists_twoPages : ∃ s : PmmState, Quiet halfMega s twoPages ∧
    HasSized s.mem 128 0x100000 ∧ InUse s.mem (Page.fresh 0 0x110000 8192) := by
  have hrun : ((runFrom halfMega (fun _ _ => True) blank [.alloc 0 100, .alloc 1 5000]).map
      fun w => decide ((w.st.var (.pagehead 0) = 0x100000 ∧ w.st.var (.pagehead 1) = 0x110000 ∧
        nextAt w.st.mem 0x100000 = 0 ∧ nextAt w.st.mem 0x110000 = 0 ∧
        w.st.lock (.pagelist 0) = 0 ∧ w.st.lock (.pagelist 1) = 0) ∧
        (sizeAt w.st.mem 0x100000 = 128 ∧ wordAt w.st.mem 0x100000 = 2 ∧
          FreeList w.st.mem 0x100100 [⟨0x100100, 65280⟩] 0 ∧
          wordAt w.st.mem 0x100100 = toWord pageMagic) ∧
        (sizeAt w.st.mem 0x110000 = 8192 ∧ wordAt w.st.mem 0x110000 = 2 ∧
          FreeList w.st.mem 0x114000 [⟨0x114000, 49152⟩] 0 ∧
          wordAt w.st.mem 0x114000 = toWord pageMagic))) = some true := by decide +kernel
  obtain ⟨w, -, hall⟩ := Option.map_eq_some_iff.mp hrun
  obtain ⟨⟨hhead, hhead', hnext, hnext', hlock, hlock'⟩, ⟨hsize, hindex, hlist, hmagic⟩,
    ⟨hsize', hindex', hlist', hmagic'⟩⟩ := of_decide_eq_true hall
  have hclass : SizeClass 128 := by
    have hround : roundSize 100 = 128 := by decide +kernel
    rw [← hround]
    exact sizeClass_roundSize (by decide)
  have hclass' : SizeClass 8192 := by
    have hround : roundSize 5000 = 8192 := by decide +kernel
    rw [← hround]
    exact sizeClass_roundSize (by decide)
  have huse : InUse w.st.mem (Page.fresh 0 0x100000 128) :=
    inUse_fresh hclass (by decide) (by decide) hsize hindex hlist hmagic
  have huse' : InUse w.st.mem (Page.fresh 0 0x110000 8192) :=
    inUse_fresh hclass' (by decide) (by decide) hsize' hindex' hlist' hmagic'
  have hcpus : ∀ {P : ℕ → Prop}, P 0 → P 1 → ∀ i < halfMega.cpuCount, P i := by
    intro P h₀ h₁ i hi
    have hcount : halfMega.cpuCount = 2 := rfl
    obtain rfl | rfl : i = 0 ∨ i = 1 := by omega
    · exact h₀
    · exact h₁
  refine ⟨w.st, ⟨⟨hcpus ⟨hhead, hnext⟩ ⟨hhead', hnext'⟩, hcpus (by decide) (by decide),
    hcpus (by decide) (by decide), ?_⟩, ?_, ?_, hcpus hlock hlock'⟩, ?_, huse'⟩
  · exact hcpus (hcpus (by decide) (by decide)) (hcpus (by decide) (by decide))
  · exact hcpus (hcpus (by decide) (by decide)) (hcpus (by decide) (by decide))
  · refine hcpus (fun q hq => ?_) fun q hq => ?_
    · rw [List.mem_singleton.mp hq]
      exact .serving _ rfl (.inr ⟨huse, by simp [Page.fresh]⟩)
    · rw [List.mem_singleton.mp hq]
      exact .serving _ rfl (.inr ⟨huse', by simp [Page.fresh]⟩)
  · rw [HasSized, hsize, hindex]
    decide

/-- CPU 0 allocates 100 bytes while CPU 1 frees its only block. -/
theorem local_calls_commute_run : ∃ s x s₁ s₂ t, Quiet halfMega s twoPages ∧
    Prog.exec ((Call.alloc 100).run halfMega 0) s = .ok (x, s₁) ∧
    Prog.exec ((Call.free 0x112000).run halfMega 1) s₁ = .ok (0, t) ∧
    Prog.exec ((Call.free 0x112000).run halfMega 1) s = .ok (0, s₂) ∧
    Prog.exec ((Call.alloc 100).run halfMega 0) s₂ = .ok (x, t) := by
  obtain ⟨s, hquiet, hsized, huse⟩ := exists_twoPages
  have hround : roundSize 100 = 128 := by decide +kernel
  have halloc : LocalCall s (twoPages 0) (.alloc 100) :=
    .sized 100 0x100000 (by decide) (by decide) (by rw [hround]; exact hsized)
  have hlive : Freeable (Page.fresh 0 0x110000 8192) ⟨0x112000, 8192⟩ :=
    ⟨huse.valid, huse.cls, ⟨1, by decide⟩, rfl, by decide⟩
  have hfree : LocalCall s (twoPages 1) (.free 0x112000) :=
    .free _ _ (by decide) (.inr ⟨huse, by simp [Page.fresh]⟩) hlive
  obtain ⟨x, y, s₁, s₂, t, h₁, h₂, h₃, h₄⟩ := local_calls_commute hquiet
    (show 0 < halfMega.cpuCount by decide) (show 1 < halfMega.cpuCount by decide) (by decide)
    halloc hfree
  have hzero : y = 0 := by
    obtain ⟨_, u, -, hpure⟩ := exec_bind_ok h₃
    rw [exec_pure] at hpure
    cases hpure
    rfl
  subst hzero
  exact ⟨s, x, s₁, s₂, t, hquiet, h₁, h₂, h₃, h₄⟩

end Calls
end KmallocKfree
