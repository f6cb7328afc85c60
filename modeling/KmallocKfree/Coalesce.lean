import KmallocKfree.Heap

/-!
# Giving regions back to a free list

Freeing joins the freed region with the free regions that touch it. The source
finds them as the nearest addresses below and above, in a list kept in no order;
on disjoint regions these are the touching ones whenever there are any.
-/
namespace KmallocKfree

open Region

variable {l l₁ l₂ : List Region} {r t b a : Region}

/-- The region of `l` that ends where `t` starts. -/
def touchingBelow (l : List Region) (t : Region) : Option Region :=
  l.find? fun r => decide (r.stop = t.start)

/-- The region of `l` that starts where `t` ends. -/
def touchingAbove (l : List Region) (t : Region) : Option Region :=
  l.find? fun r => decide (r.start = t.stop)

/-- Region `b` of the list extended by `n` bytes. -/
def grow (b : Region) (n : ℕ) (l : List Region) : List Region :=
  l.map fun r => if r = b then ⟨r.start, r.len + n⟩ else r

theorem touchingBelow_some (h : touchingBelow l t = some b) : b ∈ l ∧ b.stop = t.start :=
  ⟨List.mem_of_find?_eq_some h, by simpa using List.find?_some h⟩

theorem touchingAbove_some (h : touchingAbove l t = some a) : a ∈ l ∧ a.start = t.stop :=
  ⟨List.mem_of_find?_eq_some h, by simpa using List.find?_some h⟩

theorem touchingBelow_none (h : touchingBelow l t = none) (hr : r ∈ l) : r.stop ≠ t.start := by
  simpa using List.find?_eq_none.mp h r hr

theorem touchingAbove_none (h : touchingAbove l t = none) (hr : r ∈ l) : r.start ≠ t.stop := by
  simpa using List.find?_eq_none.mp h r hr

/-- The regions of `l` and the region `t` being freed lie in one span, apart from
each other; the other addresses of the walk, `T`, lie outside that span. -/
structure Around (l : List Region) (t : Region) (T : List ℕ) (lo hi : ℕ) : Prop where
  disj : l.Pairwise Disj
  pos : ∀ r ∈ l, 0 < r.len
  apart : ∀ r ∈ l, r.Disj t
  len : 0 < t.len
  inside : ∀ r ∈ l, lo ≤ r.start ∧ r.stop ≤ hi
  span : lo ≤ t.start ∧ t.stop ≤ hi
  outside : ∀ q ∈ T, q < lo ∨ hi ≤ q

namespace Around

variable {T : List ℕ} {lo hi x : ℕ}

/-- The region that ends at `t` is the nearest below. -/
theorem below (h : Around l t T lo hi)
    (hx : NearestBelow (l.map Region.start ++ T) t.start x) (hb : b ∈ l)
    (hbt : b.stop = t.start) : x = b.start := by
  have hbpos := h.pos b hb
  have hlt : b.start < t.start := by
    unfold Region.stop at hbt
    omega
  have hmem : b.start ∈ l.map Region.start ++ T :=
    List.mem_append_left _ (List.mem_map_of_mem hb)
  rcases hx with ⟨-, hnone⟩ | ⟨hx, hxt, hbest⟩
  · exact absurd hlt (hnone _ hmem)
  · have hle := hbest _ hmem hlt
    rcases List.mem_append.mp hx with hx | hx
    · obtain ⟨r, hr, rfl⟩ := List.mem_map.mp hx
      by_contra hne
      have hdisj := disjoint_of_ne h.disj hr hb (by rintro rfl; exact hne rfl)
      have := h.pos r hr
      unfold Disj Region.stop at *
      omega
    · have hout := h.outside x hx
      have hbin := h.inside b hb
      have hspan := h.span
      unfold Region.stop at *
      omega

/-- The region that starts at the end of `t` is the nearest above. -/
theorem above (h : Around l t T lo hi)
    (hx : NearestAbove (l.map Region.start ++ T) t.start x) (ha : a ∈ l)
    (hat : a.start = t.stop) : x = a.start := by
  have hlen := h.len
  have hspan := h.span
  have hlt : t.start < a.start := by
    unfold Region.stop at hat
    omega
  have hmem : a.start ∈ l.map Region.start ++ T :=
    List.mem_append_left _ (List.mem_map_of_mem ha)
  rcases hx with ⟨-, hnone⟩ | ⟨hx, hxt, hbest⟩
  · exact absurd hlt (hnone _ hmem)
  · have hle := hbest _ hmem hlt
    rcases List.mem_append.mp hx with hx | hx
    · obtain ⟨r, hr, rfl⟩ := List.mem_map.mp hx
      have hrt := h.apart r hr
      have := h.pos r hr
      unfold Disj Region.stop at *
      omega
    · have hout := h.outside x hx
      have hapos := h.pos a ha
      have hain := h.inside a ha
      unfold Region.stop at *
      omega

/-- The test on the nearest address below finds the region that ends at `t`. -/
theorem below_cases (h : Around l t T lo hi) {stopOf : ℕ → ℕ}
    (hstop : ∀ r ∈ l, stopOf r.start = r.stop) (hT : ∀ q ∈ T, stopOf q ≠ t.start)
    (hx : NearestBelow (l.map Region.start ++ T) t.start x) :
    (∃ b, touchingBelow l t = some b ∧ x = b.start) ∨
      (touchingBelow l t = none ∧ (x = 0 ∨ stopOf x ≠ t.start)) := by
  cases hb : touchingBelow l t with
  | some b =>
    obtain ⟨hmem, hbt⟩ := touchingBelow_some hb
    exact .inl ⟨b, rfl, h.below hx hmem hbt⟩
  | none =>
    refine .inr ⟨rfl, ?_⟩
    rcases hx with ⟨h0, -⟩ | ⟨hx, -, -⟩
    · exact .inl h0
    · right
      rcases List.mem_append.mp hx with hx | hx
      · obtain ⟨r, hr, rfl⟩ := List.mem_map.mp hx
        rw [hstop r hr]
        exact touchingBelow_none hb hr
      · exact hT x hx

/-- The test on the nearest address above finds the region that starts after `t`. -/
theorem above_cases (h : Around l t T lo hi) (hT : ∀ q ∈ T, q ≠ t.stop)
    (hx : NearestAbove (l.map Region.start ++ T) t.start x) :
    (∃ a, touchingAbove l t = some a ∧ x = a.start ∧ t.stop = x) ∨
      (touchingAbove l t = none ∧ t.stop ≠ x) := by
  cases ha : touchingAbove l t with
  | some a =>
    obtain ⟨hmem, hat⟩ := touchingAbove_some ha
    have hxa := h.above hx hmem hat
    exact .inl ⟨a, rfl, hxa, by rw [hxa, hat]⟩
  | none =>
    refine .inr ⟨rfl, ?_⟩
    rcases hx with ⟨rfl, -⟩ | ⟨hx, -, -⟩
    · have := h.len
      unfold Region.stop
      omega
    · rcases List.mem_append.mp hx with hx | hx
      · obtain ⟨r, hr, rfl⟩ := List.mem_map.mp hx
        exact (touchingAbove_none ha hr).symm
      · exact (hT x hx).symm

end Around

/-- Away from `b` nothing grows. -/
theorem grow_of_notMem (n : ℕ) (h : b ∉ l) : grow b n l = l := by
  induction l with
  | nil => rfl
  | cons r l ih =>
    have hr : r ≠ b := fun hr => h (hr ▸ List.mem_cons_self)
    have ih := ih fun hb => h (List.mem_cons_of_mem _ hb)
    unfold grow at ih ⊢
    rw [List.map_cons, if_neg hr, ih]

theorem grow_split (n : ℕ) (h : b ∉ l₁) (h' : b ∉ l₂) :
    grow b n (l₁ ++ b :: l₂) = l₁ ++ ⟨b.start, b.len + n⟩ :: l₂ := by
  have h₁ := grow_of_notMem n h
  have h₂ := grow_of_notMem n h'
  unfold grow at *
  rw [List.map_append, List.map_cons, if_pos rfl, h₁, h₂]

@[simp] theorem grow_starts (b : Region) (n : ℕ) (l : List Region) :
    (grow b n l).map Region.start = l.map Region.start := by
  rw [grow, List.map_map]
  refine List.map_congr_left fun r _ => ?_
  simp only [Function.comp]
  split_ifs <;> rfl

theorem exists_of_mem_grow {n : ℕ} (h : t ∈ grow b n l) : ∃ r ∈ l, t.start = r.start := by
  obtain ⟨r, hr, rfl⟩ := List.mem_map.mp h
  refine ⟨r, hr, ?_⟩
  split_ifs <;> rfl

theorem mem_grow_of_ne (n : ℕ) (ht : t ∈ l) (hne : t ≠ b) : t ∈ grow b n l :=
  List.mem_map.mpr ⟨t, ht, if_neg hne⟩

@[simp] theorem grow_zero (b : Region) (l : List Region) : grow b 0 l = l := by
  refine (List.map_congr_left fun r _ => ?_).trans (List.map_id l)
  split_ifs <;> rfl

@[simp] theorem grow_length (b : Region) (n : ℕ) (l : List Region) :
    (grow b n l).length = l.length := List.length_map _

/-- Up to order, growing `b` replaces it. -/
theorem grow_perm (n : ℕ) (hnd : l.Nodup) (hb : b ∈ l) :
    (grow b n l).Perm (⟨b.start, b.len + n⟩ :: l.erase b) := by
  obtain ⟨l₁, l₂, rfl⟩ := List.append_of_mem hb
  obtain ⟨-, hnd₂, hdisj⟩ := List.nodup_append.mp hnd
  have h₁ : b ∉ l₁ := fun h => hdisj b h b List.mem_cons_self rfl
  have h₂ : b ∉ l₂ := (List.nodup_cons.mp hnd₂).1
  rw [grow_split n h₁ h₂, List.erase_append_right _ h₁, List.erase_cons_head]
  exact List.perm_middle

section Joined

/-- The region that freeing `t` makes: `t` and the regions of `l` that touch it. -/
def joined (t : Region) (l : List Region) : Region :=
  match touchingBelow l t, touchingAbove l t with
  | some b, some a => ⟨b.start, b.len + (t.len + a.len)⟩
  | some b, none => ⟨b.start, b.len + t.len⟩
  | none, some a => ⟨t.start, t.len + a.len⟩
  | none, none => t

/-- The regions of `l` that do not touch `t`. -/
def others (t : Region) (l : List Region) : List Region :=
  match touchingBelow l t, touchingAbove l t with
  | some b, some a => (l.erase b).erase a
  | some b, none => l.erase b
  | none, some a => l.erase a
  | none, none => l

theorem others_sublist (t : Region) (l : List Region) : (others t l).Sublist l := by
  unfold others
  split
  · exact List.erase_sublist.trans List.erase_sublist
  · exact List.erase_sublist
  · exact List.erase_sublist
  · exact List.Sublist.refl l

variable {T : List ℕ} {lo hi : ℕ}

theorem Around.nodup (h : Around l t T lo hi) : l.Nodup :=
  List.Nodup.of_map _ (starts_nodup h.disj h.pos)

/-- A region that touches `t` on both sides does not exist. -/
theorem Around.below_ne_above (h : Around l t T lo hi) (hb : touchingBelow l t = some b)
    (ha : touchingAbove l t = some a) : b ≠ a := by
  rintro rfl
  obtain ⟨hmem, hbt⟩ := touchingBelow_some hb
  obtain ⟨-, hat⟩ := touchingAbove_some ha
  have hpos := h.pos b hmem
  unfold Region.stop at *
  omega

/-- The joined region keeps clear of what the touching regions keep clear of. -/
theorem joined_disj {u : Region} (hu : 0 < u.len)
    (hl : ∀ r ∈ l, u ≠ r → r.Disj u) (ht : t.Disj u)
    (hb : ∀ b, touchingBelow l t = some b → u ≠ b)
    (ha : ∀ a, touchingAbove l t = some a → u ≠ a) : (joined t l).Disj u := by
  unfold joined
  split
  · next b a heqb heqa =>
    obtain ⟨hbmem, hbt⟩ := touchingBelow_some heqb
    obtain ⟨hamem, hat⟩ := touchingAbove_some heqa
    exact (hl b hbmem (hb b heqb)).join
      (ht.join (hl a hamem (ha a heqa)) hat.symm hu) hbt hu
  · next b heqb _ =>
    obtain ⟨hbmem, hbt⟩ := touchingBelow_some heqb
    exact (hl b hbmem (hb b heqb)).join ht hbt hu
  · next a _ heqa =>
    obtain ⟨hamem, hat⟩ := touchingAbove_some heqa
    exact ht.join (hl a hamem (ha a heqa)) hat.symm hu
  · exact ht

theorem Around.mem_others (h : Around l t T lo hi) {u : Region} (hu : u ∈ others t l) :
    u ∈ l ∧ (∀ b, touchingBelow l t = some b → u ≠ b) ∧
      ∀ a, touchingAbove l t = some a → u ≠ a := by
  refine ⟨(others_sublist t l).subset hu, ?_, ?_⟩
  · rintro b hb rfl
    unfold others at hu
    rw [hb] at hu
    split at hu <;> simp_all [h.nodup.mem_erase_iff, (h.nodup.erase _).mem_erase_iff]
  · rintro a ha rfl
    unfold others at hu
    rw [ha] at hu
    split at hu <;> simp_all [h.nodup.mem_erase_iff, (h.nodup.erase _).mem_erase_iff]

/-- Replacing the touching regions by the joined one keeps the list disjoint. -/
theorem Around.joined_pairwise (h : Around l t T lo hi) :
    (joined t l :: others t l).Pairwise Disj := by
  refine List.pairwise_cons.mpr ⟨fun u hu => ?_, h.disj.sublist (others_sublist t l)⟩
  obtain ⟨hmem, hb, ha⟩ := h.mem_others hu
  exact joined_disj (h.pos u hmem)
    (fun r hr hne => disjoint_of_ne h.disj hr hmem hne.symm) (h.apart u hmem).symm hb ha

/-- Together with `t` the regions cover what the joined region and the others cover. -/
theorem Around.covered_joined (h : Around l t T lo hi) (x : ℕ) :
    Covered (joined t l :: others t l) x ↔ Covered l x ∨ t.Contains x := by
  have hjoin : ∀ {r u : Region}, r.stop = u.start →
      (Region.Contains ⟨r.start, r.len + u.len⟩ x ↔ r.Contains x ∨ u.Contains x) := by
    intro r u hadj
    unfold Region.Contains Region.stop at *
    simp only
    omega
  have herase : ∀ {r : Region} {l : List Region}, r ∈ l →
      (Covered l x ↔ r.Contains x ∨ Covered (l.erase r) x) := by
    intro r l hr
    rw [covered_perm (List.perm_cons_erase hr), covered_cons]
  rw [covered_cons]
  unfold joined others
  cases hb : touchingBelow l t with
  | some b =>
    obtain ⟨hbm, hbt⟩ := touchingBelow_some hb
    cases ha : touchingAbove l t with
    | some a =>
      obtain ⟨ham, hat⟩ := touchingAbove_some ha
      have hne := h.below_ne_above hb ha
      have hta := hjoin (r := t) (u := a) hat.symm
      have hbta := hjoin (r := b) (u := ⟨t.start, t.len + a.len⟩) hbt
      simp only
      rw [hbta, hta, herase hbm, herase ((List.mem_erase_of_ne hne.symm).mpr ham)]
      tauto
    | none =>
      have hbt' := hjoin hbt
      simp only
      rw [hbt', herase hbm]
      tauto
  | none =>
    cases ha : touchingAbove l t with
    | some a =>
      obtain ⟨ham, hat⟩ := touchingAbove_some ha
      have hta := hjoin hat.symm
      simp only
      rw [hta, herase ham]
      tauto
    | none =>
      simp only
      tauto

/-- No region of the list ends where another one starts. -/
def Coalesced (l : List Region) : Prop := ∀ r ∈ l, ∀ u ∈ l, r.stop ≠ u.start

theorem Coalesced.perm {l l' : List Region} (h : Coalesced l) (hp : l'.Perm l) : Coalesced l' :=
  fun r hr u hu => h r (hp.mem_iff.mp hr) u (hp.mem_iff.mp hu)

/-- The joined region touches none of the others. -/
theorem Around.joined_coalesced (h : Around l t T lo hi) (hl : Coalesced l) :
    Coalesced (joined t l :: others t l) := by
  have hlen := h.len
  have hstart : ∀ r ∈ others t l, r.stop ≠ (joined t l).start := by
    intro r hr
    have hrl := (others_sublist t l).subset hr
    unfold joined
    split
    · next b a hb _ => exact hl r hrl b (touchingBelow_some hb).1
    · next b hb _ => exact hl r hrl b (touchingBelow_some hb).1
    · next a hb _ => exact touchingBelow_none hb hrl
    · next hb _ => exact touchingBelow_none hb hrl
  have hstop : ∀ r ∈ others t l, (joined t l).stop ≠ r.start := by
    intro r hr
    have hrl := (others_sublist t l).subset hr
    unfold joined
    split
    · next b a hb ha =>
      have := hl a (touchingAbove_some ha).1 r hrl
      have hbt := (touchingBelow_some hb).2
      have hat := (touchingAbove_some ha).2
      unfold Region.stop at *
      simp only
      omega
    · next b hb ha =>
      have := touchingAbove_none ha hrl
      have hbt := (touchingBelow_some hb).2
      unfold Region.stop at *
      simp only
      omega
    · next a _ ha =>
      have := hl a (touchingAbove_some ha).1 r hrl
      have hat := (touchingAbove_some ha).2
      unfold Region.stop at *
      simp only
      omega
    · next _ ha => exact (touchingAbove_none ha hrl).symm
  have hself : (joined t l).stop ≠ (joined t l).start := by
    have : 0 < (joined t l).len := by
      unfold joined
      split
      · exact Nat.add_pos_right _ (Nat.add_pos_left hlen _)
      · exact Nat.add_pos_right _ hlen
      · exact Nat.add_pos_left hlen _
      · exact hlen
    unfold Region.stop
    omega
  intro r hr u hu
  obtain rfl | hr := List.mem_cons.mp hr
  · obtain rfl | hu := List.mem_cons.mp hu
    · exact hself
    · exact hstop u hu
  · obtain rfl | hu := List.mem_cons.mp hu
    · exact hstart r hr
    · exact hl r ((others_sublist t l).subset hr) u ((others_sublist t l).subset hu)

end Joined
end KmallocKfree
