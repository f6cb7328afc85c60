import KmallocKfree.Program

/-!
# Footprints

A footprint bounds what a program touches: the bytes it reads and writes, the
pointers it goes through, the variables and the locks. From a `wp` proof whose
operations stay in a footprint follow the two facts that make reasoning local:
everything outside is unchanged (`wp_frame`), and the program does the same from
every store that agrees on the footprint (`wp_transfer`).
-/
namespace KmallocKfree

structure Footprint (K V L : Type) where
  reads : ℕ → Prop
  writes : ℕ → Prop
  derefs : K → ℕ → Prop
  gets : V → Prop
  sets : V → Prop
  locks : L → Prop

variable {K V L E α : Type}

namespace Footprint

def Allows (F : Footprint K V L) : Op K V L → Prop
  | .load k p off n => F.derefs k p ∧ ∀ x, p + off ≤ x → x < p + off + n → F.reads x
  | .store k p off n _ => F.derefs k p ∧ ∀ x, p + off ≤ x → x < p + off + n → F.writes x
  | .fill k p n => F.derefs k p ∧ ∀ x, p ≤ x → x < p + n → F.writes x
  | .get x => F.gets x
  | .set x _ => F.sets x
  | .acquire l => F.locks l
  | .peek l => F.locks l
  | .put l _ => F.locks l

/-- The object of `n` bytes at `p` may be read through type `k`. -/
structure Sees (F : Footprint K V L) (k : K) (p n : ℕ) : Prop where
  ne_null : p ≠ 0
  derefs : F.derefs k p
  reads : ∀ x, p ≤ x → x < p + n → F.reads x

/-- The object of `n` bytes at `p` may be read and written through type `k`. -/
structure Owns (F : Footprint K V L) (k : K) (p n : ℕ) : Prop extends F.Sees k p n where
  writes : ∀ x, p ≤ x → x < p + n → F.writes x

/-- The record of 16 bytes at `p` may be read through type `k`, and written behind its link. -/
structure Updates (F : Footprint K V L) (k : K) (p : ℕ) : Prop extends F.Sees k p 16 where
  writes : ∀ x, p + 8 ≤ x → x < p + 16 → F.writes x

variable {F : Footprint K V L} {k : K} {p n off len : ℕ}

theorem Updates.of_owns (h : F.Owns k p 16) : F.Updates k p :=
  ⟨h.toSees, fun x h₁ h₂ => h.writes x (by omega) h₂⟩

theorem Sees.load (h : F.Sees k p n) (hoff : off + len ≤ n) :
    F.Allows (.load k p off len) :=
  ⟨h.derefs, fun x h₁ h₂ => h.reads x (by omega) (by omega)⟩

theorem Owns.store (h : F.Owns k p n) (hoff : off + len ≤ n) (v : ℕ) :
    F.Allows (.store k p off len v) :=
  ⟨h.derefs, fun x h₁ h₂ => h.writes x (by omega) (by omega)⟩

/-- Every place of `F` is a place of `G`. -/
structure Sub (F G : Footprint K V L) : Prop where
  reads : ∀ x, F.reads x → G.reads x
  writes : ∀ x, F.writes x → G.writes x
  derefs : ∀ k p, F.derefs k p → G.derefs k p
  gets : ∀ x, F.gets x → G.gets x
  sets : ∀ x, F.sets x → G.sets x
  locks : ∀ l, F.locks l → G.locks l

theorem Sub.refl (F : Footprint K V L) : F.Sub F :=
  ⟨fun _ => id, fun _ => id, fun _ _ => id, fun _ => id, fun _ => id, fun _ => id⟩

theorem Sub.allows {G : Footprint K V L} (h : F.Sub G) {o : Op K V L} (ho : F.Allows o) :
    G.Allows o := by
  cases o with
  | load k p off n => exact ⟨h.derefs k p ho.1, fun x h₁ h₂ => h.reads x (ho.2 x h₁ h₂)⟩
  | store k p off n v => exact ⟨h.derefs k p ho.1, fun x h₁ h₂ => h.writes x (ho.2 x h₁ h₂)⟩
  | fill k p n => exact ⟨h.derefs k p ho.1, fun x h₁ h₂ => h.writes x (ho.2 x h₁ h₂)⟩
  | get x => exact h.gets x ho
  | set x v => exact h.sets x ho
  | acquire l => exact h.locks l ho
  | peek l => exact h.locks l ho
  | put l v => exact h.locks l ho

end Footprint

namespace Prog

variable [DecidableEq V] [DecidableEq L] {F : Footprint K V L}

/-- What lies outside a footprint is the same in both stores. -/
structure Framed (F : Footprint K V L) (s s' : Store V L) : Prop where
  mem : ∀ x, ¬ F.writes x → s'.mem x = s.mem x
  var : ∀ x, ¬ F.sets x → s'.var x = s.var x
  lock : ∀ l, ¬ F.locks l → s'.lock l = s.lock l

omit [DecidableEq V] [DecidableEq L] in
theorem Framed.refl (F : Footprint K V L) (s : Store V L) : Framed F s s :=
  ⟨fun _ _ => rfl, fun _ _ => rfl, fun _ _ => rfl⟩

omit [DecidableEq V] [DecidableEq L] in
theorem Framed.trans {s t u : Store V L} (h : Framed F s t) (h' : Framed F t u) :
    Framed F s u where
  mem x hx := (h'.mem x hx).trans (h.mem x hx)
  var x hx := (h'.var x hx).trans (h.var x hx)
  lock l hl := (h'.lock l hl).trans (h.lock l hl)

/-- One allowed operation changes nothing outside the footprint. -/
theorem framed_run {s s' : Store V L} {o : Op K V L} {v : ℕ} (ho : F.Allows o)
    (hr : (o.run s : Except (Fault E) (ℕ × Store V L)) = .ok (v, s')) : Framed F s s' := by
  cases o with
  | load k p off n =>
    simp only [Op.run] at hr
    split_ifs at hr
    cases hr
    exact Framed.refl F s
  | store k p off n w =>
    simp only [Op.run] at hr
    split_ifs at hr
    cases hr
    refine ⟨fun x hx => ByteMemory.store_outside ?_, fun _ _ => rfl, fun _ _ => rfl⟩
    have hin := ho.2 x
    by_contra hout
    exact hx (hin (by omega) (by omega))
  | fill k p n =>
    simp only [Op.run] at hr
    split_ifs at hr
    cases hr
    refine ⟨fun x hx => ByteMemory.fill_outside ?_, fun _ _ => rfl, fun _ _ => rfl⟩
    have hin := ho.2 x
    by_contra hout
    exact hx (hin (by omega) (by omega))
  | get x => cases hr; exact Framed.refl F s
  | set x w =>
    cases hr
    refine ⟨fun _ _ => rfl, fun y hy => if_neg ?_, fun _ _ => rfl⟩
    rintro rfl
    exact hy ho
  | acquire l =>
    simp only [Op.run] at hr
    split_ifs at hr
    cases hr
    refine ⟨fun _ _ => rfl, fun _ _ => rfl, fun l' hl' => if_neg ?_⟩
    rintro rfl
    exact hl' ho
  | peek l => cases hr; exact Framed.refl F s
  | put l w =>
    cases hr
    refine ⟨fun _ _ => rfl, fun _ _ => rfl, fun l' hl' => if_neg ?_⟩
    rintro rfl
    exact hl' ho

/-- The frame rule. -/
theorem wp_frame {p : Prog K V L E α} {s : Store V L} {Q : α → Store V L → Prop}
    (h : wp F.Allows p s Q) : wp F.Allows p s fun a s' => Q a s' ∧ Framed F s s' := by
  induction p generalizing s with
  | ret a => exact ⟨h, Framed.refl F s⟩
  | fail e => exact h
  | op o k ih =>
    simp only [wp] at h ⊢
    obtain ⟨ho, hrest⟩ := h
    refine ⟨ho, ?_⟩
    cases hr : (o.run s : Except (Fault E) (ℕ × Store V L)) with
    | error e => rw [hr] at hrest; exact hrest
    | ok r =>
      rw [hr] at hrest
      have hframe := framed_run ho hr
      exact wp_post (ih r.1 hrest) fun a t ht => ⟨ht.1, hframe.trans ht.2⟩

/-- A part of a program may be verified in its own, smaller footprint. -/
theorem wp_within {G : Footprint K V L} {p : Prog K V L E α} {s : Store V L}
    {Q : α → Store V L → Prop} (h : wp F.Allows p s Q) (hsub : F.Sub G) :
    wp G.Allows p s fun a s' => Q a s' ∧ Framed F s s' :=
  wp_mono (wp_frame h) (fun _ ho => hsub.allows ho) fun _ _ => id

/-- Two stores that a footprint cannot tell apart. -/
structure Agree (F : Footprint K V L) (s t : Store V L) : Prop where
  mem : ∀ x, F.reads x → t.mem x = s.mem x
  var : ∀ x, F.gets x → t.var x = s.var x
  lock : ∀ l, F.locks l → t.lock l = s.lock l

/-- `t` went to `t'` as `s` went to `s'`: each place was left alone on both
sides, or ends with the same content. -/
structure Parallel (s t s' t' : Store V L) : Prop where
  mem : ∀ x, (s'.mem x = s.mem x ∧ t'.mem x = t.mem x) ∨ t'.mem x = s'.mem x
  var : ∀ x, (s'.var x = s.var x ∧ t'.var x = t.var x) ∨ t'.var x = s'.var x
  lock : ∀ l, (s'.lock l = s.lock l ∧ t'.lock l = t.lock l) ∨ t'.lock l = s'.lock l

omit [DecidableEq V] [DecidableEq L] in
theorem Parallel.refl (s t : Store V L) : Parallel s t s t :=
  ⟨fun _ => .inl ⟨rfl, rfl⟩, fun _ => .inl ⟨rfl, rfl⟩, fun _ => .inl ⟨rfl, rfl⟩⟩

omit [DecidableEq V] [DecidableEq L] in
theorem Parallel.trans {s t s' t' s'' t'' : Store V L} (h : Parallel s t s' t')
    (h' : Parallel s' t' s'' t'') : Parallel s t s'' t'' where
  mem x := by
    rcases h'.mem x with ⟨h₁, h₂⟩ | h₁
    · rw [h₁, h₂]; exact h.mem x
    · exact .inr h₁
  var x := by
    rcases h'.var x with ⟨h₁, h₂⟩ | h₁
    · rw [h₁, h₂]; exact h.var x
    · exact .inr h₁
  lock x := by
    rcases h'.lock x with ⟨h₁, h₂⟩ | h₁
    · rw [h₁, h₂]; exact h.lock x
    · exact .inr h₁

omit [DecidableEq V] [DecidableEq L] in
theorem Agree.step {s t s' t' : Store V L} (h : Agree F s t) (hp : Parallel s t s' t') :
    Agree F s' t' where
  mem x hx := by
    rcases hp.mem x with ⟨h₁, h₂⟩ | h₁
    · rw [h₁, h₂]; exact h.mem x hx
    · exact h₁
  var x hx := by
    rcases hp.var x with ⟨h₁, h₂⟩ | h₁
    · rw [h₁, h₂]; exact h.var x hx
    · exact h₁
  lock x hx := by
    rcases hp.lock x with ⟨h₁, h₂⟩ | h₁
    · rw [h₁, h₂]; exact h.lock x hx
    · exact h₁

/-- An allowed operation answers alike in two stores that agree. -/
theorem run_transfer {s t s' : Store V L} {o : Op K V L} {v : ℕ} (ho : F.Allows o)
    (ha : Agree F s t) (hr : (o.run s : Except (Fault E) (ℕ × Store V L)) = .ok (v, s')) :
    ∃ t', (o.run t : Except (Fault E) (ℕ × Store V L)) = .ok (v, t') ∧ Parallel s t s' t' := by
  cases o with
  | load k p off n =>
    simp only [Op.run] at hr ⊢
    split_ifs at hr ⊢ with hp
    cases hr
    refine ⟨t, ?_, Parallel.refl s t⟩
    rw [ByteMemory.load_congr fun x h₁ h₂ => ha.mem x (ho.2 x h₁ h₂)]
  | store k p off n w =>
    simp only [Op.run] at hr ⊢
    split_ifs at hr ⊢ with hp
    cases hr
    refine ⟨_, rfl, fun x => ?_, fun _ => .inl ⟨rfl, rfl⟩, fun _ => .inl ⟨rfl, rfl⟩⟩
    by_cases hx : p + off ≤ x ∧ x < p + off + n
    · right; simp [ByteMemory.store, hx]
    · left
      exact ⟨ByteMemory.store_outside (by omega), ByteMemory.store_outside (by omega)⟩
  | fill k p n =>
    simp only [Op.run] at hr ⊢
    split_ifs at hr ⊢ with hp
    cases hr
    refine ⟨_, rfl, fun x => ?_, fun _ => .inl ⟨rfl, rfl⟩, fun _ => .inl ⟨rfl, rfl⟩⟩
    by_cases hx : p ≤ x ∧ x < p + n
    · right; simp [ByteMemory.fill, hx]
    · left
      exact ⟨ByteMemory.fill_outside (by omega), ByteMemory.fill_outside (by omega)⟩
  | get x =>
    cases hr
    exact ⟨t, by simp only [Op.run, ha.var x ho], Parallel.refl s t⟩
  | set x w =>
    cases hr
    refine ⟨_, rfl, fun _ => .inl ⟨rfl, rfl⟩, fun y => ?_, fun _ => .inl ⟨rfl, rfl⟩⟩
    by_cases hy : y = x
    · right; simp [hy]
    · left; simp [hy]
  | acquire l =>
    simp only [Op.run] at hr ⊢
    rw [ha.lock l ho]
    split_ifs at hr ⊢ with hl
    cases hr
    refine ⟨_, rfl, fun _ => .inl ⟨rfl, rfl⟩, fun _ => .inl ⟨rfl, rfl⟩, fun l' => ?_⟩
    by_cases hl' : l' = l
    · right; simp [hl']
    · left; simp [hl']
  | peek l =>
    cases hr
    exact ⟨t, by simp only [Op.run, ha.lock l ho], Parallel.refl s t⟩
  | put l w =>
    cases hr
    refine ⟨_, rfl, fun _ => .inl ⟨rfl, rfl⟩, fun _ => .inl ⟨rfl, rfl⟩, fun l' => ?_⟩
    by_cases hl' : l' = l
    · right; simp [hl']
    · left; simp [hl']

/-- Locality: a program that stays in a footprint does the same from every store
that agrees on the footprint. -/
theorem wp_transfer {p : Prog K V L E α} {s t : Store V L} {Q : α → Store V L → Prop}
    (h : wp F.Allows p s Q) (ha : Agree F s t) :
    wp F.Allows p t fun a t' => ∃ s', exec p s = .ok (a, s') ∧ Q a s' ∧ Parallel s t s' t' := by
  induction p generalizing s t with
  | ret a => exact ⟨s, rfl, h, Parallel.refl s t⟩
  | fail e => exact h
  | op o k ih =>
    simp only [wp] at h ⊢
    obtain ⟨ho, hrest⟩ := h
    refine ⟨ho, ?_⟩
    cases hr : (o.run s : Except (Fault E) (ℕ × Store V L)) with
    | error e => rw [hr] at hrest; exact hrest.elim
    | ok r =>
      rw [hr] at hrest
      obtain ⟨t', ht, hpar⟩ := run_transfer ho ha hr
      rw [ht]
      refine wp_post (ih r.1 hrest (ha.step hpar)) ?_
      rintro a u ⟨s', he, hq, hpar'⟩
      exact ⟨s', by simp only [exec, hr]; exact he, hq, hpar.trans hpar'⟩

/-- What a program writes in one footprint, a program in the other does not touch. -/
structure Independent (F G : Footprint K V L) : Prop where
  reads : ∀ x, F.writes x → ¬ G.reads x
  reads' : ∀ x, G.writes x → ¬ F.reads x
  writes : ∀ x, F.writes x → ¬ G.writes x
  gets : ∀ x, F.sets x → ¬ G.gets x
  gets' : ∀ x, G.sets x → ¬ F.gets x
  sets : ∀ x, F.sets x → ¬ G.sets x
  locks : ∀ l, F.locks l → ¬ G.locks l

omit [DecidableEq V] [DecidableEq L] in
/-- A change within `F` cannot be seen in an independent footprint. -/
theorem Independent.agree {G : Footprint K V L} {s s' : Store V L} (h : Independent F G)
    (hf : Framed F s s') : Agree G s s' where
  mem x hx := hf.mem x fun hw => h.reads x hw hx
  var x hx := hf.var x fun hw => h.gets x hw hx
  lock l hl := hf.lock l fun hw => h.locks l hw hl

omit [DecidableEq V] [DecidableEq L] in
theorem Independent.symm {G : Footprint K V L} (h : Independent F G) : Independent G F :=
  ⟨h.reads', h.reads, fun x hG hF => h.writes x hF hG, h.gets', h.gets,
    fun x hG hF => h.sets x hF hG, fun l hG hF => h.locks l hF hG⟩

/-- One place of two independent runs: `v₁` after the first and `w` after both, `v₂` after
the second and `w'` after both in the other order. -/
theorem meet_place {A : Type} {v v₁ v₂ w w' : A} {f g : Prop} (hfg : f → ¬ g)
    (hf : ¬ f → v₁ = v) (hg : ¬ g → v₂ = v) (hgw : ¬ g → w = v₁) (hfw : ¬ f → w' = v₂)
    (hw : (v₂ = v ∧ w = v₁) ∨ w = v₂) (hw' : (v₁ = v ∧ w' = v₂) ∨ w' = v₁) : w = w' := by
  by_cases hF : f
  · have hG := hfg hF
    rw [hgw hG]
    obtain ⟨h₁, h₂⟩ | h₁ := hw'
    · rw [h₁, h₂, hg hG]
    · exact h₁.symm
  · rw [hfw hF]
    obtain ⟨h₁, h₂⟩ | h₁ := hw
    · rw [h₁, h₂, hf hF]
    · exact h₁

/-- Programs in independent footprints commute. -/
theorem exec_commute {G : Footprint K V L} {β : Type} {p : Prog K V L E α} {q : Prog K V L E β}
    {s : Store V L} {P : α → Store V L → Prop} {Q : β → Store V L → Prop}
    (hind : Independent F G) (hp : wp F.Allows p s P) (hq : wp G.Allows q s Q) :
    ∃ a b s₁ s₂ t, exec p s = .ok (a, s₁) ∧ exec q s₁ = .ok (b, t) ∧
      exec q s = .ok (b, s₂) ∧ exec p s₂ = .ok (a, t) ∧ P a s₁ ∧ Q b s₂ ∧
      Framed F s s₁ ∧ Framed G s s₂ := by
  obtain ⟨a, s₁, hp₁, hP, hF⟩ := wp_exec (wp_frame hp)
  obtain ⟨b, s₂, hq₂, hQ, hG⟩ := wp_exec (wp_frame hq)
  obtain ⟨b', t, hq₁, ⟨u, hu, -, hpar⟩, hGt⟩ := wp_exec (wp_frame (wp_transfer hq (hind.agree hF)))
  obtain ⟨a', t', hp₂, ⟨u', hu', -, hpar'⟩, hFt⟩ :=
    wp_exec (wp_frame (wp_transfer hp (hind.symm.agree hG)))
  rw [hq₂] at hu
  cases hu
  rw [hp₁] at hu'
  cases hu'
  have hmeet : t = t' := by
    have hmem : t.mem = t'.mem := funext fun x => meet_place (hind.writes x) (hF.mem x) (hG.mem x)
      (hGt.mem x) (hFt.mem x) (hpar.mem x) (hpar'.mem x)
    have hvar : t.var = t'.var := funext fun x => meet_place (hind.sets x) (hF.var x) (hG.var x)
      (hGt.var x) (hFt.var x) (hpar.var x) (hpar'.var x)
    have hlock : t.lock = t'.lock := funext fun l => meet_place (hind.locks l) (hF.lock l)
      (hG.lock l) (hGt.lock l) (hFt.lock l) (hpar.lock l) (hpar'.lock l)
    cases t
    cases t'
    simp_all
  subst hmeet
  exact ⟨a, b, s₁, s₂, t, hp₁, hq₁, hq₂, hp₂, hP, hQ, hF, hG⟩

end Prog
end KmallocKfree
