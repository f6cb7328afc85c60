import KmallocKfree.Formats

/-!
# The return of `vsprintf`

The last assertion of `vsprintf` assigns where it should compare: `ret_num` becomes
`strlen(out)`, and the assertion fails when that is 0. So an empty output halts the machine,
and a NUL printed by `%c` ends the count.
-/
namespace KmallocKfree

/-- `vsprintf` returns the number of characters it stored, and a NUL stands behind them. -/
def Completes (ps : List Piece) : Prop :=
  ∃ w, vsprintf (some (text (format ps))) (arguments ps) = .ok w ∧ w.terminated = true ∧
    w.ret = some (w.chars.length : ℤ)

variable {ps : List Piece} {x : Piece} {l : List Char}

section Counts

/-- The length as the assertion leaves it is the number of characters and not 0. -/
theorem count_iff : wrapInt (strlen l) = (l.length : ℤ) ∧ wrapInt (strlen l) ≠ 0 ↔
    l ≠ [] ∧ nul ∉ l ∧ l.length < 2147483648 := by
  constructor
  · rintro ⟨heq, hne⟩
    have hle := wrapInt_le (strlen l)
    have hlt := wrapInt_lt (strlen l)
    refine ⟨?_, ?_, by omega⟩
    · rintro rfl
      exact hne rfl
    · intro hnul
      have hshort : strlen l < l.length := by
        rw [strlen_eq]
        apply lt_of_le_of_ne
        · exact (List.takeWhile_prefix _).length_le
        · intro hlen
          have hsame : cString l = l := (List.takeWhile_prefix _).eq_of_length hlen
          exact nul_not_mem_cString (hsame.symm ▸ hnul)
      omega
  · rintro ⟨hne, hnul, hlen⟩
    rw [strlen_of_not_mem hnul, wrapInt_natCast hlen]
    refine ⟨rfl, fun hzero => hne ?_⟩
    exact List.length_eq_zero_iff.mp (Int.natCast_eq_zero.mp hzero)

/-- Only an empty string prints nothing. -/
theorem expand_eq_nil (hint : x.IsInt) : x.expand = [] ↔ ∃ l, x = .str l ∧ cString l = [] := by
  constructor
  · intro hnil
    cases x with
    | lit c => cases hnil
    | percent => cases hnil
    | char i => cases hnil
    | str l => exact ⟨l, rfl, hnil⟩
    | int i =>
      have hprinted : printed i = [] := hnil
      by_cases hneg : i < 0
      · rw [printed, if_pos hneg] at hprinted
        cases hprinted
      · rw [printed_eq (by omega) hint.2, if_neg hneg] at hprinted
        exact absurd hprinted Nat.toDigits_ne_nil
  · rintro ⟨l, rfl, hl⟩
    exact hl

end Counts

section Completion

/-- `vsprintf` completes and reports its length when some piece is more than an empty string,
no `%c` prints a NUL, and the length is an `int`; in no other case. -/
theorem vsprintf_completes_iff (hps : ∀ x ∈ ps, x.item.Ordinary ∧ x.IsInt) :
    Completes ps ↔ (∃ x ∈ ps, ∀ l, x = .str l → cString l ≠ []) ∧
      (∀ i, .char i ∈ ps → toChar i ≠ nul) ∧ (expansion ps).length < 2147483648 := by
  have hrun := vsprintf_eq fun x hx => (hps x hx).1
  have hempty : expansion ps ≠ [] ↔ ∃ x ∈ ps, ∀ l, x = .str l → cString l ≠ [] := by
    simp only [expansion, ne_eq, List.flatMap_eq_nil_iff, not_forall, exists_prop]
    apply exists_congr
    intro x
    rw [and_congr_right_iff]
    intro hx
    rw [expand_eq_nil (hps x hx).2, not_exists]
    simp only [not_and]
  have hnul : nul ∉ expansion ps ↔ ∀ i, .char i ∈ ps → toChar i ≠ nul := by
    rw [expansion, List.mem_flatMap, not_exists]
    constructor
    · intro h i hi hzero
      exact h (.char i) ⟨hi, List.mem_singleton.mpr hzero.symm⟩
    · rintro h x ⟨hx, hmem⟩
      obtain ⟨i, rfl, hi⟩ := (nul_mem_expand (hps x hx).1 (hps x hx).2).mp hmem
      exact h i hx hi
  rw [← hempty, ← hnul, ← count_iff]
  constructor
  · rintro ⟨w, hw, -, hret⟩
    rw [hrun] at hw
    cases hw
    simp only at hret
    split_ifs at hret with hne
    exact ⟨Option.some.inj hret, hne⟩
  · rintro ⟨heq, hne⟩
    refine ⟨_, hrun, rfl, ?_⟩
    rw [if_pos hne, heq]

/-- `"x%d"` with -42. -/
theorem vsprintf_completes_number : Completes [.lit 'x', .int (-42)] ↔
    (∃ x ∈ [Piece.lit 'x', .int (-42)], ∀ l, x = .str l → cString l ≠ []) ∧
      (∀ i, Piece.char i ∈ [Piece.lit 'x', .int (-42)] → toChar i ≠ nul) ∧
      (expansion [.lit 'x', .int (-42)]).length < 2147483648 := by
  apply vsprintf_completes_iff
  intro x hx
  obtain rfl | rfl : x = .lit 'x' ∨ x = .int (-42) := by simpa using hx
  · exact ⟨⟨by decide, by decide⟩, trivial⟩
  · exact ⟨trivial, by decide, by decide⟩

/-- `"%s"` with an empty string: the assertion halts the machine. -/
theorem vsprintf_halts : ¬ ∀ ps : List Piece, (∀ x ∈ ps, x.item.Ordinary ∧ x.IsInt) →
    Completes ps := by
  intro hall
  obtain ⟨w, hw, -, hret⟩ := hall [.str []] fun x hx => by
    obtain rfl := List.mem_singleton.mp hx
    exact ⟨trivial, trivial⟩
  have hrun : vsprintf (some ['%', 's']) [.str []] = .ok ⟨[], true, none⟩ := by decide +kernel
  obtain rfl : w = ⟨[], true, none⟩ := Except.ok.inj (hw.symm.trans hrun)
  cases hret

end Completion
end KmallocKfree
