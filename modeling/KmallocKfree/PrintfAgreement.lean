import KmallocKfree.Rounds

/-!
# `printf` against `vsprintf`

In `printf` the case of the percent sign has no `break`: after a conversion the next
character of the format is printed as it stands, whatever it is. And a tab counts for four
characters. So the two agree for the formats in which every conversion is followed by an
ordinary character, or by `%%` and an ordinary character that is no conversion of `printf`,
and that have no other tabs than those.
-/
namespace KmallocKfree

/-- By how much the count of `printf` exceeds the output; none when the output differs. -/
def excess : List Item → Option ℕ
  | [] => some 0
  | .lit c :: fs => (excess fs).map fun t => if c = '\t' then t + 3 else t
  | _ :: .lit _ :: fs => excess fs
  | _ :: .percent :: .lit c :: fs => if c ∈ ['d', 'c', 's', 'x', 'b'] then none else excess fs
  | _ => none

/-- `printf` treats the format as `vsprintf` does. -/
def PlainFormat (fs : List Item) : Prop := ∃ t, excess fs = some t ∧ 4294967296 ∣ t

/-- The two print the same characters and return the same count. -/
def PrintfAgrees (ps : List Piece) : Prop :=
  ∃ out r w, printf (some (text (format ps))) (arguments ps) = .ok (out, r) ∧
    vsprintf (some (text (format ps))) (arguments ps) = .ok w ∧ w.chars = out ∧ w.ret = some r

section Rounds

variable {x : Piece} {rest out : List Char} {ap : List Arg} {ret r : ℤ} {n cnt : ℕ} {c d e : Char}
  {s s' : Printer}

theorem printf_lit (hnul : c ≠ nul) (hpercent : c ≠ '%') :
    scan printfRound (n + 1) ⟨c :: rest, ap, out, wrapInt r, 0⟩ =
      scan printfRound n ⟨rest, ap, out ++ [c], wrapInt (r + if c = '\t' then 4 else 1), 0⟩ := by
  rw [scan_cons rfl hnul]
  by_cases htab : c = '\t'
  · subst htab
    rw [if_pos rfl, ← wrapInt_add]
    rfl
  · rw [if_neg htab, ← wrapInt_add]
    unfold printfRound
    split
    · contradiction
    · rfl
    · rfl
    · contradiction
    · rfl

theorem printf_int (i : ℤ) :
    printfConversion 'd' ⟨d :: rest, .int i :: ap, out, wrapInt r, 0⟩ =
      .ok ⟨rest, ap, out ++ printed i, wrapInt (r + (printed i).length), 0⟩ := by
  unfold printed
  by_cases hneg : i < 0
  · rw [if_pos hneg]
    have hcount : wrapInt (r + ('-' :: digitChars 10 (digitCount 10 (wrapInt (-i)) 0)
        (wrapInt (-i))).length) =
          wrapInt (wrapInt (wrapInt r + 1) + digitCount 10 (wrapInt (-i)) 0) := by
      simp only [List.length_cons, length_digitChars, wrapInt_add, Nat.cast_add, Nat.cast_one]
      congr 1
      omega
    simp only [printfConversion, vaInt, bind, Except.bind, if_pos hneg, intDigits_emit, hcount]
    simp [Printer.next, Printer.emit, Printer.count]
  · rw [if_neg hneg, length_digitChars, ← wrapInt_add]
    simp only [printfConversion, vaInt, bind, Except.bind, if_neg hneg, intDigits_emit]
    rfl

/-- The conversion of a piece prints its expansion. -/
theorem printf_conversion (hx : x.item.text = ['%', d]) :
    printfConversion d ⟨d :: rest, x.args ++ ap, out, wrapInt r, 0⟩ =
      .ok ⟨rest, ap, out ++ x.expand, wrapInt (r + x.expand.length), 0⟩ := by
  cases x with
  | lit c => cases hx
  | percent =>
    cases hx
    rw [← wrapInt_add]
    rfl
  | char i =>
    cases hx
    rw [← wrapInt_add]
    rfl
  | int i =>
    cases hx
    exact printf_int i
  | str l =>
    cases hx
    have hconv : printfConversion 's' ⟨'s' :: rest, .str l :: ap, out, wrapInt r, 0⟩ = (do
        let s ← putString emitChar l ⟨'s' :: rest, ap, out, wrapInt (wrapInt r + strlen l), 0⟩
        .ok s.next) := rfl
    change printfConversion 's' ⟨'s' :: rest, .str l :: ap, out, wrapInt r, 0⟩ = _
    rw [hconv, putString_emit, wrapInt_add, strlen_eq]
    rfl

/-- A conversion also prints the character behind it. -/
theorem printf_piece (hx : x.item.text = ['%', d]) :
    scan printfRound (n + 1) ⟨'%' :: d :: e :: rest, x.args ++ ap, out, wrapInt r, 0⟩ =
      scan printfRound n
        ⟨rest, ap, out ++ x.expand ++ [e], wrapInt (r + x.expand.length + 1), 0⟩ := by
  rw [scan_cons rfl (by decide), ← wrapInt_add (r + x.expand.length)]
  have hround : printfRound '%' ⟨'%' :: d :: e :: rest, x.args ++ ap, out, wrapInt r, 0⟩ = (do
      let s ← printfConversion d ⟨d :: e :: rest, x.args ++ ap, out, wrapInt r, 0⟩
      let s ← printfDefault s
      .ok s.next) := by
    simp only [printfRound, Printer.char, Printer.next, bind, Except.bind]
    rfl
  rw [hround, printf_conversion hx]
  rfl

/-- A percent sign before a character that is no conversion prints that character. -/
theorem printf_unknown (hd : d ∉ ['%', 'd', 'c', 's', 'x', 'b']) :
    scan printfRound (n + 1) ⟨'%' :: d :: rest, ap, out, wrapInt r, 0⟩ =
      scan printfRound n ⟨rest, ap, out ++ [d], wrapInt (r + 1), 0⟩ := by
  have hconv : ∀ s, printfConversion d s = .ok s := by
    intro s
    unfold printfConversion
    split <;> first | rfl | simp at hd
  rw [scan_cons rfl (by decide), ← wrapInt_add]
  simp only [printfRound, Printer.char, Printer.next, List.tail_cons, bind, Except.bind, hconv]
  rfl

end Rounds

section Agreement

variable {ps : List Piece} {fs : List Item} {out : List Char} {ap : List Arg} {r : ℤ} {n t : ℕ}

theorem format_eq_cons {x : Item} (h : format ps = x :: fs) :
    ∃ y qs, ps = y :: qs ∧ y.item = x ∧ format qs = fs := by
  obtain ⟨y, qs, rfl, hy, hqs⟩ := List.map_eq_cons_iff.mp h
  exact ⟨y, qs, rfl, hy, hqs⟩

theorem piece_lit {x : Piece} {c : Char} (h : x.item = .lit c) : x = .lit c := by
  cases x <;> cases h
  rfl

theorem piece_percent {x : Piece} (h : x.item = .percent) : x = .percent := by
  cases x <;> cases h
  rfl

/-- Every other item is a conversion. -/
theorem text_of_not_lit {x : Item} (h : ∀ c, x = .lit c → False) : ∃ d, x.text = ['%', d] := by
  cases x with
  | lit c => exact (h c rfl).elim
  | percent => exact ⟨'%', rfl⟩
  | int => exact ⟨'d', rfl⟩
  | char => exact ⟨'c', rfl⟩
  | str => exact ⟨'s', rfl⟩

/-- In a format without a difference in the output `printf` prints the expansion. -/
theorem printf_scan (h : excess (format ps) = some t) (hps : ∀ x ∈ ps, x.item.Ordinary)
    (hfuel : (text (format ps)).length < n) :
    scan printfRound n ⟨text (format ps) ++ [nul], arguments ps ++ ap, out, wrapInt r, 0⟩ =
      .ok ⟨[nul], ap, out ++ expansion ps, wrapInt (r + (expansion ps).length + t), 0⟩ := by
  -- the cases are those of `excess`
  generalize hfs : format ps = fs at h hfuel
  induction fs using excess.induct generalizing ps n out r t with
  | case1 =>
    obtain rfl : ps = [] := List.map_eq_nil_iff.mp hfs
    obtain rfl : 0 = t := Option.some.inj h
    obtain ⟨n, rfl⟩ : ∃ m, n = m + 1 := ⟨n - 1, by omega⟩
    rw [scan_end (p := []) rfl]
    simp [text, arguments, expansion]
  | case2 c fs ih =>
    rw [excess] at h
    obtain ⟨t', ht', rfl⟩ := Option.map_eq_some_iff.mp h
    obtain ⟨y, qs, rfl, hy, hqs⟩ := format_eq_cons hfs
    obtain rfl := piece_lit hy
    obtain ⟨hnul, hpercent⟩ := hps _ List.mem_cons_self
    simp only [text_cons, Item.text_lit, List.length_append, List.length_singleton] at hfuel
    obtain ⟨n, rfl⟩ : ∃ m, n = m + 1 := ⟨n - 1, by omega⟩
    have hrest := @ih qs (out ++ [c]) (r + if c = '\t' then 4 else 1) n t'
      (fun z hz => hps z (List.mem_cons_of_mem _ hz)) hqs ht' (by omega)
    simp only [text_cons, arguments_cons, expansion_cons, Item.text_lit, Piece.args_lit,
      Piece.expand_lit, List.nil_append, List.cons_append]
    rw [printf_lit hnul hpercent, hrest, List.append_assoc, List.singleton_append]
    congr 3
    rw [List.length_cons]
    split_ifs <;> omega
  | case3 x c fs hx ih =>
    rw [excess.eq_3 _ _ _ hx] at h
    obtain ⟨y, qs, rfl, hy, hqs⟩ := format_eq_cons hfs
    obtain ⟨z, qs, rfl, hz, hqs'⟩ := format_eq_cons hqs
    obtain rfl := piece_lit hz
    obtain ⟨d, hd⟩ := text_of_not_lit hx
    simp only [text_cons, Item.text_lit, List.length_append, List.length_singleton, hd] at hfuel
    obtain ⟨n, rfl⟩ : ∃ m, n = m + 1 := ⟨n - 1, by omega⟩
    have hrest := @ih qs (out ++ y.expand ++ [c]) (r + y.expand.length + 1) n t
      (fun z hz => hps z (by simp [hz])) hqs' h (by omega)
    simp only [text_cons, arguments_cons, expansion_cons, Item.text_lit, Piece.args_lit,
      Piece.expand_lit, List.nil_append, List.cons_append, List.append_assoc, hd]
    rw [printf_piece (hy ▸ hd), hrest]
    simp only [List.append_assoc, List.singleton_append, List.length_append, List.length_cons]
    congr 3
    omega
  | case4 x c fs hx hc =>
    rw [excess.eq_4 _ _ _ hx, if_pos hc] at h
    cases h
  | case5 x c fs hx hc ih =>
    rw [excess.eq_4 _ _ _ hx, if_neg hc] at h
    obtain ⟨y, qs, rfl, hy, hqs⟩ := format_eq_cons hfs
    obtain ⟨z, qs, rfl, hz, hqs'⟩ := format_eq_cons hqs
    obtain rfl := piece_percent hz
    obtain ⟨z, qs, rfl, hz, hqs''⟩ := format_eq_cons hqs'
    obtain rfl := piece_lit hz
    obtain ⟨-, hpercent⟩ := hps (.lit c) (by simp)
    have hunknown : c ∉ ['%', 'd', 'c', 's', 'x', 'b'] := by
      intro hmem
      obtain hmem | hmem := List.mem_cons.mp hmem
      · exact hpercent hmem
      · exact hc hmem
    obtain ⟨d, hd⟩ := text_of_not_lit hx
    simp only [text_cons, Item.text_lit, Item.text_percent, List.length_append, hd,
      List.length_cons, List.length_nil] at hfuel
    obtain ⟨n, rfl⟩ : ∃ m, n = m + 2 := ⟨n - 2, by omega⟩
    have hrest := @ih qs (out ++ y.expand ++ ['%'] ++ [c]) (r + y.expand.length + 1 + 1) n t
      (fun z hz => hps z (by simp [hz])) hqs'' h (by omega)
    simp only [text_cons, arguments_cons, expansion_cons, Item.text_lit, Item.text_percent,
      Piece.args_lit, Piece.args_percent, Piece.expand_lit, Piece.expand_percent,
      List.nil_append, List.cons_append, List.append_assoc, hd]
    rw [printf_piece (hy ▸ hd), printf_unknown hunknown, hrest]
    simp only [List.append_assoc, List.cons_append, List.nil_append, List.length_append,
      List.length_cons]
    congr 3
    omega
  | case6 fs h₁ h₂ h₃ h₄ =>
    rw [excess.eq_5 _ h₁ h₂ h₃ h₄] at h
    cases h

end Agreement

/-- An argument for the item, 1 or `"a"`. -/
def Item.sample : Item → Piece
  | .lit c => .lit c
  | .percent => .percent
  | .int => .int 1
  | .char => .char 1
  | .str => .str ['a']

/-- The character that the item prints of its sample. -/
def Item.shown : Item → Char
  | .lit c => c
  | .percent => '%'
  | .int => '1'
  | .char => '\x01'
  | .str => 'a'

section Samples

variable {fs : List Item} {x : Item}

theorem expand_sample : x.sample.expand = [x.shown] := by
  cases x with
  | lit c => rfl
  | percent => rfl
  | int => decide +kernel
  | char => decide
  | str => decide

theorem item_sample : x.sample.item = x := by
  cases x <;> rfl

theorem proper_sample : x.sample.Proper := by
  cases x with
  | lit c => trivial
  | percent => trivial
  | int => exact ⟨by decide, by decide⟩
  | char => exact fun h => absurd h (by decide)
  | str => exact fun h => absurd h (by decide)

theorem format_sample : format (fs.map Item.sample) = fs := by
  induction fs with
  | nil => rfl
  | cons x fs ih => rw [List.map_cons, format_cons, ih, item_sample]

theorem expansion_sample : expansion (fs.map Item.sample) = fs.map Item.shown := by
  induction fs with
  | nil => rfl
  | cons x fs ih => rw [List.map_cons, expansion_cons, ih, expand_sample]; rfl

theorem shown_ne_percent (hx : x.Ordinary) (hne : x ≠ .percent) : x.shown ≠ '%' := by
  cases x with
  | lit c => exact hx.2
  | percent => exact absurd rfl hne
  | int => exact fun h => absurd h (by decide)
  | char => exact fun h => absurd h (by decide)
  | str => exact fun h => absurd h (by decide)

theorem arguments_sample : arguments (fs.map Item.sample) = [] ∨
    ∃ ap, arguments (fs.map Item.sample) = .int 1 :: ap ∨
      arguments (fs.map Item.sample) = .str ['a'] :: ap := by
  induction fs with
  | nil => exact .inl rfl
  | cons x fs ih =>
    rw [List.map_cons, arguments_cons]
    cases x with
    | lit c => exact ih
    | percent => exact ih
    | int => exact .inr ⟨_, .inl rfl⟩
    | char => exact .inr ⟨_, .inl rfl⟩
    | str => exact .inr ⟨_, .inr rfl⟩

end Samples

section Mismatch

variable {n k cnt v : ℕ} {c d e : Char} {s s' s₁ : Printer} {out l t p rest : List Char}
  {fs : List Item} {ap : List Arg} {r i : ℤ}

/-- What is printed stays printed. -/
theorem scan_out (h : scan printfRound n s = .ok s') : s.out <+: s'.out := by
  induction n generalizing s with
  | zero => cases h
  | succ n ih =>
    obtain ⟨p, ap, out, r, k⟩ := s
    cases p with
    | nil => cases h
    | cons c p =>
      by_cases hc : c = nul
      · subst hc
        rw [scan_end rfl] at h
        cases h
        exact List.prefix_rfl
      · rw [scan_cons rfl hc] at h
        obtain ⟨s₁, hround, h⟩ := ok_of_bind h
        obtain ⟨q, hadv⟩ := printfRound_advances rfl hround
        exact hadv.out.trans (ih h)

theorem ne_of_prefix (hl : out ++ [c] <+: l) (hne : c ≠ d) : l ≠ out ++ d :: t := by
  intro heq
  rw [heq, List.prefix_append_right_inj, List.cons_prefix_cons] at hl
  exact hne hl.1

/-- A wrong character is not made good. -/
theorem scan_ne (hl : out ++ [c] <+: s.out) (hne : c ≠ d) (h : scan printfRound n s = .ok s') :
    s'.out ≠ out ++ d :: t := ne_of_prefix (hl.trans (scan_out h)) hne

theorem scan_nil (h : scan printfRound n ⟨[], ap, out, r, k⟩ = .ok s') : False := by
  cases n with
  | zero => cases h
  | succ n => cases h

/-- A conversion that takes a sample does not print its own letter. -/
theorem conversion_sample (hc : c ∈ ['d', 'c', 's', 'x', 'b'])
    (h : printfConversion c ⟨c :: rest, arguments (fs.map Item.sample), out, wrapInt r, 0⟩ =
      .ok s') : ∃ e, e ≠ c ∧ out ++ [e] <+: s'.out := by
  obtain hap | ⟨ap, hap | hap⟩ := @arguments_sample fs
  all_goals
    rw [hap] at h
    simp only [List.mem_cons, List.not_mem_nil, or_false] at hc
    obtain rfl | rfl | rfl | rfl | rfl := hc
  · cases h
  · cases h
  · cases h
  · cases h
  · cases h
  · rw [printf_int] at h
    cases h
    have hprinted : printed 1 = ['1'] := by decide +kernel
    rw [hprinted]
    exact ⟨'1', by decide, List.prefix_rfl⟩
  · cases h
    exact ⟨'\x01', by decide, List.prefix_rfl⟩
  · cases h
  · cases h
  · simp only [printfConversion, vaInt, bind, Except.bind, intDigits_emit] at h
    cases h
    have hdigits : digitChars 2 (digitCount 2 1 0) 1 = ['1'] := by decide +kernel
    simp only [Printer.next, Printer.count, hdigits]
    exact ⟨'1', by decide, List.prefix_rfl⟩
  · cases h
  · cases h
  · simp only [printfConversion, vaStr, bind, Except.bind, putString_emit] at h
    cases h
    exact ⟨'a', by decide, List.prefix_rfl⟩
  · cases h
  · cases h

theorem scan_stolen (hc : c ∈ ['d', 'c', 's', 'x', 'b']) (h : scan printfRound n
    ⟨'%' :: c :: rest, arguments (fs.map Item.sample), out, wrapInt r, 0⟩ = .ok s') :
    s'.out ≠ out ++ c :: t := by
  obtain _ | n := n
  · cases h
  rw [scan_cons rfl (by decide)] at h
  obtain ⟨s₁, hround, h⟩ := ok_of_bind h
  obtain ⟨s₂, hconv, hround⟩ := ok_of_bind (x := printfConversion c _) hround
  obtain ⟨s₃, hdefault, hround⟩ := ok_of_bind hround
  obtain ⟨e, hne, hpre⟩ := conversion_sample hc hconv
  obtain ⟨f, -, hdefault⟩ := ok_of_bind hdefault
  cases hdefault
  cases hround
  have hout := hpre.trans (List.prefix_append s₂.out [f])
  exact scan_ne (s := ((s₂.emit f).count 1).next) hout hne h

/-- Behind the NUL there is nothing to print. -/
theorem scan_piece_last {x : Piece} (hx : x.item.text = ['%', d]) (h : scan printfRound n
    ⟨['%', d, nul], x.args ++ ap, out, wrapInt r, 0⟩ = .ok s') : False := by
  cases n with
  | zero => cases h
  | succ n =>
    rw [printf_piece hx] at h
    exact scan_nil h

theorem scan_percent_last (h : scan printfRound n ⟨['%', nul], ap, out, wrapInt r, 0⟩ = .ok s') :
    False := by
  cases n with
  | zero => cases h
  | succ n =>
    rw [printf_unknown (by decide)] at h
    exact scan_nil h

/-- `%%` prints two characters of the format. -/
theorem printf_percent : scan printfRound (n + 1) ⟨'%' :: '%' :: e :: rest, ap, out, wrapInt r, 0⟩ =
    scan printfRound n ⟨rest, ap, out ++ ['%', e], wrapInt (r + 1 + 1), 0⟩ := by
  have hpiece := @printf_piece .percent rest out ap r n '%' e rfl
  rw [List.append_assoc] at hpiece
  exact hpiece

theorem replicate_shift {a b a' b' : ℕ} (h : a + b = a' + b') :
    out ++ List.replicate a c ++ List.replicate b c =
      out ++ List.replicate a' c ++ List.replicate b' c := by
  rw [List.append_assoc, List.replicate_append_replicate, h, ← List.replicate_append_replicate,
    ← List.append_assoc]

theorem prefix_replicate : out ++ [c] <+: out ++ List.replicate (k + 1) c := by
  rw [List.replicate_succ, List.prefix_append_right_inj, List.cons_prefix_cons]
  exact ⟨rfl, List.nil_prefix⟩

/-- With more percent signs printed than the format has by here, the rest does not lead to
the expansion, wherever in the next item the scan stands. -/
theorem scan_ahead (hfs : ∀ x ∈ fs, x.Ordinary) (hp : p = text fs ++ [nul] ∨
      p = '%' :: (text fs ++ [nul]))
    (h : scan printfRound n ⟨p, ap, out ++ List.replicate (k + 1) '%', wrapInt r, 0⟩ = .ok s') :
    s'.out ≠ out ++ fs.map Item.shown := by
  -- the format is passed `%%` by `%%`, or by `%%` and one sign more
  induction hlen : fs.length using Nat.strong_induction_on generalizing fs p n out k r with
  | _ len ih =>
    subst hlen
    obtain _ | n := n
    · cases h
    cases fs with
    | nil =>
      obtain rfl | rfl := hp
      · rw [text, List.flatMap_nil, List.nil_append, scan_end rfl] at h
        cases h
        simp
      · exact (scan_percent_last h).elim
    | cons x fs =>
      by_cases hx : x = .percent
      · subst hx
        have hrest := fun y hy => hfs y (List.mem_cons_of_mem _ hy)
        obtain rfl | rfl := hp
        · cases fs with
          | nil => exact (@scan_piece_last _ _ _ _ _ _ .percent rfl h).elim
          | cons y fs =>
            by_cases hy : y = .percent
            · subst hy
              change scan _ _ ⟨'%' :: '%' :: '%' :: '%' :: (text fs ++ [nul]), _, _, _, _⟩ = _ at h
              have hout : out ++ List.replicate (k + 1) '%' ++ ['%', '%'] =
                  out ++ ['%', '%'] ++ List.replicate (k + 1) '%' :=
                @replicate_shift '%' out (k + 1) 2 2 (k + 1) (by omega)
              rw [printf_percent, hout] at h
              have hlt : fs.length < (Item.percent :: Item.percent :: fs).length := by
                simp only [List.length_cons]
                omega
              have hne := ih fs.length hlt
                (fun z hz => hrest z (List.mem_cons_of_mem _ hz)) (.inr rfl) h rfl
              rwa [List.append_assoc] at hne
            · obtain ⟨e, rest, he⟩ := List.exists_cons_of_ne_nil
                (List.append_ne_nil_of_right_ne_nil (text (y :: fs)) (List.cons_ne_nil nul []))
              change scan _ _ ⟨'%' :: '%' :: (text (y :: fs) ++ [nul]), _, _, _, _⟩ = _ at h
              rw [he, printf_percent] at h
              have hout : out ++ List.replicate (k + 1) '%' ++ ['%'] =
                  out ++ ['%'] ++ List.replicate (k + 1) '%' :=
                @replicate_shift '%' out (k + 1) 1 1 (k + 1) (by omega)
              have hpre : out ++ ['%'] ++ ['%'] <+:
                  out ++ List.replicate (k + 1) '%' ++ ['%', e] := by
                have htwo := (@prefix_replicate k '%' (out ++ ['%'])).trans
                  (List.prefix_append _ [e])
                rw [← hout, List.append_assoc _ ['%'] [e]] at htwo
                exact htwo
              have hne := scan_ne (t := fs.map Item.shown) hpre
                (shown_ne_percent (hrest y List.mem_cons_self) hy).symm h
              rwa [List.append_assoc] at hne
        · change scan _ _ ⟨'%' :: '%' :: '%' :: (text fs ++ [nul]), _, _, _, _⟩ = _ at h
          have hout : out ++ List.replicate (k + 1) '%' ++ ['%', '%'] =
              out ++ ['%'] ++ List.replicate (k + 1 + 1) '%' :=
            @replicate_shift '%' out (k + 1) 2 1 (k + 1 + 1) (by omega)
          rw [printf_percent, hout] at h
          have hne := ih fs.length (by simp) hrest (.inl rfl) h rfl
          rwa [List.append_assoc] at hne
      · exact scan_ne prefix_replicate (shown_ne_percent (hfs x List.mem_cons_self) hx).symm h

theorem printf_sample {x : Item} (hd : x.text = ['%', d]) : scan printfRound (n + 1)
      ⟨'%' :: d :: e :: rest, arguments ((x :: fs).map Item.sample), out, wrapInt r, 0⟩ =
    scan printfRound n
      ⟨rest, arguments (fs.map Item.sample), out ++ [x.shown] ++ [e], wrapInt (r + 1 + 1), 0⟩ := by
  have hpiece := @printf_piece x.sample rest out (arguments (fs.map Item.sample)) r n d e
    (by rw [item_sample, hd])
  rw [expand_sample] at hpiece
  rw [List.map_cons, arguments_cons, hpiece]
  rfl

/-- Where the output of `printf` differs for some arguments, it differs for the samples. -/
theorem printf_differs (hexcess : excess fs = none) (hfs : ∀ x ∈ fs, x.Ordinary)
    (h : scan printfRound n ⟨text fs ++ [nul], arguments (fs.map Item.sample), out, wrapInt r, 0⟩ =
      .ok s') : s'.out ≠ out ++ fs.map Item.shown := by
  induction fs using excess.induct generalizing n out r with
  | case1 => cases hexcess
  | case2 c fs ih =>
    rw [excess, Option.map_eq_none_iff] at hexcess
    obtain ⟨hnul, hpercent⟩ := hfs _ List.mem_cons_self
    obtain _ | n := n
    · cases h
    change scan _ _ ⟨c :: (text fs ++ [nul]), _, _, _, _⟩ = _ at h
    rw [printf_lit hnul hpercent] at h
    have hne := ih hexcess (fun x hx => hfs x (List.mem_cons_of_mem _ hx)) h
    rwa [List.append_assoc] at hne
  | case3 x c fs hx ih =>
    rw [excess.eq_3 _ _ _ hx] at hexcess
    obtain ⟨d, hd⟩ := text_of_not_lit hx
    obtain _ | n := n
    · cases h
    simp only [text_cons, hd, Item.text_lit, List.cons_append, List.nil_append] at h
    rw [printf_sample hd] at h
    have hne := ih hexcess (fun y hy => hfs y (by simp [hy])) h
    rwa [List.append_assoc, List.append_assoc] at hne
  | case4 x c fs hx hc =>
    obtain ⟨d, hd⟩ := text_of_not_lit hx
    obtain _ | n := n
    · cases h
    simp only [text_cons, hd, Item.text_lit, Item.text_percent, List.cons_append,
      List.nil_append] at h
    rw [printf_sample hd] at h
    have hne := scan_stolen (t := fs.map Item.shown) hc h
    rwa [List.append_assoc, List.append_assoc] at hne
  | case5 x c fs hx hc ih =>
    rw [excess.eq_4 _ _ _ hx, if_neg hc] at hexcess
    obtain ⟨-, hpercent⟩ := hfs (.lit c) (by simp)
    have hunknown : c ∉ ['%', 'd', 'c', 's', 'x', 'b'] := by
      rw [List.mem_cons]
      exact not_or.mpr ⟨hpercent, hc⟩
    obtain ⟨d, hd⟩ := text_of_not_lit hx
    obtain _ | n := n
    · cases h
    simp only [text_cons, hd, Item.text_lit, Item.text_percent, List.cons_append,
      List.nil_append] at h
    rw [printf_sample hd] at h
    obtain _ | n := n
    · cases h
    change scan _ _ ⟨'%' :: c :: (text fs ++ [nul]), _, _, _, _⟩ = _ at h
    rw [printf_unknown hunknown] at h
    have hne := ih hexcess (fun y hy => hfs y (by simp [hy])) h
    rwa [List.append_assoc, List.append_assoc, List.append_assoc] at hne
  | case6 fs h₁ h₂ h₃ h₄ =>
    obtain _ | n := n
    · cases h
    cases fs with
    | nil => exact (h₁ rfl).elim
    | cons x fs =>
      obtain ⟨d, hd⟩ := text_of_not_lit fun c hc => h₂ c fs (hc ▸ rfl)
      obtain _ | ⟨y, fs⟩ := fs
      · simp only [text_cons, text_nil, hd, List.cons_append, List.nil_append] at h
        rw [printf_sample hd] at h
        exact (scan_nil h).elim
      obtain ⟨e, he⟩ := text_of_not_lit (x := y) fun c hc => h₃ x c fs (hc ▸ rfl)
      simp only [text_cons, hd, he, List.cons_append, List.nil_append] at h
      rw [printf_sample hd] at h
      by_cases hy : y = .percent
      · subst hy
        obtain _ | n := n
        · cases h
        cases he
        obtain _ | ⟨z, fs⟩ := fs
        · exact (scan_percent_last h).elim
        obtain ⟨e, he⟩ := text_of_not_lit (x := z) fun c hc => h₄ x c fs (hc ▸ rfl)
        simp only [text_cons, he, List.cons_append, List.nil_append] at h
        rw [printf_percent] at h
        by_cases hz : z = .percent
        · subst hz
          cases he
          have hout : out ++ [x.shown] ++ ['%'] ++ ['%', '%'] =
              out ++ [x.shown, '%', '%'] ++ List.replicate (0 + 1) '%' := by simp
          rw [hout] at h
          have hne := scan_ahead (fun y hy => hfs y (by simp [hy])) (.inl rfl) h
          rwa [List.append_assoc] at hne
        · have hpre : out ++ [x.shown] ++ ['%'] ++ ['%'] <+:
              out ++ [x.shown] ++ ['%'] ++ ['%', e] :=
            (List.prefix_append_right_inj _).mpr ⟨[e], rfl⟩
          have hne := scan_ne (t := fs.map Item.shown) hpre
            (shown_ne_percent (hfs z (by simp)) hz).symm h
          rwa [List.append_assoc, List.append_assoc] at hne
      · have hne := scan_ne (t := fs.map Item.shown) List.prefix_rfl
          (shown_ne_percent (hfs y (by simp)) hy).symm h
        rwa [List.append_assoc] at hne

end Mismatch

section Main

variable {fs : List Item} {ps : List Piece} {t : ℕ}

/-- Proper arguments for the format, with an output that is not empty. -/
def MatchesFormat (fs : List Item) (ps : List Piece) : Prop :=
  format ps = fs ∧ (∀ x ∈ ps, x.Proper) ∧ expansion ps ≠ []

/-- Where `printf` prints the expansion the counts decide. -/
theorem agree_iff (h : excess fs = some t) (hfs : ∀ x ∈ fs, x.Ordinary)
    (hps : MatchesFormat fs ps) :
    PrintfAgrees ps ↔ ¬ 4294967296 ∣ (expansion ps).length ∧ 4294967296 ∣ t := by
  obtain ⟨rfl, hproper, -⟩ := hps
  have hord : ∀ x ∈ ps, x.item.Ordinary := fun x hx => hfs _ (List.mem_map_of_mem hx)
  have hlen := strlen_of_not_mem (nul_not_mem_expansion fun x hx => ⟨hord x hx, hproper x hx⟩)
  have hprintf : printf (some (text (format ps))) (arguments ps) =
      .ok (expansion ps, wrapInt ((expansion ps).length + t)) := by
    have hscan := @printf_scan ps [] [] 0 _ t h hord (Nat.lt_succ_self _)
    rw [List.append_nil, List.nil_append, Int.zero_add] at hscan
    have hzero : (0 : ℤ) = wrapInt 0 := by decide
    simp only [printf, Printer.start]
    rw [hzero, hscan]
    rfl
  have hvsprintf := vsprintf_eq hord
  rw [hlen] at hvsprintf
  have hcount : wrapInt (expansion ps).length = 0 ↔ 4294967296 ∣ (expansion ps).length := by
    have hzero : (0 : ℤ) = wrapInt 0 := by decide
    rw [hzero, wrapInt_eq_iff]
    omega
  have hequal : wrapInt (expansion ps).length = wrapInt ((expansion ps).length + t) ↔
      4294967296 ∣ t := by
    rw [wrapInt_eq_iff]
    omega
  constructor
  · intro hagree
    obtain ⟨out, r, w, hp, hv, -, hret⟩ := hagree
    rw [hprintf] at hp
    rw [hvsprintf] at hv
    cases hp
    cases hv
    by_cases hwrap : wrapInt (expansion ps).length = 0
    · rw [if_neg (not_not.mpr hwrap)] at hret
      cases hret
    · rw [if_pos hwrap] at hret
      exact ⟨fun hdvd => hwrap (hcount.mpr hdvd), hequal.mp (Option.some.inj hret)⟩
  · intro hdvd
    obtain ⟨hlength, ht⟩ := hdvd
    refine ⟨_, _, _, hprintf, hvsprintf, rfl, ?_⟩
    rw [if_pos fun hwrap => hlength (hcount.mp hwrap), hequal.mpr ht]

theorem matches_sample (hne : fs ≠ []) : MatchesFormat fs (fs.map Item.sample) := by
  refine ⟨format_sample, ?_, ?_⟩
  · intro x hx
    obtain ⟨y, -, rfl⟩ := List.mem_map.mp hx
    exact proper_sample
  · rw [expansion_sample]
    exact fun h => hne (List.map_eq_nil_iff.mp h)

/-- The samples show the difference in the output. -/
theorem not_agree_sample (h : excess fs = none) (hfs : ∀ x ∈ fs, x.Ordinary) :
    ¬ PrintfAgrees (fs.map Item.sample) := by
  intro hagree
  obtain ⟨out, r, w, hp, hv, hchars, -⟩ := hagree
  have hvsprintf := @vsprintf_eq (fs.map Item.sample) fun x hx => by
    obtain ⟨y, hy, rfl⟩ := List.mem_map.mp hx
    rw [item_sample]
    exact hfs y hy
  rw [hvsprintf] at hv
  cases hv
  rw [format_sample] at hp
  obtain ⟨s', hscan, hp⟩ := ok_of_bind hp
  cases hp
  have hne := @printf_differs _ _ [] fs 0 h hfs hscan
  rw [← expansion_sample] at hne
  exact hne hchars.symm

/-- For which formats `printf` and `vsprintf` agree whatever the arguments are, and for a
plain format for which arguments. -/
theorem printf_agrees_iff (hfs : ∀ x ∈ fs, x.Ordinary) :
    ((∀ ps, MatchesFormat fs ps → PrintfAgrees ps) ↔
      PlainFormat fs ∧ ∀ ps, MatchesFormat fs ps → ¬ 4294967296 ∣ (expansion ps).length) ∧
    (PlainFormat fs → ∀ ps, MatchesFormat fs ps →
      (PrintfAgrees ps ↔ ¬ 4294967296 ∣ (expansion ps).length)) := by
  have hplain : PlainFormat fs → ∀ ps, MatchesFormat fs ps →
      (PrintfAgrees ps ↔ ¬ 4294967296 ∣ (expansion ps).length) := by
    intro hplain ps hps
    obtain ⟨t, ht, hdvd⟩ := hplain
    rw [agree_iff ht hfs hps]
    exact and_iff_left hdvd
  refine ⟨⟨?_, fun h ps hps => (hplain h.1 ps hps).mpr (h.2 ps hps)⟩, hplain⟩
  intro hall
  have hsome : PlainFormat fs := by
    by_cases hne : fs = []
    · subst hne
      exact ⟨0, rfl, dvd_zero _⟩
    · have hmatch := matches_sample hne
      cases ht : excess fs with
      | none => exact (not_agree_sample ht hfs (hall _ hmatch)).elim
      | some t => exact ⟨t, ht, ((agree_iff ht hfs hmatch).mp (hall _ hmatch)).2⟩
  exact ⟨hsome, fun ps hps => (hplain hsome ps hps).mp (hall ps hps)⟩

/-- `"x%d\n"`. -/
theorem printf_agrees_number :
    ((∀ ps, MatchesFormat [.lit 'x', .int, .lit '\n'] ps → PrintfAgrees ps) ↔
      PlainFormat [.lit 'x', .int, .lit '\n'] ∧
        ∀ ps, MatchesFormat [.lit 'x', .int, .lit '\n'] ps → ¬ 4294967296 ∣ (expansion ps).length) ∧
    (PlainFormat [.lit 'x', .int, .lit '\n'] → ∀ ps, MatchesFormat [.lit 'x', .int, .lit '\n'] ps →
      (PrintfAgrees ps ↔ ¬ 4294967296 ∣ (expansion ps).length)) := by
  apply printf_agrees_iff
  intro x hx
  obtain rfl | rfl | rfl : x = .lit 'x' ∨ x = .int ∨ x = .lit '\n' := by simpa using hx
  · exact ⟨by decide, by decide⟩
  · trivial
  · exact ⟨by decide, by decide⟩

/-- `printf("%d%d\n", 1, 2)` prints `1%d`. -/
theorem printf_skips_conversion : ¬ ∀ (fs : List Item) (ps : List Piece),
    (∀ x ∈ fs, x.Ordinary) → MatchesFormat fs ps → PrintfAgrees ps := by
  intro hall
  have hord : ∀ x ∈ [Item.int, .int, .lit '\n'], x.Ordinary := by
    intro x hx
    obtain rfl | rfl : x = .int ∨ x = .lit '\n' := by simpa using hx
    · trivial
    · exact ⟨by decide, by decide⟩
  have hproper : ∀ x ∈ [Piece.int 1, .int 2, .lit '\n'], x.Proper := by
    intro x hx
    obtain rfl | rfl | rfl : x = .int 1 ∨ x = .int 2 ∨ x = .lit '\n' := by simpa using hx
    · exact ⟨by decide, by decide⟩
    · exact ⟨by decide, by decide⟩
    · trivial
  have hagree := hall _ [.int 1, .int 2, .lit '\n'] hord ⟨rfl, hproper, by decide +kernel⟩
  obtain ⟨out, r, w, hp, hv, hchars, -⟩ := hagree
  have hprintf : printf (some ['%', 'd', '%', 'd', '\n']) [.int 1, .int 2] =
      .ok (['1', '%', 'd', '\n'], 4) := by decide +kernel
  have hvsprintf : vsprintf (some ['%', 'd', '%', 'd', '\n']) [.int 1, .int 2] =
      .ok ⟨['1', '2', '\n'], true, some 3⟩ := by decide +kernel
  cases hprintf.symm.trans hp
  cases hvsprintf.symm.trans hv
  exact absurd hchars (by decide)

end Main
end KmallocKfree
