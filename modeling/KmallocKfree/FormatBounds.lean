import KmallocKfree.Rounds
import KmallocKfree.Truncation

/-!
# Where the scan of a format ends

Each formatter steps over one character behind a percent sign, and `printf` over one more
behind a conversion. When that character is the NUL, the scan goes on behind the format.
`vsnprintf` may return before it gets there.
-/
namespace KmallocKfree

/-- The scan steps over the NUL: a percent sign is the last character, or a conversion stands
last that takes the next character with it. -/
def Overshoots (takes : List Char) : List Char → Prop
  | [] => False
  | c :: p =>
    if c = '%' then
      match p with
      | [] => True
      | d :: p =>
        if d ∈ takes then
          match p with
          | [] => True
          | _ :: p => Overshoots takes p
        else Overshoots takes p
    else Overshoots takes p

/-- What a conversion of `vsprintf` stores, and the arguments behind it. -/
def converted : Char → List Arg → List Char × List Arg
  | '%', ap => (['%'], ap)
  | 'd', .int i :: ap => (printed i, ap)
  | 'c', .int i :: ap => ([toChar i], ap)
  | 's', .str l :: ap => (cString l, ap)
  | _, ap => ([], ap)

/-- What a format stands for, up to a percent sign at its end. -/
def rawExpansion : List Char → List Arg → List Char
  | [], _ => []
  | c :: p, ap =>
    if c = '%' then
      match p with
      | [] => []
      | d :: p => (converted d ap).1 ++ rawExpansion p (converted d ap).2
    else c :: rawExpansion p ap

/-- Each `va_arg` of the call finds an argument of its type. -/
def ArgumentsSuffice {α : Type} (r : Except Exit α) : Prop := r ≠ .error .argument

variable {body : Char → Printer → Except Exit Printer} {takes : List Char} {s : Printer}
  {c d : Char} {p fmt : List Char} {ap : List Arg} {n m : ℕ}

section Overshoots

theorem overshoots_lit (hc : c ≠ '%') : Overshoots takes (c :: p) = Overshoots takes p := by
  rw [Overshoots.eq_def]
  exact if_neg hc

theorem overshoots_other (hd : d ∉ takes) :
    Overshoots takes ('%' :: d :: p) = Overshoots takes p := by
  rw [Overshoots.eq_def]
  exact if_neg hd

theorem overshoots_last (hd : d ∈ takes) : Overshoots takes ['%', d] := by
  rw [Overshoots.eq_def]
  exact (if_pos hd).mpr trivial

theorem overshoots_taken {e : Char} (hd : d ∈ takes) :
    Overshoots takes ('%' :: d :: e :: p) = Overshoots takes p := by
  rw [Overshoots.eq_def]
  exact if_pos hd

end Overshoots

section Scans

theorem scan_behind (hp : s.pStr = []) : scan body n s = .error .overrun := by
  cases n with
  | zero => rfl
  | succ n => simp only [scan, Printer.char, hp, bind, Except.bind]

/-- A scan without a check ends in one of three ways, and the format decides between the last
two. The hypotheses are what one round does. -/
theorem scan_cases (hnul : nul ∉ takes)
    (hlit : ∀ c p s, c ≠ '%' → s.pStr = c :: p → ∃ s', body c s = .ok s' ∧ s'.pStr = p)
    (hother : ∀ d p s, d ∉ takes → s.pStr = '%' :: d :: p → body '%' s = .error .argument ∨
      ∃ s', body '%' s = .ok s' ∧ s'.pStr = p)
    (htakes : ∀ d p s, d ∈ takes → s.pStr = '%' :: d :: p → p ≠ [] →
      body '%' s = .error .argument ∨ ∃ s', body '%' s = .ok s' ∧ s'.pStr = p.tail)
    (hp : s.pStr = p ++ [nul]) (hfmt : nul ∉ p) (hfuel : p.length < n) :
    scan body n s = .error .argument ∨ (Overshoots takes p ∧ scan body n s = .error .overrun) ∨
      (¬ Overshoots takes p ∧ ∃ s', scan body n s = .ok s') := by
  -- the pointer stands at the rest `p` of the format, and each round leaves a shorter rest
  induction n generalizing p s with
  | zero => exact absurd hfuel (Nat.not_lt_zero _)
  | succ n ih =>
    cases p with
    | nil =>
      rw [scan_end hp]
      exact .inr (.inr ⟨id, s, rfl⟩)
    | cons c p =>
      rw [List.mem_cons, not_or] at hfmt
      rw [List.length_cons] at hfuel
      rw [scan_cons hp (Ne.symm hfmt.1)]
      by_cases hc : c = '%'
      · subst hc
        cases p with
        | nil =>
          obtain herror | ⟨s', hround, hp'⟩ := hother nul [] s hnul hp
          · rw [herror]
            exact .inl rfl
          · rw [hround]
            exact .inr (.inl ⟨trivial, scan_behind hp'⟩)
        | cons d p =>
          rw [List.mem_cons, not_or] at hfmt
          rw [List.length_cons] at hfuel
          by_cases hd : d ∈ takes
          · have hne : p ++ [nul] ≠ [] := List.append_ne_nil_of_right_ne_nil p (by simp)
            obtain herror | ⟨s', hround, hp'⟩ := htakes d _ s hd hp hne
            · rw [herror]
              exact .inl rfl
            · rw [hround]
              cases p with
              | nil =>
                exact .inr (.inl ⟨overshoots_last hd, scan_behind hp'⟩)
              | cons e p =>
                rw [List.mem_cons, not_or] at hfmt
                rw [List.length_cons] at hfuel
                rw [overshoots_taken hd]
                exact ih hp' hfmt.2.2.2 (by omega)
          · obtain herror | ⟨s', hround, hp'⟩ := hother d _ s hd hp
            · rw [herror]
              exact .inl rfl
            · rw [hround]
              rw [overshoots_other hd]
              exact ih hp' hfmt.2.2 (by omega)
      · obtain ⟨s', hround, hp'⟩ := hlit c _ s hc hp
        rw [hround]
        rw [overshoots_lit hc]
        exact ih hp' hfmt.2 (by omega)

theorem scan_printf (hfmt : nul ∉ fmt) :
    scan printfRound (fmt.length + 1) (.start fmt ap) = .error .argument ∨
      (Overshoots conversions fmt ∧
        scan printfRound (fmt.length + 1) (.start fmt ap) = .error .overrun) ∨
      (¬ Overshoots conversions fmt ∧
        ∃ s', scan printfRound (fmt.length + 1) (.start fmt ap) = .ok s') := by
  apply scan_cases (by decide) ?_ ?_ ?_ rfl hfmt (Nat.lt_succ_self _)
  · intro c p s hc hp
    obtain ⟨s', hround, hadv⟩ := printfRound_lit hc hp
    exact ⟨s', hround, hadv.pStr⟩
  · intro d p s hd hp
    obtain ⟨s', hround, hadv⟩ := printfRound_unknown hd hp
    exact .inr ⟨s', hround, hadv.pStr⟩
  · intro d p s hd hp hne
    exact (printfRound_conversion hd hp hne).imp id fun ⟨s', hround, hadv⟩ =>
      ⟨s', hround, hadv.pStr⟩

theorem scan_vsprintf_cases (hfmt : nul ∉ fmt) :
    scan vsprintfRound (fmt.length + 1) (.start fmt ap) = .error .argument ∨
      (Overshoots [] fmt ∧
        scan vsprintfRound (fmt.length + 1) (.start fmt ap) = .error .overrun) ∨
      (¬ Overshoots [] fmt ∧
        ∃ s', scan vsprintfRound (fmt.length + 1) (.start fmt ap) = .ok s') := by
  apply scan_cases List.not_mem_nil ?_ ?_ ?_ rfl hfmt (Nat.lt_succ_self _)
  · intro c p s hc hp
    exact ⟨_, vsprintfRound_lit hc, congrArg List.tail hp⟩
  · intro d p s _ hp
    rw [vsprintfRound_percent hp]
    obtain herror | ⟨t, hconv, hadv⟩ := vsprintfConversion_cases d s.next
    · rw [herror]
      exact .inl rfl
    · rw [hconv]
      refine .inr ⟨_, rfl, ?_⟩
      have hnext : s.next.pStr = d :: p := congrArg List.tail hp
      rw [hadv.next.pStr, hnext]
      rfl
  · exact fun d p s hd => absurd hd List.not_mem_nil

end Scans

section Bounded

theorem vsprintfConversion_converted (hs : s.cnt = 0) : vsprintfConversion c s = .error .argument ∨
    ∃ ret, vsprintfConversion c s =
      .ok ⟨s.pStr, (converted c s.ap).2, s.out ++ (converted c s.ap).1, ret, 0⟩ := by
  obtain ⟨p, ap, out, ret, cnt⟩ := s
  obtain rfl : cnt = 0 := hs
  unfold vsprintfConversion
  split
  · exact .inr ⟨_, rfl⟩
  · obtain hva | ⟨i, ap, rfl, -⟩ := vaInt_cases ⟨p, ap, out, ret, 0⟩
    · rw [hva]
      exact .inl rfl
    · obtain ⟨ret', hconv⟩ := @vsprintf_int out ap ret p i
      exact .inr ⟨ret', hconv⟩
  · obtain hva | ⟨i, ap, rfl, -⟩ := vaInt_cases ⟨p, ap, out, ret, 0⟩
    · rw [hva]
      exact .inl rfl
    · exact .inr ⟨_, rfl⟩
  · obtain hva | ⟨l, ap, rfl, -⟩ := vaStr_cases ⟨p, ap, out, ret, 0⟩
    · rw [hva]
      exact .inl rfl
    · exact .inr ⟨wrapInt (ret + strlen l), putString_emit⟩
  · refine .inr ⟨ret, ?_⟩
    have hnone : converted c ap = ([], ap) := by
      unfold converted
      split <;> first | contradiction | rfl
    rw [hnone, List.append_nil]

/-- Where `vsprintf` misses an argument, `vsnprintf` does. -/
theorem vsnprintfConversion_error (h : vsprintfConversion c s = .error .argument) :
    vsnprintfConversion n c s.counted = .error .argument := by
  unfold vsprintfConversion at h
  split at h
  · cases h
  · obtain hva | ⟨i, ap, hap, -⟩ := vaInt_cases s.counted
    · simp only [vsnprintfConversion, hva, bind, Except.bind]
    · have hap : s.ap = .int i :: ap := hap
      simp only [vaInt, hap, bind, Except.bind, intDigits_emit] at h
      cases h
  · obtain hva | ⟨i, ap, hap, -⟩ := vaInt_cases s.counted
    · simp only [vsnprintfConversion, hva, bind, Except.bind]
    · have hap : s.ap = .int i :: ap := hap
      simp only [vaInt, hap, bind, Except.bind] at h
      cases h
  · obtain hva | ⟨l, ap, hap, -⟩ := vaStr_cases s.counted
    · simp only [vsnprintfConversion, hva, bind, Except.bind]
    · have hap : s.ap = .str l :: ap := hap
      simp only [vaStr, hap, bind, Except.bind, putString_emit] at h
      cases h
  · cases h

theorem vsnprintfRound_error {e : Exit} (h : vsprintfRound c s = .error e) :
    vsnprintfRound n c s.counted = .error e := by
  by_cases hc : c = '%'
  · subst hc
    cases hchar : s.next.char with
    | error x =>
      have hchar' : s.counted.next.char = .error x := hchar
      simp only [vsprintfRound, hchar, bind, Except.bind] at h
      simp only [vsnprintfRound, hchar', bind, Except.bind, h]
    | ok d =>
      have hchar' : s.counted.next.char = .ok d := hchar
      simp only [vsprintfRound, hchar, bind, Except.bind] at h
      obtain herror | ⟨t, hconv, -⟩ := vsprintfConversion_cases d s.next
      · rw [herror] at h
        cases h
        simp only [vsnprintfRound, hchar', bind, Except.bind]
        exact congrArg (fun r => r >>= fun t => .ok t.next)
          (@vsnprintfConversion_error s.next d n herror)
      · rw [hconv] at h
        cases h
  · rw [vsprintfRound_lit hc] at h
    cases h

/-- The checks for one round come before those for the rest of the format. -/
theorem store_then {q : Except Exit Printer} {f : Printer → Except Exit Printer} {t : Printer}
    {out e e' : List Char} {ending : Except Exit Printer → Prop}
    (hq : q = (do let _ ← storeAll n out e; .ok t)) (hending : ∃ r, ending r)
    (h : f t = .error .argument ∨
      ∃ r, f t = (do let _ ← storeAll n (out ++ e) e'; r) ∧ ending r) :
    (do let u ← q; f u) = .error .argument ∨
      ∃ r, (do let u ← q; f u) = (do let _ ← storeAll n out (e ++ e'); r) ∧ ending r := by
  simp only [storeAll_append, hq]
  cases storeAll n out e with
  | error x =>
    obtain ⟨r, hr⟩ := hending
    exact .inr ⟨r, rfl, hr⟩
  | ok l => exact h

/-- `vsnprintf` stores the raw expansion until a check fails; then the format decides. -/
theorem scan_vsnprintf (hp : s.pStr = p ++ [nul]) (hfmt : nul ∉ p) (hs : s.cnt = 0)
    (hfuel : p.length < m) : scan (vsnprintfRound n) m s.counted = .error .argument ∨
      ∃ r, scan (vsnprintfRound n) m s.counted =
        (do let _ ← storeAll n s.out (rawExpansion p s.ap); r) ∧
          ((Overshoots [] p ∧ r = .error .overrun) ∨ (¬ Overshoots [] p ∧ ∃ s', r = .ok s')) := by
  have hending : ∃ r : Except Exit Printer,
      (Overshoots [] p ∧ r = .error .overrun) ∨ (¬ Overshoots [] p ∧ ∃ s', r = .ok s') := by
    by_cases hover : Overshoots [] p
    · exact ⟨_, .inl ⟨hover, rfl⟩⟩
    · exact ⟨.ok s, .inr ⟨hover, s, rfl⟩⟩
  induction m generalizing p s with
  | zero => exact absurd hfuel (Nat.not_lt_zero _)
  | succ m ih =>
    cases p with
    | nil =>
      rw [scan_end (s := s.counted) hp]
      exact .inr ⟨_, rfl, .inr ⟨id, _, rfl⟩⟩
    | cons c p =>
      rw [List.mem_cons, not_or] at hfmt
      rw [List.length_cons] at hfuel
      rw [scan_cons (s := s.counted) hp (Ne.symm hfmt.1)]
      by_cases hc : c = '%'
      · subst hc
        cases p with
        | nil =>
          have hround : vsprintfRound '%' s = .ok s.next.next := by
            rw [vsprintfRound_percent hp]
            rfl
          obtain ⟨e, hout, hr⟩ := follows_round (n := n) hround
          obtain rfl : e = [] := by simpa [Printer.next] using hout
          rw [hr]
          have hempty : s.next.next.counted.pStr = [] := by
            change s.pStr.tail.tail = []
            rw [hp]
            rfl
          refine .inr ⟨.error .overrun, ?_, .inl ⟨trivial, rfl⟩⟩
          exact scan_behind hempty
        | cons d p =>
          rw [List.mem_cons, not_or] at hfmt
          rw [List.length_cons] at hfuel
          have hnext : s.next.pStr = d :: (p ++ [nul]) := congrArg List.tail hp
          rw [overshoots_other List.not_mem_nil] at hending ⊢
          obtain herror | ⟨ret, hconv⟩ := @vsprintfConversion_converted s.next d hs
          · have hround : vsnprintfRound n '%' s.counted = .error .argument := by
              apply vsnprintfRound_error
              rw [vsprintfRound_percent hp, herror]
              rfl
            rw [hround]
            exact .inl rfl
          · have hround : vsprintfRound '%' s = .ok (Printer.next ⟨s.next.pStr,
                (converted d s.ap).2, s.out ++ (converted d s.ap).1, ret, 0⟩) := by
              rw [vsprintfRound_percent hp, hconv]
              rfl
            obtain ⟨e, hout, hr⟩ := follows_round (n := n) hround
            obtain rfl : (converted d s.ap).1 = e := List.append_cancel_left hout
            apply store_then hr hending
            exact ih (s := Printer.next ⟨s.next.pStr, (converted d s.ap).2,
              s.out ++ (converted d s.ap).1, ret, 0⟩) (congrArg List.tail hnext) hfmt.2.2 rfl
              (by omega) hending
      · obtain ⟨e, hout, hr⟩ := follows_round (n := n) (vsprintfRound_lit (s := s) hc)
        obtain rfl : [c] = e := List.append_cancel_left hout
        have hraw : rawExpansion (c :: p) s.ap = [c] ++ rawExpansion p s.ap := by
          rw [rawExpansion.eq_def]
          exact if_neg hc
        rw [overshoots_lit hc] at hending ⊢
        rw [hraw]
        apply store_then hr hending
        exact ih (s := ((s.emit c).count 1).next) (congrArg List.tail hp) hfmt.2 hs (by omega)
          hending

end Bounded

section Overrun

/-- What a formatter makes of its last state does not matter. -/
theorem inside_of_scan {α : Type} {f : Printer → α} {q : Except Exit Printer} {past : Prop}
    (hq : q = .error .argument ∨ (past ∧ q = .error .overrun) ∨ (¬ past ∧ ∃ s', q = .ok s'))
    (h : ArgumentsSuffice (do let s ← q; .ok (f s))) :
    (∃ r, (do let s ← q; .ok (f s)) = Except.ok r) ↔ ¬ past := by
  obtain rfl | ⟨hpast, rfl⟩ | ⟨hpast, s', rfl⟩ := hq
  · exact absurd rfl h
  · constructor
    · rintro ⟨r, hr⟩
      cases hr
    · exact fun hnot => absurd hpast hnot
  · exact ⟨fun _ => hpast, fun _ => ⟨_, rfl⟩⟩

theorem printf_inside (hfmt : nul ∉ fmt) (h : ArgumentsSuffice (printf (some fmt) ap)) :
    (∃ r, printf (some fmt) ap = .ok r) ↔ ¬ Overshoots conversions fmt :=
  inside_of_scan (scan_printf hfmt) h

theorem vsprintf_inside (hfmt : nul ∉ fmt) (h : ArgumentsSuffice (vsprintf (some fmt) ap)) :
    (∃ w, vsprintf (some fmt) ap = .ok w) ↔ ¬ Overshoots [] fmt :=
  inside_of_scan (scan_vsprintf_cases hfmt) h

theorem vsnprintf_inside (hfmt : nul ∉ fmt) (h : ArgumentsSuffice (vsnprintf n (some fmt) ap)) :
    (∃ w, vsnprintf n (some fmt) ap = .ok w) ↔
      ¬ Overshoots [] fmt ∨ ∃ k < (rawExpansion fmt ap).length, ¬ Fits n k := by
  rw [ArgumentsSuffice] at h
  simp only [vsnprintf] at h ⊢
  obtain herror | ⟨r, hscan, hr⟩ := @scan_vsnprintf (.start fmt ap) fmt n (fmt.length + 1) rfl
    hfmt rfl (Nat.lt_succ_self _)
  · change scan (vsnprintfRound n) (fmt.length + 1) (.start fmt ap) = _ at herror
    rw [herror] at h
    exact absurd rfl h
  · change scan (vsnprintfRound n) (fmt.length + 1) (.start fmt ap) =
      (do let _ ← storeAll n [] (rawExpansion fmt ap); r) at hscan
    by_cases hall : ∀ k, k < (rawExpansion fmt ap).length → Fits n k
    · rw [storeAll_fits fun k _ hk => hall k (by simpa using hk)] at hscan
      have hnone : ¬ ∃ k < (rawExpansion fmt ap).length, ¬ Fits n k := by
        rintro ⟨k, hk, hstop⟩
        exact hstop (hall k hk)
      obtain ⟨hover, rfl⟩ | ⟨hover, s', rfl⟩ := hr
      · rw [hscan]
        constructor
        · rintro ⟨w, hw⟩
          cases hw
        · exact fun hor => absurd hover (hor.resolve_right hnone)
      · rw [hscan]
        exact ⟨fun _ => .inl hover, fun _ => ⟨_, rfl⟩⟩
    · obtain ⟨m, hm, hfits, hstop⟩ := exists_first_stop hall
      rw [storeAll_stops (m := m) (by simp) (by simpa using hm) (fun k _ hk => hfits k hk)
        hstop] at hscan
      rw [hscan]
      exact ⟨fun _ => .inr ⟨m, hm, hstop⟩, fun _ => ⟨_, rfl⟩⟩

/-- When the arguments suffice, a formatter stays within its format, and returns, exactly in
these cases: `printf` when its scan does not step over the NUL behind a percent sign or behind
a conversion; `vsprintf` when no lone percent sign stands at the end; `vsnprintf` then, or
when its bound stops it before. -/
theorem formats_inside_iff (hfmt : nul ∉ fmt) :
    (ArgumentsSuffice (printf (some fmt) ap) →
      ((∃ r, printf (some fmt) ap = .ok r) ↔ ¬ Overshoots conversions fmt)) ∧
    (ArgumentsSuffice (vsprintf (some fmt) ap) →
      ((∃ w, vsprintf (some fmt) ap = .ok w) ↔ ¬ Overshoots [] fmt)) ∧
    ∀ n, ArgumentsSuffice (vsnprintf n (some fmt) ap) →
      ((∃ w, vsnprintf n (some fmt) ap = .ok w) ↔
        ¬ Overshoots [] fmt ∨ ∃ k < (rawExpansion fmt ap).length, ¬ Fits n k) :=
  ⟨printf_inside hfmt, vsprintf_inside hfmt, fun _ => vsnprintf_inside hfmt⟩

/-- `"%d\n"` with 5, and with room for eight characters. -/
theorem formats_inside_number :
    ((∃ r, printf (some ['%', 'd', '\n']) [.int 5] = .ok r) ↔
      ¬ Overshoots conversions ['%', 'd', '\n']) ∧
    ((∃ w, vsprintf (some ['%', 'd', '\n']) [.int 5] = .ok w) ↔
      ¬ Overshoots [] ['%', 'd', '\n']) ∧
    ((∃ w, vsnprintf 8 (some ['%', 'd', '\n']) [.int 5] = .ok w) ↔
      ¬ Overshoots [] ['%', 'd', '\n'] ∨
        ∃ k < (rawExpansion ['%', 'd', '\n'] [.int 5]).length, ¬ Fits 8 k) := by
  obtain ⟨hprintf, hvsprintf, hvsnprintf⟩ :=
    @formats_inside_iff ['%', 'd', '\n'] [.int 5] (by decide)
  refine ⟨hprintf ?_, hvsprintf ?_, hvsnprintf 8 ?_⟩
  · rw [ArgumentsSuffice]
    decide +kernel
  · rw [ArgumentsSuffice]
    decide +kernel
  · rw [ArgumentsSuffice]
    decide +kernel

/-- `printf("%d", 5)` reads on behind the format. -/
theorem formats_overrun : ¬ ∀ (fmt : List Char) (ap : List Arg), nul ∉ fmt →
    (ArgumentsSuffice (printf (some fmt) ap) → ∃ r, printf (some fmt) ap = .ok r) ∧
    (ArgumentsSuffice (vsprintf (some fmt) ap) → ∃ w, vsprintf (some fmt) ap = .ok w) ∧
    ∀ n, ArgumentsSuffice (vsnprintf n (some fmt) ap) → ∃ w, vsnprintf n (some fmt) ap = .ok w := by
  intro hall
  have hrun : printf (some ['%', 'd']) [.int 5] = .error .overrun := by decide +kernel
  obtain ⟨hprintf, -⟩ := hall ['%', 'd'] [.int 5] (by decide)
  obtain ⟨r, hr⟩ := hprintf (by rw [ArgumentsSuffice, hrun]; decide)
  rw [hrun] at hr
  cases hr

end Overrun
end KmallocKfree
