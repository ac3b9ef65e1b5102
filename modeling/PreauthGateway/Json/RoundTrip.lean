import PreauthGateway.Json.Decode

/-!
# Reading back what was written

`loads` undoes `dumps` on every valid value, in both layouts. The scanner is followed through the
text token by token: what it reads never depends on the text after the token, as long as a number is
followed by a delimiter.

## Main definitions

* `Json.Ends`: what follows a value inside a larger text

## Main results

* `Json.scanString_dumpsStr`, `Json.scanAtom_append`, `Json.scanOnce_dumps`: the scanners on the
  text of a value
* `Json.loads_dumps`: reading undoes writing
-/

namespace Json

/-! ## Strings -/

theorem units_lt {c u : CodePoint} (h : u ∈ c.units) : u.val < 0x10000 := by
  unfold CodePoint.units at h
  split at h
  · rw [List.mem_singleton.mp h]
    assumption
  · rcases List.mem_pair.mp h with rfl | rfl <;> simp only <;> omega

/-- A character above U+FFFF is spelled as a surrogate pair that joins to it. -/
theorem units_of_ge {c : CodePoint} (h : ¬ c.val < 0x10000) :
    ∃ hi lo, c.units = [hi, lo] ∧ (hi.IsHigh ∧ lo.IsLow) ∧ CodePoint.join hi lo = c := by
  refine ⟨⟨0xD800 + (c.val - 0x10000) / 0x400, by omega⟩,
    ⟨0xDC00 + (c.val - 0x10000) % 0x400, by omega⟩, if_neg h, ?_, Fin.ext ?_⟩
  · simp only [CodePoint.IsHigh, CodePoint.IsLow]
    omega
  · simp only [CodePoint.join]
    omega

theorem joinUnits_cons {u : CodePoint} {us : PyStr}
    (h : ∀ v ∈ us.head?, ¬ (u.IsHigh ∧ v.IsLow)) : joinUnits (u :: us) = u :: joinUnits us := by
  cases us with
  | nil => simp [joinUnits]
  | cons v us =>
    have hv : ¬ (u.IsHigh ∧ v.IsLow) := h v (by simp)
    rw [joinUnits, if_neg hv]

/-- The first code unit of a character is a low surrogate only when the character is one. -/
theorem isLow_of_head_units {c v : CodePoint} (hv : v ∈ c.units.head?) (h : v.IsLow) :
    c.IsLow := by
  unfold CodePoint.units at hv
  split at hv
  · simp only [List.head?_cons, Option.mem_def, Option.some.injEq] at hv
    exact hv ▸ h
  · simp only [List.head?_cons, Option.mem_def, Option.some.injEq] at hv
    subst hv
    unfold CodePoint.IsLow at h
    simp only at h
    omega

theorem head_flatMap_units (s : PyStr) :
    (s.flatMap CodePoint.units).head? = s.head?.bind fun c => c.units.head? := by
  cases s with
  | nil => rfl
  | cons c s =>
    rw [List.flatMap_cons, List.head?_append, List.head?_cons, Option.bind_some]
    have hc : ∃ u, c.units.head? = some u := by
      unfold CodePoint.units
      split <;> exact ⟨_, rfl⟩
    obtain ⟨u, hu⟩ := hc
    rw [hu, Option.some_or]

/-- Splitting into code units and joining again loses nothing. -/
theorem joinUnits_flatMap_units {s : PyStr} (h : s.Unicode) :
    joinUnits (s.flatMap CodePoint.units) = s := by
  induction s with
  | nil => rfl
  | cons c s ih =>
    have hs : PyStr.Unicode s := List.IsChain.tail h
    rw [List.flatMap_cons]
    by_cases hc : c.val < 0x10000
    · have hu : c.units = [c] := if_pos hc
      rw [hu, List.singleton_append, joinUnits_cons, ih hs]
      intro v hv hcv
      rw [head_flatMap_units] at hv
      obtain ⟨d, hd, hv⟩ := Option.mem_bind_iff.mp hv
      cases s with
      | nil => simp at hd
      | cons e s =>
        simp only [List.head?_cons, Option.mem_def, Option.some.injEq] at hd
        subst hd
        exact (List.isChain_cons_cons.mp h).1 ⟨hcv.1, isLow_of_head_units hv hcv.2⟩
    · obtain ⟨hi, lo, hu, hpair, hjoin⟩ := units_of_ge hc
      rw [hu, List.cons_append, List.cons_append, List.nil_append, joinUnits, if_pos hpair, hjoin,
        ih hs]

theorem hexVal_digitChar : ∀ d, d < 16 → hexVal (Nat.digitChar d) = some d := by decide

theorem hex4_digitChars (u : CodePoint) (h : u.val < 0x10000) :
    hex4 (u.val / 0x1000 % 16).digitChar (u.val / 0x100 % 16).digitChar
      (u.val / 0x10 % 16).digitChar (u.val % 16).digitChar = some u := by
  have hlt (n : ℕ) : n % 16 < 16 := Nat.mod_lt _ (by decide)
  have hsum : ((u.val / 0x1000 % 16 * 16 + u.val / 0x100 % 16) * 16 + u.val / 0x10 % 16) * 16 +
      u.val % 16 = u.val := by omega
  simp only [hex4, hexVal_digitChar _ (hlt _), Option.bind_eq_bind, Option.bind_some, hsum]
  rw [dif_pos u.isLt]

/-- One escaped code unit is read as that code unit. -/
theorem scanUnits_escapeUnit (u : CodePoint) (h : u.val < 0x10000) (cs : List Char) :
    scanUnits (escapeUnit u ++ cs) = (scanUnits cs).map fun p => (u :: p.1, p.2) := by
  have short (e : Char) (v : CodePoint) (hu : u = v) (he : e ≠ 'u') (hv : unescape e = some v) :
      scanUnits ('\\' :: e :: cs) = (scanUnits cs).map fun p => (u :: p.1, p.2) := by
    rw [scanUnits.eq_def]
    simp only [Char.reduceEq, if_true, if_false, he, hv, ← hu]
    cases scanUnits cs <;> rfl
  unfold escapeUnit
  split
  · exact short '"' 0x22 (Fin.ext ‹_›) (by decide) rfl
  split
  · exact short '\\' 0x5C (Fin.ext ‹_›) (by decide) rfl
  split
  · exact short 'b' 0x08 (Fin.ext ‹_›) (by decide) rfl
  split
  · exact short 'f' 0x0C (Fin.ext ‹_›) (by decide) rfl
  split
  · exact short 'n' 0x0A (Fin.ext ‹_›) (by decide) rfl
  split
  · exact short 'r' 0x0D (Fin.ext ‹_›) (by decide) rfl
  split
  · exact short 't' 0x09 (Fin.ext ‹_›) (by decide) rfl
  split
  · rename_i hq hb _ _ _ _ _ hp
    have hn : (Char.ofNat u.val).toNat = u.val := by
      rw [Char.toNat_ofNat, if_pos (Or.inl (by omega))]
    have hne (c : Char) (hc : u.val ≠ c.toNat) : Char.ofNat u.val ≠ c := by
      intro e
      exact hc (by rw [← e, hn])
    rw [List.singleton_append, scanUnits.eq_def]
    simp only [hne '"' hq, hne '\\' hb, hn, if_false, if_neg (show ¬ u.val < 0x20 by omega)]
    have hu : CodePoint.ofChar (Char.ofNat u.val) = u := Fin.ext hn
    rw [hu]
    cases scanUnits cs <;> rfl
  · rw [uEscape, scanUnits.eq_def]
    simp only [Char.reduceEq, if_true, if_false, List.cons_append, List.nil_append,
      hex4_digitChars u h]
    cases scanUnits cs <;> rfl

theorem scanUnits_escape {us : PyStr} (h : ∀ u ∈ us, u.val < 0x10000) (cs : List Char) :
    scanUnits (us.flatMap escapeUnit ++ '"' :: cs) = some (us, cs) := by
  induction us with
  | nil =>
    rw [List.flatMap_nil, List.nil_append, scanUnits.eq_def]
    rfl
  | cons u us ih =>
    rw [List.flatMap_cons, List.append_assoc,
      scanUnits_escapeUnit u (h u List.mem_cons_self), ih fun v hv => h v (List.mem_cons_of_mem _ hv)]
    rfl

/-- A written string is read back, whatever follows it. -/
theorem scanString_dumpsStr {s : PyStr} (h : s.Unicode) (cs : List Char) :
    scanString ((s.flatMap CodePoint.units).flatMap escapeUnit ++ '"' :: cs) = some (s, cs) := by
  rw [scanString, scanUnits_escape, Option.map_some, joinUnits_flatMap_units h]
  intro u hu
  obtain ⟨c, -, hc⟩ := List.mem_flatMap.mp hu
  exact units_lt hc

/-! ## Atoms -/

/-- What follows a value inside a larger text: nothing, a comma or a closing bracket. -/
def Ends (r : List Char) : Prop := ∀ c ∈ r.head?, c = ',' ∨ c = ']' ∨ c = '}'

theorem Ends.nil : Ends [] := by simp [Ends]

theorem Ends.cons {c : Char} {r : List Char} (h : c = ',' ∨ c = ']' ∨ c = '}') : Ends (c :: r) := by
  simpa [Ends] using h

section Append

variable {r : List Char} (hr : Ends r)

include hr

theorem Ends.head_ne {c : Char} {p : Char → Prop} (hc : c ∈ r.head?)
    (h : ¬ p ',' ∧ ¬ p ']' ∧ ¬ p '}') : ¬ p c := by
  rcases hr c hc with rfl | rfl | rfl
  · exact h.1
  · exact h.2.1
  · exact h.2.2

theorem takeWhile_digits_append (s : List Char) :
    (s ++ r).takeWhile Char.isDigit = s.takeWhile Char.isDigit := by
  induction s with
  | nil =>
    cases r with
    | nil => rfl
    | cons c r =>
      have hc : ¬ c.isDigit = true :=
        Ends.head_ne hr (p := fun c => c.isDigit = true) (by simp) (by decide)
      simp [hc]
  | cons c s ih =>
    by_cases hc : c.isDigit = true
    · simp [hc, ih]
    · simp [hc]

theorem dropWhile_digits_append (s : List Char) :
    (s ++ r).dropWhile Char.isDigit = s.dropWhile Char.isDigit ++ r := by
  induction s with
  | nil =>
    cases r with
    | nil => rfl
    | cons c r =>
      have hc : ¬ c.isDigit = true :=
        Ends.head_ne hr (p := fun c => c.isDigit = true) (by simp) (by decide)
      simp [hc]
  | cons c s ih =>
    by_cases hc : c.isDigit = true
    · simp [hc, ih]
    · simp [hc]

theorem scanWhole_append (s : List Char) :
    scanWhole (s ++ r) = (scanWhole s).map fun p => (p.1, p.2 ++ r) := by
  cases s with
  | nil =>
    cases r with
    | nil => rfl
    | cons c r =>
      have h0 : ¬ c = '0' := Ends.head_ne hr (p := fun c => c = '0') (by simp) (by decide)
      have hc : ¬ c.isDigit = true :=
        Ends.head_ne hr (p := fun c => c.isDigit = true) (by simp) (by decide)
      simp [scanWhole, h0, hc]
  | cons c s =>
    simp only [scanWhole, List.cons_append]
    split
    · rfl
    split
    · simp [takeWhile_digits_append hr, dropWhile_digits_append hr]
    · rfl

theorem scanFraction_append (s : List Char) :
    scanFraction (s ++ r) = ((scanFraction s).1, (scanFraction s).2 ++ r) := by
  have plain {c : Char} {cs : List Char} (hc : c ≠ '.') :
      scanFraction (c :: cs) = ([], c :: cs) := by
    rw [scanFraction]
    rintro d cs' e
    exact hc (List.cons.inj e).1
  match s with
  | [] =>
    cases r with
    | nil => rfl
    | cons c r =>
      exact plain (Ends.head_ne hr (p := fun c => c = '.') (by simp) (by decide))
  | [c] =>
    by_cases hc : c = '.'
    · subst hc
      cases r with
      | nil => rfl
      | cons d r =>
        have hd : ¬ d.isDigit = true :=
          Ends.head_ne hr (p := fun c => c.isDigit = true) (by simp) (by decide)
        simp [scanFraction, hd]
    · rw [plain hc, List.singleton_append, plain hc]
  | c :: d :: s =>
    by_cases hc : c = '.'
    · subst hc
      simp only [scanFraction, List.cons_append]
      split
      · simp [takeWhile_digits_append hr, dropWhile_digits_append hr]
      · rfl
    · rw [plain hc, List.cons_append, plain hc]

theorem scanSign_append (s : List Char) :
    scanSign (s ++ r) = ((scanSign s).1, (scanSign s).2 ++ r) := by
  match s with
  | [] =>
    cases r with
    | nil => rfl
    | cons c r =>
      have h1 : ¬ c = '-' := Ends.head_ne hr (p := fun c => c = '-') (by simp) (by decide)
      have h2 : ¬ c = '+' := Ends.head_ne hr (p := fun c => c = '+') (by simp) (by decide)
      simp [scanSign, h1, h2]
  | '-' :: s => rfl
  | '+' :: s => rfl
  | c :: s =>
    by_cases h1 : c = '-'
    · subst h1
      rfl
    · by_cases h2 : c = '+'
      · subst h2
        rfl
      · simp [scanSign, h1, h2]

theorem scanExponent_append (s : List Char) :
    scanExponent (s ++ r) = ((scanExponent s).1, (scanExponent s).2 ++ r) := by
  cases s with
  | nil =>
    cases r with
    | nil => rfl
    | cons c r =>
      have hc : ¬ (c = 'e' ∨ c = 'E') :=
        Ends.head_ne hr (p := fun c => c = 'e' ∨ c = 'E') (by simp) (by decide)
      simp [scanExponent, hc]
  | cons e s =>
    simp only [scanExponent, List.cons_append, scanSign_append hr]
    split
    · cases hs : (scanSign s).2 with
      | nil =>
        cases r with
        | nil => simp
        | cons c r =>
          have hc : ¬ c.isDigit = true :=
            Ends.head_ne hr (p := fun c => c.isDigit = true) (by simp) (by decide)
          simp [hc]
      | cons d ds =>
        simp only [List.cons_append]
        split
        · simp [takeWhile_digits_append hr, dropWhile_digits_append hr]
        · rfl
    · rfl

theorem scanUnsigned_append (neg : Bool) (s : List Char) :
    scanUnsigned neg (s ++ r) = (scanUnsigned neg s).map fun p => (p.1, p.2 ++ r) := by
  simp only [scanUnsigned, scanWhole_append hr]
  cases scanWhole s with
  | none => rfl
  | some p =>
    simp only [Option.map_some, scanFraction_append hr, scanExponent_append hr]
    split <;> rfl

theorem scanNumber_append (s : List Char) :
    scanNumber (s ++ r) = (scanNumber s).map fun p => (p.1, p.2 ++ r) := by
  have plain {cs : List Char} (hc : '-' ∉ cs.head?) : scanNumber cs = scanUnsigned false cs := by
    rw [scanNumber]
    rintro cs' rfl
    exact hc (by simp)
  cases s with
  | nil =>
    rw [List.nil_append, plain]
    · exact scanUnsigned_append hr false []
    · exact fun h => absurd (hr _ h) (by decide)
  | cons c s =>
    by_cases hc : c = '-'
    · subst hc
      exact scanUnsigned_append hr true s
    · rw [plain (by simpa using hc), List.cons_append, plain (by simpa using hc)]
      exact scanUnsigned_append hr false (c :: s)

/-- No delimiter occurs in a literal, so a literal is found in the value or not at all. -/
theorem isPrefixOf_append {w : List Char} (hw : ',' ∉ w ∧ ']' ∉ w ∧ '}' ∉ w) (s : List Char) :
    w.isPrefixOf (s ++ r) = w.isPrefixOf s := by
  induction w generalizing s with
  | nil => simp
  | cons c w ih =>
    simp only [List.mem_cons, not_or] at hw
    cases s with
    | nil =>
      cases r with
      | nil => rfl
      | cons d r =>
        have hd : ¬ c = d := by
          rintro rfl
          rcases hr c (by simp) with rfl | rfl | rfl
          · exact hw.1.1 rfl
          · exact hw.2.1.1 rfl
          · exact hw.2.2.1 rfl
        simp [List.isPrefixOf_cons_cons, hd]
    | cons d s =>
      simp only [List.cons_append, List.isPrefixOf_cons_cons]
      rw [ih ⟨hw.1.2, hw.2.1.2, hw.2.2.2⟩]

theorem expect_append {w : List Char} (hw : ',' ∉ w ∧ ']' ∉ w ∧ '}' ∉ w) (s : List Char) :
    expect w (s ++ r) = (expect w s).map fun q => q ++ r := by
  unfold expect
  rw [isPrefixOf_append hr hw]
  split
  · rename_i h
    rw [List.drop_append_of_le_length (List.isPrefixOf_iff_prefix.mp h).length_le]
    rfl
  · rfl

/-- An atom is read the same whatever delimiter follows it. -/
theorem scanAtom_append (s : List Char) :
    scanAtom (s ++ r) = (scanAtom s).map fun p => (p.1, p.2 ++ r) := by
  have hwords : ∀ ws : List (List Char × Json),
      (∀ w ∈ ws, ',' ∉ w.1 ∧ ']' ∉ w.1 ∧ '}' ∉ w.1) →
      (ws.findSome? fun w => (expect w.1 (s ++ r)).map fun q => (w.2, q)) =
        (ws.findSome? fun w => (expect w.1 s).map fun q => (w.2, q)).map fun p => (p.1, p.2 ++ r) := by
    intro ws hws
    induction ws with
    | nil => rfl
    | cons w ws ih =>
      rw [List.findSome?_cons, List.findSome?_cons, expect_append hr (hws w List.mem_cons_self)]
      cases expect w.1 s with
      | none => exact ih fun v hv => hws v (List.mem_cons_of_mem _ hv)
      | some q => rfl
  unfold scanAtom
  rw [hwords words (by decide), scanNumber_append hr]
  cases words.findSome? fun w => (expect w.1 s).map fun q => (w.2, q) <;> rfl

end Append

/-- Decimal digits have no leading zero. -/
theorem toDigits_head (n : ℕ) : ∃ d ds, Nat.toDigits 10 n = d :: ds ∧ (d = '0' → ds = []) := by
  induction n using Nat.strong_induction_on with
  | _ n ih =>
    by_cases hn : n < 10
    · exact ⟨n.digitChar, [], Nat.toDigits_of_lt_base hn, fun _ => rfl⟩
    · obtain ⟨d, ds, hd, h0⟩ := ih (n / 10) (by omega)
      refine ⟨d, ds ++ [(n % 10).digitChar], ?_, ?_⟩
      · rw [Nat.toDigits_of_base_le (by decide) (by omega), hd, List.cons_append]
      · -- a leading zero would make the quotient zero
        intro e
        have hv := Nat.ofDigitChars_ten_toDigits (n := n / 10)
        rw [hd, h0 e, e] at hv
        have : n / 10 = 0 := by rw [← hv]; rfl
        omega

theorem scanUnsigned_toDigits (neg : Bool) (n : ℕ) :
    scanUnsigned neg (Nat.toDigits 10 n) = some (.int (if neg then -(n : Int) else n), []) := by
  have hall : ∀ c ∈ Nat.toDigits 10 n, c.isDigit = true := fun c hc =>
    Nat.isDigit_of_mem_toDigits (by decide) (by decide) hc
  have hw : scanWhole (Nat.toDigits 10 n) = some (Nat.toDigits 10 n, []) := by
    obtain ⟨d, ds, hd, h0⟩ := toDigits_head n
    rw [hd] at hall ⊢
    have hds : ∀ c ∈ ds, c.isDigit = true := fun c hc => hall c (List.mem_cons_of_mem _ hc)
    rw [scanWhole]
    split
    · rename_i e
      rw [h0 e, e]
    · rw [if_pos (hall d List.mem_cons_self), List.takeWhile_eq_self_iff.mpr hds,
        List.dropWhile_eq_nil_iff.mpr hds]
  simp [scanUnsigned, hw, scanFraction, scanExponent, intOf]

/-- No literal begins with a digit, or with a minus sign and a digit. -/
theorem words_digit {s ds : List Char} {d : Char} (hd : d.isDigit = true)
    (hs : s = d :: ds ∨ s = '-' :: d :: ds) :
    (words.findSome? fun w => (expect w.1 s).map fun q => (w.2, q)) = none := by
  have hne (c : Char) (hc : c.isDigit = false) : ¬ c = d := by
    rintro rfl
    rw [hc] at hd
    cases hd
  have hn := hne 'n' (by decide)
  have ht := hne 't' (by decide)
  have hf := hne 'f' (by decide)
  have hN := hne 'N' (by decide)
  have hI := hne 'I' (by decide)
  have hm := hne '-' (by decide)
  rcases hs with rfl | rfl <;> simp [words, expect, hn, ht, hf, hN, hI, hm]

/-- An integer is read back. -/
theorem scanAtom_dumpsInt (i : Int) : scanAtom (dumpsInt i) = some (.int i, []) := by
  cases i with
  | ofNat n =>
    obtain ⟨d, ds, hd, -⟩ := toDigits_head n
    have hdig : d.isDigit = true :=
      Nat.isDigit_of_mem_toDigits (b := 10) (n := n) (by decide) (by decide) (by simp [hd])
    have hm : ¬ d = '-' := by
      rintro rfl
      cases hdig
    rw [dumpsInt, scanAtom, words_digit hdig (Or.inl hd)]
    simp only
    rw [scanNumber, scanUnsigned_toDigits]
    · rfl
    · intro cs e
      rw [hd] at e
      exact hm (List.cons.inj e).1
  | negSucc n =>
    obtain ⟨d, ds, hd, -⟩ := toDigits_head (n + 1)
    have hdig : d.isDigit = true :=
      Nat.isDigit_of_mem_toDigits (b := 10) (n := n + 1) (by decide) (by decide) (by simp [hd])
    rw [dumpsInt, scanAtom, words_digit hdig (Or.inr (by rw [hd]))]
    simp only [scanNumber, scanUnsigned_toDigits, if_true]
    rfl

/-! ## Values -/

theorem skipWs_cons {c : Char} (h : isWs c = false) (cs : List Char) :
    skipWs (c :: cs) = c :: cs := by
  simp [skipWs, h]

@[simp] theorem skipWs_pad (l : Layout) (cs : List Char) :
    skipWs (l.pad ++ cs) = skipWs cs := by
  cases l
  · rfl
  · simp [skipWs, Layout.pad, isWs]

/-- A number begins with a digit or a minus sign. -/
theorem scanNumber_head {c : Char} {cs : List Char} {p : Json × List Char}
    (h : scanNumber (c :: cs) = some p) : c.isDigit = true ∨ c = '-' := by
  by_cases hc : c = '-'
  · exact Or.inr hc
  · left
    have hs : scanNumber (c :: cs) = scanUnsigned false (c :: cs) := by
      rw [scanNumber]
      rintro cs' e
      exact hc (List.cons.inj e).1
    rw [hs, scanUnsigned, scanWhole] at h
    split at h
    · cases h
    · rename_i hw
      split at hw
      · rename_i h0
        exact h0 ▸ by decide
      · split at hw
        · assumption
        · cases hw

theorem head_of_expect {w : List Char} {c d : Char} {cs r : List Char}
    (h : expect (d :: w) (c :: cs) = some r) : c = d := by
  unfold expect at h
  split at h
  · rename_i hp
    rw [List.isPrefixOf_cons_cons, Bool.and_eq_true, beq_iff_eq] at hp
    exact hp.1.symm
  · cases h

/-- The characters an atom can begin with. -/
theorem scanAtom_head {c : Char} {cs : List Char} {p : Json × List Char}
    (h : scanAtom (c :: cs) = some p) :
    c.isDigit = true ∨ c ∈ ['-', 'n', 't', 'f', 'N', 'I'] := by
  unfold scanAtom at h
  split at h
  · rename_i q hq
    obtain ⟨w, hw, hx⟩ := List.exists_of_findSome?_eq_some hq
    obtain ⟨t, ht, -⟩ := Option.map_eq_some_iff.mp hx
    right
    simp only [words, String.reduceToList, List.mem_cons, List.not_mem_nil, or_false] at hw
    rcases hw with rfl | rfl | rfl | rfl | rfl | rfl <;> rw [head_of_expect ht] <;> decide
  · rcases scanNumber_head h with hd | hm
    · exact Or.inl hd
    · exact Or.inr (by simp [hm])

/-- The first character of a text: no whitespace, and no closing bracket. -/
theorem dumps_head (l : Layout) {v : Json} (h : v.Valid) :
    ∃ c cs, dumps l v = c :: cs ∧ isWs c = false ∧ c ≠ ']' := by
  -- no literal or number starts with whitespace or a bracket
  have atom {c : Char} {cs : List Char} {p : Json × List Char} (hp : scanAtom (c :: cs) = some p) :
      isWs c = false ∧ c ≠ ']' := by
    rcases scanAtom_head hp with hd | hc
    · refine ⟨?_, ?_⟩
      · by_contra hw
        simp only [isWs, Bool.not_eq_false, Bool.or_eq_true, decide_eq_true_eq] at hw
        rcases hw with ((rfl | rfl) | rfl) | rfl <;> cases hd
      · rintro rfl
        cases hd
    · simp only [List.mem_cons, List.not_mem_nil, or_false] at hc
      rcases hc with rfl | rfl | rfl | rfl | rfl | rfl <;> decide
  match v, h with
  | .null, _ => exact ⟨_, _, rfl, by decide, by decide⟩
  | .bool true, _ => exact ⟨_, _, rfl, by decide, by decide⟩
  | .bool false, _ => exact ⟨_, _, rfl, by decide, by decide⟩
  | .int i, _ =>
    have hi := scanAtom_dumpsInt i
    rw [dumps]
    cases hd : dumpsInt i with
    | nil => rw [hd] at hi; cases hi
    | cons c cs => exact ⟨c, cs, rfl, atom (hd ▸ hi)⟩
  | .float lit, h =>
    have hi : scanAtom lit = some (.float lit, []) := by
      simpa [Valid, isValid] using h
    rw [dumps]
    cases lit with
    | nil => cases hi
    | cons c cs => exact ⟨c, cs, rfl, atom hi⟩
  | .str s, _ => exact ⟨_, _, by rw [dumps, dumpsStr], by decide, by decide⟩
  | .arr [], _ => exact ⟨_, _, by rw [dumps], by decide, by decide⟩
  | .arr (x :: xs), _ => exact ⟨_, _, by rw [dumps], by decide, by decide⟩
  | .obj [], _ => exact ⟨_, _, by rw [dumps], by decide, by decide⟩
  | .obj ((k, v) :: kvs), _ => exact ⟨_, _, by rw [dumps], by decide, by decide⟩

theorem skipWs_dumps (l : Layout) {v : Json} (h : v.Valid) (cs : List Char) :
    skipWs (dumps l v ++ cs) = dumps l v ++ cs := by
  obtain ⟨c, t, hd, hw, -⟩ := dumps_head l h
  rw [hd, List.cons_append, skipWs_cons hw]

theorem ends_dumpsItems (l : Layout) (xs : List Json) (r : List Char) :
    Ends (dumpsItems l xs ++ r) := by
  cases xs with
  | nil => exact Ends.cons (by simp)
  | cons x xs => exact Ends.cons (by simp)

theorem ends_dumpsMembers (l : Layout) (kvs : List (PyStr × Json)) (r : List Char) :
    Ends (dumpsMembers l kvs ++ r) := by
  cases kvs with
  | nil => exact Ends.cons (by simp)
  | cons p kvs => exact Ends.cons (by simp)

theorem setMember_of_notMem {kvs : List (PyStr × Json)} {k : PyStr} (v : Json)
    (h : k ∉ kvs.map Prod.fst) : setMember kvs k v = kvs ++ [(k, v)] := by
  induction kvs with
  | nil => rfl
  | cons p kvs ih =>
    obtain ⟨m, w⟩ := p
    simp only [List.map_cons, List.mem_cons, not_or] at h
    rw [setMember, if_neg (Ne.symm h.1), ih h.2, List.cons_append]

/-- An object without a repeated key is its own `dict`. -/
theorem dictOf_of_nodup {kvs : List (PyStr × Json)} (h : (kvs.map Prod.fst).Nodup) :
    dictOf kvs = kvs := by
  have key : ∀ (rest done : List (PyStr × Json)), ((done ++ rest).map Prod.fst).Nodup →
      rest.foldl (fun d p => setMember d p.1 p.2) done = done ++ rest := by
    intro rest
    induction rest with
    | nil => simp
    | cons p rest ih =>
      intro done hd
      have hp : p.1 ∉ done.map Prod.fst := by
        rw [List.map_append, List.map_cons] at hd
        exact fun hm => (List.nodup_append.mp hd).2.2 _ hm _ List.mem_cons_self rfl
      rw [List.foldl_cons, setMember_of_notMem _ hp, ih]
      · simp
      · simpa using hd
  exact key kvs [] (by simpa using h)

theorem length_le_dumpsItems (l : Layout) (xs : List Json) :
    xs.length < (dumpsItems l xs).length := by
  induction xs with
  | nil => simp [dumpsItems]
  | cons x xs ih =>
    simp only [dumpsItems, List.length_cons, List.length_append]
    omega

theorem length_le_dumpsMembers (l : Layout) (kvs : List (PyStr × Json)) :
    kvs.length < (dumpsMembers l kvs).length := by
  induction kvs with
  | nil => simp [dumpsMembers]
  | cons p kvs ih =>
    simp only [dumpsMembers, List.length_cons, List.length_append]
    omega

theorem valid_arr_cons {x : Json} {xs : List Json} :
    (arr (x :: xs)).Valid ↔ x.Valid ∧ isValidItems xs = true := by
  simp [Valid, isValid, isValidItems]

theorem isValidItems_cons {x : Json} {xs : List Json} :
    isValidItems (x :: xs) = true ↔ x.Valid ∧ isValidItems xs = true := by
  simp [Valid, isValidItems]

theorem isValidMembers_cons {k : PyStr} {v : Json} {kvs : List (PyStr × Json)} :
    isValidMembers ((k, v) :: kvs) = true ↔
      k.Unicode ∧ v.Valid ∧ isValidMembers kvs = true := by
  simp [Valid, isValidMembers, and_assoc]

theorem valid_obj {kvs : List (PyStr × Json)} :
    (obj kvs).Valid ↔ (kvs.map Prod.fst).Nodup ∧ isValidMembers kvs = true := by
  simp [Valid, isValid]

section Scan

variable {l : Layout} {n : ℕ}

/-- The scanner reads `v` whatever delimiter follows it. -/
def Reads (l : Layout) (n : ℕ) (v : Json) : Prop :=
  ∀ r, Ends r → scanOnce n (dumps l v ++ r) = some (v, r)

theorem scanOnce_atom {s r : List Char} {v : Json} (hr : Ends r) (h : scanAtom s = some (v, [])) :
    scanOnce (n + 1) (s ++ r) = some (v, r) := by
  cases s with
  | nil => cases h
  | cons c s =>
    have hne : ¬ c = '"' ∧ ¬ c = '{' ∧ ¬ c = '[' := by
      rcases scanAtom_head h with hd | hc
      · refine ⟨?_, ?_, ?_⟩ <;> (rintro rfl; cases hd)
      · simp only [List.mem_cons, List.not_mem_nil, or_false] at hc
        rcases hc with rfl | rfl | rfl | rfl | rfl | rfl <;> decide
    rw [List.cons_append, scanOnce, if_neg hne.1, if_neg hne.2.1, if_neg hne.2.2,
      ← List.cons_append, scanAtom_append hr, h]
    rfl

theorem scanOnce_str {s : PyStr} (hs : s.Unicode) (r : List Char) :
    scanOnce (n + 1) (dumpsStr s ++ r) = some (.str s, r) := by
  rw [dumpsStr, List.cons_append, scanOnce, if_pos rfl, List.append_assoc, List.singleton_append,
    scanString_dumpsStr hs]
  rfl

theorem scanOnce_arr {c : Char} {cs : List Char} (hw : isWs c = false) (hc : c ≠ ']') :
    scanOnce (n + 1) ('[' :: c :: cs) =
      (scanItems (scanOnce n) (c :: cs).length (c :: cs)).map fun p => (.arr p.1, p.2) := by
  rw [scanOnce]
  simp [skipWs_cons hw, hc]

theorem scanOnce_obj {c : Char} {cs : List Char} (hw : isWs c = false) (hc : c ≠ '}') :
    scanOnce (n + 1) ('{' :: c :: cs) =
      (scanMembers (scanOnce n) (c :: cs).length (c :: cs)).map fun p => (.obj (dictOf p.1), p.2) := by
  rw [scanOnce]
  simp [skipWs_cons hw, hc]

theorem scanItems_cons {x : Json} {xs : List Json} {m : ℕ} {r : List Char} (hx : Reads l n x)
    (ht : ∀ y ys, xs = y :: ys → y.Valid ∧
      scanItems (scanOnce n) m (dumps l y ++ (dumpsItems l ys ++ r)) = some (xs, r)) :
    scanItems (scanOnce n) (m + 1) (dumps l x ++ (dumpsItems l xs ++ r)) = some (x :: xs, r) := by
  rw [scanItems, hx _ (ends_dumpsItems l xs r)]
  cases xs with
  | nil => rfl
  | cons y ys =>
    obtain ⟨hy, hs⟩ := ht y ys rfl
    simp only [dumpsItems, List.cons_append, List.append_assoc, skipWs_cons (c := ',') rfl,
      skipWs_pad, skipWs_dumps l hy, hs, Option.map_some]

theorem scanMembers_cons {k : PyStr} {v : Json} {kvs : List (PyStr × Json)} {m : ℕ}
    {r : List Char} (hk : k.Unicode) (hval : v.Valid) (hv : Reads l n v)
    (ht : ∀ k' v' rest, kvs = (k', v') :: rest → scanMembers (scanOnce n) m
      (dumpsStr k' ++ (':' :: (l.pad ++ (dumps l v' ++ (dumpsMembers l rest ++ r))))) =
        some (kvs, r)) :
    scanMembers (scanOnce n) (m + 1)
      (dumpsStr k ++ (':' :: (l.pad ++ (dumps l v ++ (dumpsMembers l kvs ++ r))))) =
        some ((k, v) :: kvs, r) := by
  rw [dumpsStr, List.cons_append, scanMembers, List.append_assoc, List.singleton_append,
    scanString_dumpsStr hk]
  simp only [skipWs_cons (c := ':') rfl, skipWs_pad, skipWs_dumps l hval,
    hv _ (ends_dumpsMembers l kvs r)]
  cases kvs with
  | nil => rfl
  | cons p rest =>
    obtain ⟨k', v'⟩ := p
    have hs := ht k' v' rest rfl
    simp only [dumpsMembers, List.cons_append, List.append_assoc, skipWs_cons (c := ',') rfl,
      skipWs_pad]
    rw [dumpsStr, List.cons_append] at hs ⊢
    rw [skipWs_cons (c := '"') rfl, hs, Option.map_some]

end Scan

mutual

/-- **Reading undoes writing**, at any nesting bound above the length of the text and whatever
delimiter follows it. -/
theorem scanOnce_dumps (l : Layout) :
    ∀ (v : Json) (n : ℕ), v.Valid → (dumps l v).length < n → Reads l n v
  | v, 0, _, hn => absurd hn (by simp)
  | .null, n + 1, _, _ => fun r hr => scanOnce_atom hr rfl
  | .bool true, n + 1, _, _ => fun r hr => scanOnce_atom hr rfl
  | .bool false, n + 1, _, _ => fun r hr => scanOnce_atom hr rfl
  | .int i, n + 1, _, _ => fun r hr => scanOnce_atom hr (scanAtom_dumpsInt i)
  | .float lit, n + 1, h, _ => fun r hr =>
    scanOnce_atom hr (by simpa [Valid, isValid, dumps] using h)
  | .str s, n + 1, h, _ => fun r _ => scanOnce_str (by simpa [Valid, isValid] using h) r
  | .arr [], n + 1, _, _ => fun r _ => by
    rw [dumps, List.cons_append, scanOnce]
    simp [skipWs_cons (c := ']') rfl]
  | .obj kvs, n + 1, h, hn => fun r _ => scanObj_dumps l kvs (n + 1) r h hn
  | .arr (x :: xs), n + 1, h, hn => fun r _ => by
    have hv := valid_arr_cons.mp h
    rw [dumps] at hn ⊢
    simp only [List.length_cons, List.length_append] at hn
    have hx := scanOnce_dumps l x n hv.1 (by omega)
    -- the number of items read is bounded by the length of the text
    have hs := scanItems_dumps l xs x n (dumps l x ++ (dumpsItems l xs ++ r)).length r hv.2 hx
      (by omega) (by
        have := length_le_dumpsItems l xs
        simp only [List.length_append]
        omega)
    obtain ⟨c, t, hd, hw, hb⟩ := dumps_head l hv.1
    rw [List.cons_append, List.append_assoc]
    rw [hd, List.cons_append] at hs ⊢
    rw [scanOnce_arr hw hb, hs, Option.map_some]

/-- An object is read back whatever follows it. -/
theorem scanObj_dumps (l : Layout) :
    ∀ (kvs : List (PyStr × Json)) (n : ℕ) (r : List Char), (obj kvs).Valid →
      (dumps l (obj kvs)).length < n →
      scanOnce n (dumps l (.obj kvs) ++ r) = some (.obj kvs, r)
  | kvs, 0, _, _, hn => absurd hn (by simp)
  | [], n + 1, r, _, _ => by
    rw [dumps, List.cons_append, scanOnce]
    simp [skipWs_cons (c := '}') rfl]
  | (k, v) :: kvs, n + 1, r, h, hn => by
    obtain ⟨hnd, hv⟩ := valid_obj.mp h
    obtain ⟨hk, hval, hkvs⟩ := isValidMembers_cons.mp hv
    rw [dumps] at hn ⊢
    simp only [List.length_cons, List.length_append] at hn
    have hx := scanOnce_dumps l v n hval (by omega)
    have hs := scanMembers_dumps l kvs k v n
      (dumpsStr k ++ (':' :: (l.pad ++ (dumps l v ++ (dumpsMembers l kvs ++ r))))).length r
      hk hval hkvs hx (by omega) (by
        have := length_le_dumpsMembers l kvs
        simp only [List.length_append, List.length_cons]
        omega)
    simp only [List.cons_append, List.append_assoc]
    rw [dumpsStr, List.cons_append] at hs ⊢
    rw [scanOnce_obj rfl (by decide), hs, Option.map_some, dictOf_of_nodup hnd]

theorem scanItems_dumps (l : Layout) :
    ∀ (xs : List Json) (x : Json) (n m : ℕ) (r : List Char), isValidItems xs = true →
      Reads l n x → (dumpsItems l xs).length ≤ n → xs.length < m →
      scanItems (scanOnce n) m (dumps l x ++ (dumpsItems l xs ++ r)) = some (x :: xs, r)
  | xs, x, n, 0, r, _, _, _, hm => absurd hm (by simp)
  | [], x, n, m + 1, r, _, hx, _, _ => scanItems_cons hx fun y ys e => absurd e (by simp)
  | y :: ys, x, n, m + 1, r, h, hx, hn, hm => by
    have hv := isValidItems_cons.mp h
    simp only [dumpsItems, List.length_cons, List.length_append] at hn hm
    refine scanItems_cons hx fun y' ys' e => ?_
    obtain ⟨rfl, rfl⟩ := List.cons.inj e
    exact ⟨hv.1, scanItems_dumps l ys y n m r hv.2 (scanOnce_dumps l y n hv.1 (by omega))
      (by omega) (by omega)⟩

theorem scanMembers_dumps (l : Layout) :
    ∀ (kvs : List (PyStr × Json)) (k : PyStr) (v : Json) (n m : ℕ) (r : List Char), k.Unicode →
      v.Valid → isValidMembers kvs = true → Reads l n v → (dumpsMembers l kvs).length ≤ n →
      kvs.length < m →
      scanMembers (scanOnce n) m
        (dumpsStr k ++ (':' :: (l.pad ++ (dumps l v ++ (dumpsMembers l kvs ++ r))))) =
          some ((k, v) :: kvs, r)
  | kvs, k, v, n, 0, r, _, _, _, _, _, hm => absurd hm (by simp)
  | [], k, v, n, m + 1, r, hk, hval, _, hv, _, _ =>
    scanMembers_cons hk hval hv fun k' v' rest e => absurd e (by simp)
  | (k', v') :: kvs, k, v, n, m + 1, r, hk, hval, h, hv, hn, hm => by
    obtain ⟨hk', hval', hkvs⟩ := isValidMembers_cons.mp h
    simp only [dumpsMembers, List.length_cons, List.length_append] at hn hm
    refine scanMembers_cons hk hval hv fun k'' v'' rest e => ?_
    obtain ⟨e₁, rfl⟩ := List.cons.inj e
    obtain ⟨rfl, rfl⟩ := Prod.mk.inj e₁
    exact scanMembers_dumps l kvs k' v' n m r hk' hval' hkvs
      (scanOnce_dumps l v' n hval' (by omega)) (by omega) (by omega)

end

/-- **Reading undoes writing.** -/
theorem loads_dumps (l : Layout) {v : Json} (h : v.Valid) : loads (dumps l v) = some v := by
  have hw := skipWs_dumps l h []
  have hs := scanOnce_dumps l v ((dumps l v).length + 1) h (by omega) [] Ends.nil
  rw [List.append_nil] at hw hs
  rw [loads, hw, hs]
  rfl

/-- **Two objects on one line are no JSON text.** -/
theorem loads_obj_append (l : Layout) {kvs : List (PyStr × Json)} (h : (obj kvs).Valid) {v : Json}
    (hv : v.Valid) : loads (dumps l (.obj kvs) ++ dumps l v) = none := by
  have hs := scanObj_dumps l kvs ((dumps l (.obj kvs) ++ dumps l v).length + 1) (dumps l v) h
    (by rw [List.length_append]; omega)
  obtain ⟨c, t, hd, hw, -⟩ := dumps_head l hv
  rw [hd] at hs ⊢
  rw [loads, skipWs_dumps l h, hs]
  simp only [skipWs_cons hw, reduceCtorEq, if_false]

end Json
