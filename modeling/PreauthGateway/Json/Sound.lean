import PreauthGateway.Json.RoundTrip

/-!
# What is read can be written

Whatever `loads` accepts is a value a Python program can hold: its strings spell no character as two
surrogates, its objects repeat no key, and the text of each of its floats is one. So a value that
was read can be written and read again.

## Main results

* `Json.unicode_joinUnits`: joined code units spell no character as two surrogates
* `Json.scanAtom_float`: the text of a float that was read is read as the same float
* `Json.loads_valid`: **an accepted text is a valid value**
-/

namespace Json

/-! ## Strings -/

theorem join_not_isHigh (u v : CodePoint) : ¬ (CodePoint.join u v).IsHigh := by
  simp only [CodePoint.IsHigh, CodePoint.join]
  omega

theorem join_not_isLow (u v : CodePoint) : ¬ (CodePoint.join u v).IsLow := by
  simp only [CodePoint.IsLow, CodePoint.join]
  omega

/-- The first character of joined units is the first unit, or no surrogate. -/
theorem head_joinUnits (v : CodePoint) (us : PyStr) :
    ∀ x ∈ (joinUnits (v :: us)).head?, x = v ∨ ¬ x.IsLow := by
  intro x hx
  cases us with
  | nil =>
    left
    simpa [joinUnits, eq_comm] using hx
  | cons w us =>
    rw [joinUnits] at hx
    split at hx
    · right
      rw [List.head?_cons, Option.mem_some_iff] at hx
      rw [← hx]
      exact join_not_isLow v w
    · left
      rw [List.head?_cons, Option.mem_some_iff] at hx
      exact hx.symm

/-- **Joined code units spell no character as two surrogates.** -/
theorem unicode_joinUnits (us : PyStr) : PyStr.Unicode (joinUnits us) := by
  fun_induction joinUnits us with
  | case1 => exact List.isChain_nil
  | case2 u => exact List.isChain_singleton u
  | case3 u v us h ih =>
    apply List.IsChain.cons ih
    intro x _ hx
    exact join_not_isHigh u v hx.1
  | case4 u v us h ih =>
    apply List.IsChain.cons ih
    intro x hx hp
    rcases head_joinUnits v us x hx with rfl | hl
    · exact h hp
    · exact hl hp.2

theorem scanString_unicode {cs r : List Char} {s : PyStr} (h : scanString cs = some (s, r)) :
    s.Unicode := by
  obtain ⟨p, -, e⟩ := Option.map_eq_some_iff.mp h
  cases e
  exact unicode_joinUnits p.1

/-! ## Numbers -/

/-- Digits before something else are taken whole. -/
theorem digits_append {ds t : List Char} (hds : ∀ c ∈ ds, c.isDigit = true)
    (ht : ∀ c ∈ t.head?, c.isDigit = false) :
    (ds ++ t).takeWhile Char.isDigit = ds ∧ (ds ++ t).dropWhile Char.isDigit = t := by
  have h0 : t.takeWhile Char.isDigit = [] ∧ t.dropWhile Char.isDigit = t := by
    cases t with
    | nil => exact ⟨rfl, rfl⟩
    | cons c t =>
      have hc : c.isDigit = false := ht c rfl
      constructor <;> simp [hc]
  constructor
  · rw [List.takeWhile_append_of_pos hds, h0.1, List.append_nil]
  · rw [List.dropWhile_append_of_pos hds, h0.2]

theorem isDigit_of_mem_takeWhile (cs : List Char) :
    ∀ c ∈ cs.takeWhile Char.isDigit, c.isDigit = true := fun _ hc => List.mem_takeWhile_imp hc

theorem scanWhole_self {cs ds r t : List Char} (h : scanWhole cs = some (ds, r))
    (ht : ∀ c ∈ t.head?, c.isDigit = false) : scanWhole (ds ++ t) = some (ds, t) := by
  cases cs with
  | nil => cases h
  | cons c cs =>
    rw [scanWhole] at h
    split at h
    · cases h
      rfl
    · rename_i h0
      split at h
      · rename_i hc
        cases h
        obtain ⟨h₁, h₂⟩ := digits_append (isDigit_of_mem_takeWhile cs) ht
        rw [List.cons_append, scanWhole, if_neg h0, if_pos hc, h₁, h₂]
      · cases h

theorem scanWhole_head {cs ds r : List Char} (h : scanWhole cs = some (ds, r)) :
    ∃ d t, ds = d :: t ∧ d.isDigit = true := by
  cases cs with
  | nil => cases h
  | cons c cs =>
    rw [scanWhole] at h
    split at h
    · cases h
      exact ⟨'0', [], rfl, rfl⟩
    · split at h
      · rename_i hc
        cases h
        exact ⟨c, _, rfl, hc⟩
      · cases h

/-- A fraction is empty, or a point and digits. -/
theorem scanFraction_cases (cs : List Char) : (scanFraction cs).1 = [] ∨
    ∃ d ds, (scanFraction cs).1 = '.' :: d :: ds ∧ ∀ c ∈ d :: ds, c.isDigit = true := by
  unfold scanFraction
  split
  · split
    · rename_i hd
      right
      refine ⟨_, _, rfl, ?_⟩
      intro c hc
      rcases List.mem_cons.mp hc with rfl | hc
      · exact hd
      · exact isDigit_of_mem_takeWhile _ c hc
    · exact Or.inl rfl
  · exact Or.inl rfl

/-- An exponent is empty, or a letter, a sign and digits. -/
theorem scanExponent_cases (cs : List Char) : (scanExponent cs).1 = [] ∨
    ∃ e s d ds, (scanExponent cs).1 = e :: (s ++ d :: ds) ∧ (e = 'e' ∨ e = 'E') ∧
      (s = [] ∨ s = ['-'] ∨ s = ['+']) ∧ ∀ c ∈ d :: ds, c.isDigit = true := by
  have hsign (t : List Char) : (scanSign t).1 = [] ∨ (scanSign t).1 = ['-'] ∨
      (scanSign t).1 = ['+'] := by
    unfold scanSign
    split <;> simp
  cases cs with
  | nil => exact Or.inl rfl
  | cons e cs =>
    rw [scanExponent]
    split
    · rename_i he
      split
      · rename_i d ds _
        split
        · rename_i hd
          right
          refine ⟨e, _, d, _, rfl, he, hsign cs, ?_⟩
          intro c hc
          rcases List.mem_cons.mp hc with rfl | hc
          · exact hd
          · exact isDigit_of_mem_takeWhile _ c hc
        · exact Or.inl rfl
      · exact Or.inl rfl
    · exact Or.inl rfl

theorem scanFraction_self {t u : List Char} (hu : ∀ c ∈ u.head?, c.isDigit = false)
    (hp : (scanFraction t).1 = [] → '.' ∉ u.head?) :
    scanFraction ((scanFraction t).1 ++ u) = ((scanFraction t).1, u) := by
  rcases scanFraction_cases t with h | ⟨d, ds, h, hd⟩
  · rw [h, List.nil_append]
    cases u with
    | nil => rfl
    | cons c u =>
      have hc : c ≠ '.' := fun e => hp h (by rw [e]; rfl)
      rw [scanFraction]
      intro d cs e
      exact hc (List.cons.inj e).1
  · obtain ⟨h₁, h₂⟩ := digits_append (fun c hc => hd c (List.mem_cons_of_mem _ hc)) hu
    rw [h]
    simp only [List.cons_append, scanFraction, hd d List.mem_cons_self, if_true, h₁, h₂]

theorem scanExponent_self (t : List Char) :
    scanExponent (scanExponent t).1 = ((scanExponent t).1, []) := by
  rcases scanExponent_cases t with h | ⟨e, s, d, ds, h, he, hs, hd⟩
  · rw [h]
    rfl
  · have hdd : d.isDigit = true := hd d List.mem_cons_self
    have hm : d ≠ '-' ∧ d ≠ '+' := by constructor <;> (rintro rfl; cases hdd)
    have hsign : scanSign (s ++ d :: ds) = (s, d :: ds) := by
      rcases hs with rfl | rfl | rfl
      · simp [scanSign, hm]
      · rfl
      · rfl
    have hds : ∀ c ∈ ds, c.isDigit = true := fun c hc => hd c (List.mem_cons_of_mem _ hc)
    rw [h, scanExponent, if_pos he, hsign]
    simp only [hdd, if_true, List.takeWhile_eq_self_iff.mpr hds, List.dropWhile_eq_nil_iff.mpr hds]

theorem scanExponent_head (t : List Char) :
    ∀ c ∈ (scanExponent t).1.head?, c = 'e' ∨ c = 'E' := by
  intro c hc
  rcases scanExponent_cases t with h | ⟨e, s, d, ds, h, he, -, -⟩
  · rw [h] at hc
    cases hc
  · rw [h, List.head?_cons, Option.mem_some_iff] at hc
    exact hc ▸ he

/-- The text of an unsigned float is read as the same float. -/
theorem scanUnsigned_self {neg : Bool} {cs r lit : List Char}
    (h : scanUnsigned neg cs = some (.float lit, r)) :
    ∃ d t, lit = (if neg then ['-'] else []) ++ d :: t ∧ d.isDigit = true ∧
      scanUnsigned neg (d :: t) = some (.float lit, []) := by
  unfold scanUnsigned at h
  split at h
  · cases h
  rename_i ds t hw
  dsimp only at h
  split at h
  · cases h
  rename_i hne
  obtain ⟨hlit, -⟩ := Prod.mk.inj (Option.some.inj h)
  have hf := scanFraction_cases t
  have he := scanExponent_head (scanFraction t).2
  have hdig : ∀ c ∈ (scanExponent (scanFraction t).2).1.head?, c.isDigit = false := by
    intro c hc
    rcases he c hc with rfl | rfl <;> rfl
  -- what follows the whole part begins with a point or a letter
  have hhead : ∀ c ∈ ((scanFraction t).1 ++ (scanExponent (scanFraction t).2).1).head?,
      c.isDigit = false := by
    intro c hc
    rcases hf with hf | ⟨d, ds', hf, -⟩
    · rw [hf, List.nil_append] at hc
      exact hdig c hc
    · rw [hf, List.cons_append, List.head?_cons, Option.mem_some_iff] at hc
      exact hc ▸ rfl
  have hpoint : (scanFraction t).1 = [] → '.' ∉ (scanExponent (scanFraction t).2).1.head? := by
    intro _ hp
    rcases he _ hp with e | e <;> cases e
  have hw' := scanWhole_self hw hhead
  obtain ⟨d, ds', rfl, hd⟩ := scanWhole_head hw
  refine ⟨d, ds' ++ ((scanFraction t).1 ++ (scanExponent (scanFraction t).2).1), ?_, hd, ?_⟩
  · rw [← Json.float.inj hlit]
    simp
  · rw [List.cons_append] at hw'
    rw [scanUnsigned, hw']
    dsimp only
    rw [scanFraction_self hdig hpoint]
    dsimp only
    rw [scanExponent_self, if_neg hne, ← Json.float.inj hlit]

/-- **The text of a float that was read is read as the same float.** -/
theorem scanAtom_float {cs r lit : List Char} (h : scanAtom cs = some (.float lit, r)) :
    scanAtom lit = some (.float lit, []) := by
  unfold scanAtom at h
  split at h
  · rename_i q hq
    obtain ⟨w, hw, hx⟩ := List.exists_of_findSome?_eq_some hq
    obtain ⟨t, -, e⟩ := Option.map_eq_some_iff.mp hx
    have hv : w.2 = .float lit := by
      have := (Prod.mk.inj (Option.some.inj h)).1
      rw [← this, ← e]
    simp only [words, List.mem_cons, List.not_mem_nil, or_false] at hw
    rcases hw with rfl | rfl | rfl | rfl | rfl | rfl
    iterate 3 cases hv
    all_goals
      cases hv
      decide +kernel
  · unfold scanNumber at h
    split at h
    · -- a sign before a digit begins no literal
      obtain ⟨d, t, hl, hd, hs⟩ := scanUnsigned_self h
      rw [if_pos rfl, List.singleton_append] at hl
      subst hl
      rw [scanAtom, words_digit hd (Or.inr rfl)]
      exact hs
    · obtain ⟨d, t, hl, hd, hs⟩ := scanUnsigned_self h
      rw [if_neg (by decide), List.nil_append] at hl
      subst hl
      rw [scanAtom, words_digit hd (Or.inl rfl)]
      have hm : d ≠ '-' := by
        rintro rfl
        cases hd
      dsimp only
      rw [scanNumber]
      · exact hs
      · intro cs' e
        exact hm (List.cons.inj e).1

/-- A number is an integer or a float. -/
theorem scanNumber_cases {cs r : List Char} {v : Json} (h : scanNumber cs = some (v, r)) :
    (∃ i, v = .int i) ∨ ∃ lit, v = .float lit := by
  have hu {neg : Bool} {cs : List Char} (h : scanUnsigned neg cs = some (v, r)) :
      (∃ i, v = .int i) ∨ ∃ lit, v = .float lit := by
    unfold scanUnsigned at h
    split at h
    · cases h
    · dsimp only at h
      split at h
      · exact Or.inl ⟨_, (Prod.mk.inj (Option.some.inj h)).1.symm⟩
      · exact Or.inr ⟨_, (Prod.mk.inj (Option.some.inj h)).1.symm⟩
  unfold scanNumber at h
  split at h
  · exact hu h
  · exact hu h

theorem scanAtom_cases {cs r : List Char} {v : Json} (h : scanAtom cs = some (v, r)) :
    v = .null ∨ (∃ b, v = .bool b) ∨ (∃ i, v = .int i) ∨ ∃ lit, v = .float lit := by
  unfold scanAtom at h
  split at h
  · rename_i q hq
    obtain ⟨w, hw, hx⟩ := List.exists_of_findSome?_eq_some hq
    obtain ⟨t, -, e⟩ := Option.map_eq_some_iff.mp hx
    have hv : w.2 = v := by
      have := (Prod.mk.inj (Option.some.inj h)).1
      rw [← this, ← e]
    simp only [words, List.mem_cons, List.not_mem_nil, or_false] at hw
    rcases hw with rfl | rfl | rfl | rfl | rfl | rfl <;> simp [← hv]
  · exact Or.inr (Or.inr (scanNumber_cases h))

theorem scanAtom_valid {cs r : List Char} {v : Json} (h : scanAtom cs = some (v, r)) : v.Valid := by
  rcases scanAtom_cases h with rfl | ⟨b, rfl⟩ | ⟨i, rfl⟩ | ⟨lit, rfl⟩
  · rfl
  · rfl
  · rfl
  · show isValid (.float lit) = true
    rw [isValid, decide_eq_true_eq]
    exact scanAtom_float h

/-! ## Objects -/

theorem mem_setMember {kvs : List (PyStr × Json)} {k : PyStr} {v : Json} {p : PyStr × Json}
    (h : p ∈ setMember kvs k v) : p = (k, v) ∨ p ∈ kvs := by
  induction kvs with
  | nil => exact Or.inl (List.mem_singleton.mp h)
  | cons q kvs ih =>
    rw [setMember] at h
    split at h
    · exact (List.mem_cons.mp h).imp id (List.mem_cons_of_mem q)
    · rcases List.mem_cons.mp h with rfl | h
      · exact Or.inr List.mem_cons_self
      · exact (ih h).imp id (List.mem_cons_of_mem q)

theorem nodup_setMember {kvs : List (PyStr × Json)} (h : (kvs.map Prod.fst).Nodup) (k : PyStr)
    (v : Json) : ((setMember kvs k v).map Prod.fst).Nodup := by
  induction kvs with
  | nil => exact List.nodup_singleton k
  | cons q kvs ih =>
    obtain ⟨l, w⟩ := q
    rw [List.map_cons, List.nodup_cons] at h
    rw [setMember]
    split
    · rename_i e
      rw [List.map_cons, List.nodup_cons, ← e]
      exact h
    · rename_i e
      rw [List.map_cons, List.nodup_cons]
      refine ⟨?_, ih h.2⟩
      intro hm
      obtain ⟨p, hp, hl⟩ := List.mem_map.mp hm
      rcases mem_setMember hp with rfl | hp
      · exact e hl.symm
      · exact h.1 (List.mem_map.mpr ⟨p, hp, hl⟩)

theorem isValidMembers_iff {kvs : List (PyStr × Json)} :
    isValidMembers kvs = true ↔ ∀ p ∈ kvs, p.1.Unicode ∧ p.2.Valid := by
  induction kvs with
  | nil => simp [isValidMembers]
  | cons p kvs ih =>
    obtain ⟨k, v⟩ := p
    rw [isValidMembers_cons, ih, List.forall_mem_cons, and_assoc, Valid]

theorem isValidItems_iff {xs : List Json} :
    isValidItems xs = true ↔ ∀ v ∈ xs, v.Valid := by
  induction xs with
  | nil => simp [isValidItems]
  | cons x xs ih =>
    rw [isValidItems_cons, ih, List.forall_mem_cons, Valid]

/-- Building a dict of valid pairs gives a valid object. -/
theorem dictOf_valid {pairs : List (PyStr × Json)} (h : isValidMembers pairs = true) :
    (obj (dictOf pairs)).Valid := by
  rw [valid_obj, isValidMembers_iff]
  rw [isValidMembers_iff] at h
  -- every pair that is set keeps the keys distinct and the members valid
  have hfold (ps : List (PyStr × Json)) (hps : ∀ p ∈ ps, p.1.Unicode ∧ p.2.Valid) :
      ∀ d : List (PyStr × Json), (d.map Prod.fst).Nodup → (∀ p ∈ d, p.1.Unicode ∧ p.2.Valid) →
        ((ps.foldl (fun d p => setMember d p.1 p.2) d).map Prod.fst).Nodup ∧
          ∀ p ∈ ps.foldl (fun d p => setMember d p.1 p.2) d, p.1.Unicode ∧ p.2.Valid := by
    induction ps with
    | nil =>
      intro d hn hd
      exact ⟨hn, hd⟩
    | cons q ps ih =>
      intro d hn hd
      apply ih (fun p hp => hps p (List.mem_cons_of_mem q hp)) _ (nodup_setMember hn _ _)
      intro p hp
      rcases mem_setMember hp with rfl | hp
      · exact hps q List.mem_cons_self
      · exact hd p hp
  exact hfold pairs h [] List.nodup_nil (by simp)

/-! ## Values -/

section Loops

variable {f : List Char → Option (Json × List Char)} (hf : ∀ cs v r, f cs = some (v, r) → v.Valid)

include hf

theorem scanItems_valid (m : ℕ) :
    ∀ cs xs r, scanItems f m cs = some (xs, r) → isValidItems xs = true := by
  induction m with
  | zero => intro cs xs r h; cases h
  | succ m ih =>
    intro cs xs r h
    rw [scanItems] at h
    split at h
    · cases h
    rename_i v t hv
    split at h
    · cases h
      exact isValidItems_cons.mpr ⟨hf _ _ _ hv, rfl⟩
    · obtain ⟨p, hp, e⟩ := Option.map_eq_some_iff.mp h
      cases e
      exact isValidItems_cons.mpr ⟨hf _ _ _ hv, ih _ p.1 p.2 hp⟩
    · cases h

theorem scanMembers_valid (m : ℕ) :
    ∀ cs kvs r, scanMembers f m cs = some (kvs, r) → isValidMembers kvs = true := by
  induction m with
  | zero => intro cs kvs r h; cases h
  | succ m ih =>
    intro cs kvs r h
    rw [scanMembers.eq_def] at h
    dsimp only at h
    split at h
    · split at h
      · cases h
      rename_i k t hk
      split at h
      · split at h
        · cases h
        rename_i v u hv
        split at h
        · cases h
          exact isValidMembers_cons.mpr ⟨scanString_unicode hk, hf _ _ _ hv, rfl⟩
        · obtain ⟨p, hp, e⟩ := Option.map_eq_some_iff.mp h
          cases e
          exact isValidMembers_cons.mpr ⟨scanString_unicode hk, hf _ _ _ hv, ih _ p.1 p.2 hp⟩
        · cases h
      · cases h
    · cases h

end Loops

theorem scanOnce_valid (n : ℕ) : ∀ cs v r, scanOnce n cs = some (v, r) → v.Valid := by
  induction n with
  | zero => intro cs v r h; cases h
  | succ n ih =>
    intro cs v r h
    rw [scanOnce.eq_def] at h
    simp only at h
    split at h
    · cases h
    split at h
    · obtain ⟨p, hp, e⟩ := Option.map_eq_some_iff.mp h
      cases e
      show isValid (.str p.1) = true
      rw [isValid, decide_eq_true_eq]
      exact scanString_unicode hp
    split at h
    · split at h
      · cases h
        rfl
      · obtain ⟨p, hp, e⟩ := Option.map_eq_some_iff.mp h
        cases e
        exact dictOf_valid (scanMembers_valid ih _ _ _ _ hp)
    split at h
    · split at h
      · cases h
        rfl
      · obtain ⟨p, hp, e⟩ := Option.map_eq_some_iff.mp h
        cases e
        exact scanItems_valid ih _ _ _ _ hp
    · exact scanAtom_valid h

/-- **An accepted text is a valid value.** -/
theorem loads_valid {cs : List Char} {v : Json} (h : loads cs = some v) : v.Valid := by
  unfold loads at h
  split at h
  · rename_i w r hs
    split at h
    · cases h
      exact scanOnce_valid _ _ _ _ hs
    · cases h
  · cases h

end Json
