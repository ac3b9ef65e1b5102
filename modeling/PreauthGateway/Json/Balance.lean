import PreauthGateway.Json.RoundTrip

/-!
# Brackets and quotes

A text is read one character at a time, tracking the bracket depth outside quotes and whether a
quote is open. Whatever `loads` accepts is balanced. A written object is balanced too, but no proper
part of its front is, and from inside an open quote a whole written value leaves a quote open. So an
object cut off anywhere is no JSON text, also when another written object follows the cut.

## Main definitions

* `Json.Scan`, `Json.scan`: the state after a text
* `Json.Keeps`, `Json.Closes`, `Json.Flips`: how a text moves the state

## Main results

* `Json.scan_of_loads`: an accepted text is balanced
* `Json.loads_torn`: a proper prefix of an object is no JSON text
* `Json.loads_torn_append`: nor is one with a whole object after it
-/

namespace Json

/-- Outside quotes at a bracket depth, inside a quote, after a backslash in a quote, or after a
character that no JSON text has outside quotes. -/
inductive Scan
  | code (d : Int)
  | str (d : Int)
  | esc (d : Int)
  | dead
deriving DecidableEq

def scanStep : Scan → Char → Scan
  | .code d, c =>
    if c = '"' then .str d
    else if c = '\\' then .dead
    else if c = '{' ∨ c = '[' then .code (d + 1)
    else if c = '}' ∨ c = ']' then .code (d - 1)
    else .code d
  | .str d, c => if c = '"' then .code d else if c = '\\' then .esc d else .str d
  | .esc d, _ => .str d
  | .dead, _ => .dead

/-- The state after a text. -/
def scan (st : Scan) (cs : List Char) : Scan := cs.foldl scanStep st

@[simp] theorem scan_nil (st : Scan) : scan st [] = st := rfl

@[simp] theorem scan_cons (st : Scan) (c : Char) (cs : List Char) :
    scan st (c :: cs) = scan (scanStep st c) cs := rfl

@[simp] theorem scan_append (st : Scan) (s t : List Char) :
    scan st (s ++ t) = scan (scan st s) t := List.foldl_append

@[simp] theorem scan_dead (cs : List Char) : scan .dead cs = .dead := by
  induction cs with
  | nil => rfl
  | cons c cs ih => exact ih

/-- A character that neither quotes nor brackets. -/
def Plain (c : Char) : Prop :=
  c ≠ '"' ∧ c ≠ '\\' ∧ c ≠ '{' ∧ c ≠ '[' ∧ c ≠ '}' ∧ c ≠ ']'

instance (c : Char) : Decidable (Plain c) := inferInstanceAs (Decidable (_ ∧ _))

theorem scanStep_code_plain {c : Char} (h : Plain c) (d : Int) :
    scanStep (.code d) c = .code d := by
  obtain ⟨h₁, h₂, h₃, h₄, h₅, h₆⟩ := h
  simp [scanStep, h₁, h₂, h₃, h₄, h₅, h₆]

theorem scanStep_str_plain {c : Char} (h : c ≠ '"' ∧ c ≠ '\\') (d : Int) :
    scanStep (.str d) c = .str d := by
  simp [scanStep, h.1, h.2]

theorem scan_code_plain {cs : List Char} (h : ∀ c ∈ cs, Plain c) (d : Int) :
    scan (.code d) cs = .code d := by
  induction cs with
  | nil => rfl
  | cons c cs ih =>
    rw [scan_cons, scanStep_code_plain (h c List.mem_cons_self)]
    exact ih fun x hx => h x (List.mem_cons_of_mem _ hx)

theorem scan_str_plain {cs : List Char} (h : ∀ c ∈ cs, c ≠ '"' ∧ c ≠ '\\') (d : Int) :
    scan (.str d) cs = .str d := by
  induction cs with
  | nil => rfl
  | cons c cs ih =>
    rw [scan_cons, scanStep_str_plain (h c List.mem_cons_self)]
    exact ih fun x hx => h x (List.mem_cons_of_mem _ hx)

theorem plain_of_isDigit {c : Char} (h : c.isDigit = true) : Plain c := by
  refine ⟨?_, ?_, ?_, ?_, ?_, ?_⟩ <;> (rintro rfl; cases h)

theorem plain_of_isWs {c : Char} (h : isWs c = true) : Plain c := by
  refine ⟨?_, ?_, ?_, ?_, ?_, ?_⟩ <;> (rintro rfl; cases h)

/-! ## What the scanner accepts is balanced -/

/-- `cs` is a consumed part, over which the depth changes by `k`, followed by `r`. -/
def Consumes (k : Int) (cs r : List Char) : Prop :=
  ∃ p, cs = p ++ r ∧ ∀ d, scan (.code d) p = .code (d + k)

theorem Consumes.trans {j k : Int} {s t u : List Char} (h₁ : Consumes j s t)
    (h₂ : Consumes k t u) : Consumes (j + k) s u := by
  obtain ⟨p, rfl, hp⟩ := h₁
  obtain ⟨q, rfl, hq⟩ := h₂
  refine ⟨p ++ q, (List.append_assoc p q u).symm, fun d => ?_⟩
  rw [scan_append, hp, hq, add_assoc]

theorem Consumes.of_plain {p r : List Char} (h : ∀ c ∈ p, Plain c) : Consumes 0 (p ++ r) r :=
  ⟨p, rfl, fun d => by rw [scan_code_plain h, add_zero]⟩

theorem Consumes.char {k : Int} {c : Char} {r : List Char}
    (h : ∀ d, scanStep (.code d) c = .code (d + k)) : Consumes k (c :: r) r :=
  ⟨[c], rfl, h⟩

theorem plain_of_hexVal {c : Char} {n : ℕ} (h : hexVal c = some n) : Plain c := by
  refine ⟨?_, ?_, ?_, ?_, ?_, ?_⟩ <;> (rintro rfl; cases h)

theorem plain_of_hex4 {a b c d : Char} {u : CodePoint} (h : hex4 a b c d = some u) :
    ∀ x ∈ [a, b, c, d], Plain x := by
  unfold hex4 at h
  obtain ⟨a', ha, h⟩ := Option.bind_eq_some_iff.mp h
  obtain ⟨b', hb, h⟩ := Option.bind_eq_some_iff.mp h
  obtain ⟨c', hc, h⟩ := Option.bind_eq_some_iff.mp h
  obtain ⟨d', hd, -⟩ := Option.bind_eq_some_iff.mp h
  simp [plain_of_hexVal ha, plain_of_hexVal hb, plain_of_hexVal hc, plain_of_hexVal hd]

/-- The text up to a closing quote closes the quote. -/
theorem scanUnits_consumes (cs : List Char) {us : PyStr} {r : List Char}
    (h : scanUnits cs = some (us, r)) : ∃ p, cs = p ++ r ∧ ∀ d, scan (.str d) p = .code d := by
  fun_induction scanUnits cs generalizing us r with
  | case1 => cases h
  | case2 cs =>
    cases h
    exact ⟨['"'], rfl, fun d => rfl⟩
  | case3 => cases h
  | case4 a b c d cs u us' r' hcs hu _ ih =>
    cases h
    obtain ⟨p, rfl, hp⟩ := ih hcs
    have hx := plain_of_hex4 hu
    refine ⟨'\\' :: 'u' :: ([a, b, c, d] ++ p), rfl, fun k => ?_⟩
    rw [scan_cons, scan_cons, scan_append]
    have hq : scan (.str k) [a, b, c, d] = .str k :=
      scan_str_plain (fun x hm => ⟨(hx x hm).1, (hx x hm).2.1⟩) k
    exact (congrArg (scan · p) hq).trans (hp k)
  | case5 => cases h
  | case6 => cases h
  | case7 e cs _ u us' r' hcs _ _ ih =>
    cases h
    obtain ⟨p, rfl, hp⟩ := ih hcs
    exact ⟨'\\' :: e :: p, rfl, fun k => hp k⟩
  | case8 => cases h
  | case9 => cases h
  | case10 c cs hq hb _ us' r' hcs ih =>
    cases h
    obtain ⟨p, rfl, hp⟩ := ih hcs
    refine ⟨c :: p, rfl, fun k => ?_⟩
    rw [scan_cons, scanStep_str_plain ⟨hq, hb⟩, hp k]
  | case11 => cases h

theorem scanString_consumes {cs r : List Char} {s : PyStr} (h : scanString cs = some (s, r)) :
    Consumes 0 ('"' :: cs) r := by
  obtain ⟨p, hp, e⟩ := Option.map_eq_some_iff.mp h
  have hs : scanUnits cs = some (p.1, p.2) := hp
  obtain ⟨q, rfl, hq⟩ := scanUnits_consumes cs hs
  cases e
  exact ⟨'"' :: q, rfl, fun d => by rw [add_zero, scan_cons]; exact hq d⟩

/-- `cs` is a part whose characters satisfy `P`, followed by `r`. -/
def Skips (P : Char → Prop) (cs r : List Char) : Prop := ∃ p, cs = p ++ r ∧ ∀ c ∈ p, P c

section Skips

variable {P : Char → Prop}

theorem Skips.refl (cs : List Char) : Skips P cs cs := ⟨[], rfl, by simp⟩

theorem Skips.trans {s t u : List Char} (h₁ : Skips P s t) (h₂ : Skips P t u) : Skips P s u := by
  obtain ⟨p, rfl, hp⟩ := h₁
  obtain ⟨q, rfl, hq⟩ := h₂
  refine ⟨p ++ q, (List.append_assoc p q u).symm, fun c hc => ?_⟩
  rcases List.mem_append.mp hc with hc | hc
  · exact hp c hc
  · exact hq c hc

theorem Skips.char {c : Char} (h : P c) (r : List Char) : Skips P (c :: r) r :=
  ⟨[c], rfl, by simpa using h⟩

theorem skips_dropWhile {f : Char → Bool} (h : ∀ c, f c = true → P c) (cs : List Char) :
    Skips P cs (cs.dropWhile f) :=
  ⟨cs.takeWhile f, List.takeWhile_append_dropWhile.symm, fun c hc => h c (List.mem_takeWhile_imp hc)⟩

end Skips

theorem Skips.consumes {cs r : List Char} (h : Skips Plain cs r) : Consumes 0 cs r := by
  obtain ⟨p, rfl, hp⟩ := h
  exact Consumes.of_plain hp

theorem consumes_skipWs (cs : List Char) : Consumes 0 cs (skipWs cs) :=
  (skips_dropWhile (fun _ => plain_of_isWs) cs).consumes

/-- An opening bracket, and the white space after it. -/
theorem Consumes.opening {c : Char} (r : List Char) (h : c = '{' ∨ c = '[') :
    Consumes 1 (c :: r) (skipWs r) := by
  have hopen : Consumes 1 (c :: r) r := Consumes.char fun d => by rcases h with rfl | rfl <;> rfl
  exact hopen.trans (consumes_skipWs r)

/-- A closing bracket. -/
theorem Consumes.closing {c : Char} (r : List Char) (h : c = '}' ∨ c = ']') :
    Consumes (-1) (c :: r) r := by
  apply Consumes.char
  intro d
  rcases h with rfl | rfl <;> rfl

/-- A comma or a colon, and the white space after it. -/
theorem Consumes.separator {c : Char} (r : List Char) (h : c = ',' ∨ c = ':') :
    Consumes 0 (c :: r) (skipWs r) := by
  have hsep : Consumes 0 (c :: r) r := Consumes.char fun d => by
    rw [add_zero]
    rcases h with rfl | rfl <;> rfl
  exact hsep.trans (consumes_skipWs r)

/-! ### Atoms -/

/-- The characters of literals and numbers. -/
def AtomChar (c : Char) : Prop := c.isDigit = true ∨ c ∈ "+-.eENIfailnrstuy".toList

instance (c : Char) : Decidable (AtomChar c) := inferInstanceAs (Decidable (_ ∨ _))

theorem AtomChar.plain {c : Char} (h : AtomChar c) : Plain c := by
  rcases h with h | h
  · exact plain_of_isDigit h
  · revert c
    simp [Plain]

theorem skips_digits (cs : List Char) : Skips AtomChar cs (cs.dropWhile Char.isDigit) :=
  skips_dropWhile (fun _ => Or.inl) cs

theorem scanWhole_skips {cs ds r : List Char} (h : scanWhole cs = some (ds, r)) :
    Skips AtomChar cs r := by
  cases cs with
  | nil => cases h
  | cons c cs =>
    rw [scanWhole] at h
    split at h
    · rename_i h0
      cases h
      exact Skips.char (by rw [h0]; decide) _
    split at h
    · rename_i hc
      cases h
      exact (Skips.char (Or.inl hc) cs).trans (skips_digits cs)
    · cases h

theorem scanFraction_skips (cs : List Char) : Skips AtomChar cs (scanFraction cs).2 := by
  unfold scanFraction
  split
  · rename_i d ds
    split
    · rename_i hd
      exact ((Skips.char (by decide) _).trans (Skips.char (Or.inl hd) _)).trans (skips_digits ds)
    · exact Skips.refl _
  · exact Skips.refl _

theorem scanSign_skips (cs : List Char) : Skips AtomChar cs (scanSign cs).2 := by
  unfold scanSign
  split
  · exact Skips.char (by decide) _
  · exact Skips.char (by decide) _
  · exact Skips.refl _

theorem scanExponent_skips (cs : List Char) : Skips AtomChar cs (scanExponent cs).2 := by
  cases cs with
  | nil => exact Skips.refl _
  | cons e cs =>
    rw [scanExponent]
    split
    · rename_i he
      have he' : AtomChar e := by rcases he with rfl | rfl <;> decide
      have hs := (Skips.char he' cs).trans (scanSign_skips cs)
      split
      · rename_i d ds hd
        split
        · rename_i hdig
          rw [hd] at hs
          exact (hs.trans (Skips.char (Or.inl hdig) ds)).trans (skips_digits ds)
        · exact Skips.refl _
      · exact Skips.refl _
    · exact Skips.refl _

theorem scanUnsigned_skips {neg : Bool} {cs r : List Char} {v : Json}
    (h : scanUnsigned neg cs = some (v, r)) : Skips AtomChar cs r := by
  unfold scanUnsigned at h
  split at h
  · cases h
  · rename_i ds t hw
    have hr : r = (scanExponent (scanFraction t).2).2 := by
      dsimp only at h
      by_cases hc : (scanFraction t).1 = [] ∧ (scanExponent (scanFraction t).2).1 = []
      · rw [if_pos hc] at h
        exact (Prod.mk.inj (Option.some.inj h)).2.symm
      · rw [if_neg hc] at h
        exact (Prod.mk.inj (Option.some.inj h)).2.symm
    rw [hr]
    exact ((scanWhole_skips hw).trans (scanFraction_skips t)).trans (scanExponent_skips _)

theorem atomChar_words : ∀ w ∈ words, ∀ c ∈ w.1, AtomChar c := by
  intro w hw
  simp only [words, String.reduceToList, List.mem_cons, List.not_mem_nil, or_false] at hw
  rcases hw with rfl | rfl | rfl | rfl | rfl | rfl <;> simp [AtomChar]

/-- An atom has neither quotes nor brackets. -/
theorem scanAtom_skips {cs r : List Char} {v : Json} (h : scanAtom cs = some (v, r)) :
    Skips AtomChar cs r := by
  unfold scanAtom at h
  split at h
  · rename_i q hq
    cases h
    obtain ⟨w, hw, hx⟩ := List.exists_of_findSome?_eq_some hq
    obtain ⟨t, ht, e⟩ := Option.map_eq_some_iff.mp hx
    cases e
    unfold expect at ht
    split at ht
    · rename_i hp
      cases ht
      obtain ⟨t, rfl⟩ := List.isPrefixOf_iff_prefix.mp hp
      rw [List.drop_left]
      exact ⟨w.1, rfl, atomChar_words w hw⟩
    · cases ht
  · unfold scanNumber at h
    split at h
    · exact (Skips.char (by decide) _).trans (scanUnsigned_skips h)
    · exact scanUnsigned_skips h

theorem scanAtom_consumes {cs r : List Char} {v : Json} (h : scanAtom cs = some (v, r)) :
    Consumes 0 cs r := by
  obtain ⟨p, rfl, hp⟩ := scanAtom_skips h
  exact Consumes.of_plain fun c hc => (hp c hc).plain

/-! ### Values -/

section Loops

variable {f : List Char → Option (Json × List Char)}
  (hf : ∀ cs v r, f cs = some (v, r) → Consumes 0 cs r)

include hf

theorem scanItems_consumes (m : ℕ) :
    ∀ cs xs r, scanItems f m cs = some (xs, r) → Consumes (-1) cs r := by
  induction m with
  | zero => intro cs xs r h; cases h
  | succ m ih =>
    intro cs xs r h
    rw [scanItems] at h
    split at h
    · cases h
    rename_i v t hv
    have hw := (hf cs v t hv).trans (consumes_skipWs t)
    split at h
    · rename_i r' e
      cases h
      rw [e] at hw
      exact hw.trans (.closing _ (.inr rfl))
    · rename_i r' e
      obtain ⟨p, hp, e'⟩ := Option.map_eq_some_iff.mp h
      cases e'
      rw [e] at hw
      exact (hw.trans (.separator r' (.inl rfl))).trans (ih _ p.1 p.2 hp)
    · cases h

theorem scanMembers_consumes (m : ℕ) :
    ∀ cs kvs r, scanMembers f m cs = some (kvs, r) → Consumes (-1) cs r := by
  induction m with
  | zero => intro cs kvs r h; cases h
  | succ m ih =>
    intro cs kvs r h
    rw [scanMembers.eq_def] at h
    dsimp only at h
    split at h
    · rename_i cs
      split at h
      · cases h
      rename_i k t hk
      have hw := (scanString_consumes hk).trans (consumes_skipWs t)
      split at h
      · rename_i t' e
        rw [e] at hw
        have hw' := hw.trans (.separator t' (.inr rfl))
        split at h
        · cases h
        rename_i v u hv
        have hw'' := (hw'.trans (hf _ v u hv)).trans (consumes_skipWs u)
        split at h
        · rename_i r' e'
          cases h
          rw [e'] at hw''
          exact hw''.trans (.closing _ (.inl rfl))
        · rename_i r' e'
          obtain ⟨p, hp, e''⟩ := Option.map_eq_some_iff.mp h
          cases e''
          rw [e'] at hw''
          exact (hw''.trans (.separator r' (.inl rfl))).trans (ih _ p.1 p.2 hp)
        · cases h
      · cases h
    · cases h

end Loops

/-- A scanned value is balanced. -/
theorem scanOnce_consumes (n : ℕ) :
    ∀ cs v r, scanOnce n cs = some (v, r) → Consumes 0 cs r := by
  induction n with
  | zero => intro cs v r h; cases h
  | succ n ih =>
    intro cs v r h
    rw [scanOnce.eq_def] at h
    simp only at h
    split at h
    · cases h
    rename_i c t
    split at h
    · rename_i hc
      obtain ⟨p, hp, e⟩ := Option.map_eq_some_iff.mp h
      cases e
      exact hc ▸ scanString_consumes hp
    split at h
    · rename_i hc
      have ho := Consumes.opening t (.inl hc)
      split at h
      · rename_i hb
        cases h
        rw [List.head?_eq_some_iff] at hb
        obtain ⟨u, hu⟩ := hb
        rw [hu] at ho ⊢
        exact ho.trans (.closing u (.inl rfl))
      · obtain ⟨p, hp, e⟩ := Option.map_eq_some_iff.mp h
        cases e
        exact ho.trans (scanMembers_consumes ih _ _ _ _ hp)
    split at h
    · rename_i hc
      have ho := Consumes.opening t (.inr hc)
      split at h
      · rename_i hb
        cases h
        rw [List.head?_eq_some_iff] at hb
        obtain ⟨u, hu⟩ := hb
        rw [hu] at ho ⊢
        exact ho.trans (.closing u (.inr rfl))
      · obtain ⟨p, hp, e⟩ := Option.map_eq_some_iff.mp h
        cases e
        exact ho.trans (scanItems_consumes ih _ _ _ _ hp)
    · exact scanAtom_consumes h

/-- **An accepted text is balanced.** -/
theorem scan_of_loads {cs : List Char} {v : Json} (h : loads cs = some v) (d : Int) :
    scan (.code d) cs = .code d := by
  unfold loads at h
  split at h
  · rename_i w r hs
    split at h
    · rename_i hr
      obtain ⟨p, hp, hd⟩ := (((consumes_skipWs cs).trans (scanOnce_consumes _ _ _ _ hs)).trans
        (consumes_skipWs r))
      rw [hr, List.append_nil] at hp
      rw [hp, hd]
      simp
    · cases h
  · cases h

/-! ## What the writer writes -/

/-- At least at depth `d` outside quotes, or inside a quote. -/
def Above (d : Int) : Scan → Prop
  | .code k => d ≤ k
  | .str _ | .esc _ => True
  | .dead => False

/-- The text is balanced, and none of its prefixes goes below the depth it starts from. -/
def Keeps (s : List Char) : Prop :=
  ∀ d, scan (.code d) s = .code d ∧ ∀ p, p <+: s → Above d (scan (.code d) p)

/-- The text closes one bracket, with its last character. -/
def Closes (s : List Char) : Prop :=
  ∀ d, scan (.code (d + 1)) s = .code d ∧
    ∀ p, p <+: s → p ≠ s → Above (d + 1) (scan (.code (d + 1)) p)

theorem prefix_append_cases {α : Type*} {p s t : List α} (h : p <+: s ++ t) :
    p <+: s ∨ ∃ q, p = s ++ q ∧ q <+: t := by
  rcases List.prefix_or_prefix_of_prefix h (List.prefix_append s t) with hp | ⟨q, rfl⟩
  · exact Or.inl hp
  · exact Or.inr ⟨q, rfl, (List.prefix_append_right_inj s).mp h⟩

theorem prefix_singleton {α : Type*} {p : List α} {c : α} (h : p <+: [c]) : p = [] ∨ p = [c] := by
  rcases List.prefix_cons_iff.mp h with rfl | ⟨q, rfl, hq⟩
  · exact Or.inl rfl
  · exact Or.inr (by rw [List.prefix_nil.mp hq])

theorem Keeps.append {s t : List Char} (hs : Keeps s) (ht : Keeps t) : Keeps (s ++ t) := by
  intro d
  refine ⟨by rw [scan_append, (hs d).1, (ht d).1], fun p hp => ?_⟩
  rcases prefix_append_cases hp with hp | ⟨q, rfl, hq⟩
  · exact (hs d).2 p hp
  · rw [scan_append, (hs d).1]
    exact (ht d).2 q hq

theorem Keeps.closes {s t : List Char} (hs : Keeps s) (ht : Closes t) : Closes (s ++ t) := by
  intro d
  refine ⟨by rw [scan_append, (hs (d + 1)).1, (ht d).1], fun p hp hne => ?_⟩
  rcases prefix_append_cases hp with hp | ⟨q, rfl, hq⟩
  · exact (hs (d + 1)).2 p hp
  · rw [scan_append, (hs (d + 1)).1]
    exact (ht d).2 q hq fun e => hne (by rw [e])

theorem Keeps.of_plain {s : List Char} (h : ∀ c ∈ s, Plain c) : Keeps s := by
  intro d
  refine ⟨scan_code_plain h d, fun p hp => ?_⟩
  rw [scan_code_plain fun c hc => h c (hp.subset hc)]
  exact le_refl d

theorem Closes.bracket {c : Char} (h : c = '}' ∨ c = ']') : Closes [c] := by
  intro d
  refine ⟨?_, fun p hp hne => ?_⟩
  · rcases h with rfl | rfl <;> exact congrArg Scan.code (by ring)
  · rcases prefix_singleton hp with rfl | rfl
    · exact le_refl _
    · exact absurd rfl hne

/-- An opening bracket and the text that closes it. -/
theorem Closes.keeps {c : Char} {s : List Char} (hc : c = '{' ∨ c = '[') (h : Closes s) :
    Keeps (c :: s) := by
  intro d
  have hstep : scanStep (.code d) c = .code (d + 1) := by rcases hc with rfl | rfl <;> rfl
  refine ⟨by rw [scan_cons, hstep, (h d).1], fun p hp => ?_⟩
  rcases List.prefix_cons_iff.mp hp with rfl | ⟨q, rfl, hq⟩
  · exact le_refl d
  · rw [scan_cons, hstep]
    by_cases e : q = s
    · rw [e, (h d).1]
      exact le_refl d
    · have ha := (h d).2 q hq e
      cases hs : scan (.code (d + 1)) q with
      | code k =>
        rw [hs] at ha
        exact le_trans (by omega) ha
      | str k => trivial
      | esc k => trivial
      | dead => rw [hs] at ha; exact ha

/-- From inside a quote the text leaves a quote open, or breaks. -/
def Flips (s : List Char) : Prop :=
  ∀ d, scan (.str d) s = .dead ∨ ∃ k, scan (.str d) s = .str k

theorem Flips.append {s t : List Char} (hs : Flips s) (ht : Flips t) : Flips (s ++ t) := by
  intro d
  rw [scan_append]
  rcases hs d with h | ⟨k, h⟩
  · exact Or.inl (by rw [h, scan_dead])
  · rw [h]
    exact ht k

theorem Flips.of_unquoted {s : List Char} (h : ∀ c ∈ s, c ≠ '"' ∧ c ≠ '\\') : Flips s :=
  fun d => Or.inr ⟨d, scan_str_plain h d⟩

/-- The characters of one escaped code unit: a backslash first, or one character that is neither
quote nor backslash. -/
theorem escapeUnit_cases (u : CodePoint) :
    (∃ e t, escapeUnit u = '\\' :: e :: t ∧ ∀ c ∈ t, Plain c) ∨
      ∃ c, escapeUnit u = [c] ∧ c ≠ '"' ∧ c ≠ '\\' := by
  have hhex (n : ℕ) : Plain (n % 16).digitChar := by
    have h : ∀ k < 16, Plain k.digitChar := by decide
    exact h _ (Nat.mod_lt _ (by decide))
  unfold escapeUnit
  iterate 7
    split
    · exact Or.inl ⟨_, _, rfl, by simp⟩
  split
  · rename_i hq hb _ _ _ _ _ hp
    refine Or.inr ⟨_, rfl, ?_, ?_⟩ <;> intro e
    · have := congrArg Char.toNat e
      rw [Char.toNat_ofNat, if_pos (Or.inl (by omega))] at this
      exact hq this
    · have := congrArg Char.toNat e
      rw [Char.toNat_ofNat, if_pos (Or.inl (by omega))] at this
      exact hb this
  · exact Or.inl ⟨_, _, rfl, by simp [hhex]⟩

/-- Inside a quote, the text of a code unit never ends the quote. -/
theorem scan_str_escapeUnit (u : CodePoint) (d : Int) :
    scan (.str d) (escapeUnit u) = .str d ∧
      ∀ p, p <+: escapeUnit u → scan (.str d) p = .str d ∨ scan (.str d) p = .esc d := by
  rcases escapeUnit_cases u with ⟨e, t, he, ht⟩ | ⟨c, he, hc⟩
  · -- an escape, whose second character is not read as code
    have hs (q : List Char) (hq : q <+: t) : scan (.str d) ('\\' :: e :: q) = .str d :=
      scan_str_plain (fun x hx => ⟨(ht x (hq.subset hx)).1, (ht x (hq.subset hx)).2.1⟩) d
    rw [he]
    refine ⟨hs t List.prefix_rfl, fun p hp => ?_⟩
    rcases List.prefix_cons_iff.mp hp with rfl | ⟨p', rfl, hp'⟩
    · exact Or.inl rfl
    rcases List.prefix_cons_iff.mp hp' with rfl | ⟨q, rfl, hq⟩
    · exact Or.inr rfl
    · exact Or.inl (hs q hq)
  · rw [he]
    have hs : scan (.str d) [c] = .str d := scanStep_str_plain hc d
    refine ⟨hs, fun p hp => ?_⟩
    rcases prefix_singleton hp with rfl | rfl
    · exact Or.inl rfl
    · exact Or.inl hs

/-- Inside a quote, the text of a string never ends the quote. -/
theorem scan_str_escape (us : PyStr) (d : Int) :
    scan (.str d) (us.flatMap escapeUnit) = .str d ∧
      ∀ p, p <+: us.flatMap escapeUnit →
        scan (.str d) p = .str d ∨ scan (.str d) p = .esc d := by
  induction us with
  | nil =>
    refine ⟨rfl, fun p hp => ?_⟩
    rw [List.flatMap_nil, List.prefix_nil] at hp
    exact Or.inl (by rw [hp]; rfl)
  | cons u us ih =>
    have hu := scan_str_escapeUnit u d
    rw [List.flatMap_cons]
    refine ⟨by rw [scan_append, hu.1, ih.1], fun p hp => ?_⟩
    rcases prefix_append_cases hp with hp | ⟨q, rfl, hq⟩
    · exact hu.2 p hp
    · rw [scan_append, hu.1]
      exact ih.2 q hq

theorem keeps_dumpsStr (s : PyStr) : Keeps (dumpsStr s) := by
  intro d
  have hs := scan_str_escape (s.flatMap CodePoint.units) d
  have hq : scanStep (.code d) '"' = .str d := rfl
  refine ⟨by rw [dumpsStr, scan_cons, hq, scan_append, hs.1]; rfl, fun p hp => ?_⟩
  rw [dumpsStr] at hp
  rcases List.prefix_cons_iff.mp hp with rfl | ⟨p', rfl, hp'⟩
  · exact le_refl d
  · rw [scan_cons, hq]
    rcases prefix_append_cases hp' with hp | ⟨q, rfl, hq'⟩
    · rcases hs.2 p' hp with h | h <;> rw [h] <;> trivial
    · rw [scan_append, hs.1]
      rcases prefix_singleton hq' with rfl | rfl
      · trivial
      · exact le_refl d

/-- Outside quotes, the text of a string opens no quote. -/
theorem scan_code_escape (us : PyStr) (d : Int) :
    scan (.code d) (us.flatMap escapeUnit) = .dead ∨
      ∃ k, scan (.code d) (us.flatMap escapeUnit) = .code k := by
  induction us generalizing d with
  | nil => exact Or.inr ⟨d, rfl⟩
  | cons u us ih =>
    rw [List.flatMap_cons, scan_append]
    rcases escapeUnit_cases u with ⟨e, t, he, -⟩ | ⟨c, he, hc⟩
    · left
      have hd : scanStep (.code d) '\\' = .dead := rfl
      rw [he, scan_cons, hd, scan_dead, scan_dead]
    · have hk : ∃ k, scan (.code d) (escapeUnit u) = .code k := by
        rw [he, scan_cons, scan_nil]
        simp only [scanStep, hc.1, hc.2, if_false]
        split_ifs <;> exact ⟨_, rfl⟩
      obtain ⟨k, hk⟩ := hk
      rw [hk]
      exact ih k

theorem flips_dumpsStr (s : PyStr) : Flips (dumpsStr s) := by
  intro d
  have hq : scanStep (.str d) '"' = .code d := rfl
  rw [dumpsStr, scan_cons, hq, scan_append]
  rcases scan_code_escape (s.flatMap CodePoint.units) d with h | ⟨k, h⟩
  · exact Or.inl (by rw [h, scan_dead])
  · exact Or.inr ⟨k, by rw [h]; rfl⟩

theorem atomChar_of_scanAtom {s : List Char} {v : Json} (h : scanAtom s = some (v, [])) :
    ∀ c ∈ s, AtomChar c := by
  obtain ⟨p, hp, hc⟩ := scanAtom_skips h
  rw [hp, List.append_nil]
  exact hc

/-- A value that is no string, array or object is written without quotes and brackets. -/
theorem atomChar_null (l : Layout) : ∀ c ∈ dumps l .null, AtomChar c := by
  simp [dumps, AtomChar]

theorem atomChar_bool (l : Layout) (b : Bool) : ∀ c ∈ dumps l (.bool b), AtomChar c := by
  cases b <;> simp [dumps, AtomChar]

theorem atomChar_int (l : Layout) (i : Int) : ∀ c ∈ dumps l (.int i), AtomChar c := by
  rw [dumps]
  exact atomChar_of_scanAtom (scanAtom_dumpsInt i)

theorem atomChar_float (l : Layout) {lit : List Char} (h : (Json.float lit).Valid) :
    ∀ c ∈ dumps l (.float lit), AtomChar c := by
  rw [dumps]
  exact atomChar_of_scanAtom (v := .float lit) (by simpa [Valid, isValid] using h)

theorem Keeps.of_atom {s : List Char} (h : ∀ c ∈ s, AtomChar c) : Keeps s :=
  Keeps.of_plain fun c hc => (h c hc).plain

theorem plain_pad (l : Layout) : ∀ c ∈ l.pad, Plain c := by
  cases l <;> simp [Layout.pad, Plain]

theorem plain_sep (l : Layout) {c : Char} (h : Plain c) : ∀ x ∈ c :: l.pad, Plain x := by
  intro x hx
  rcases List.mem_cons.mp hx with rfl | hx
  · exact h
  · exact plain_pad l x hx

mutual

/-- A written value is balanced. -/
theorem keeps_dumps (l : Layout) : ∀ v : Json, v.Valid → Keeps (dumps l v)
  | .null, _ => Keeps.of_atom (atomChar_null l)
  | .bool b, _ => Keeps.of_atom (atomChar_bool l b)
  | .int i, _ => Keeps.of_atom (atomChar_int l i)
  | .float lit, h => Keeps.of_atom (atomChar_float l h)
  | .str s, h => by rw [dumps]; exact keeps_dumpsStr s
  | .arr [], h => by rw [dumps]; exact (Closes.bracket (Or.inr rfl)).keeps (Or.inr rfl)
  | .arr (x :: xs), h => by
    have hv := valid_arr_cons.mp h
    rw [dumps]
    exact ((keeps_dumps l x hv.1).closes (closes_dumpsItems l xs hv.2)).keeps (Or.inr rfl)
  | .obj [], h => by rw [dumps]; exact (Closes.bracket (Or.inl rfl)).keeps (Or.inl rfl)
  | .obj ((k, v) :: kvs), h => by
    obtain ⟨-, hv, hkvs⟩ := isValidMembers_cons.mp (valid_obj.mp h).2
    rw [dumps]
    exact ((((keeps_dumpsStr k).append (Keeps.of_plain (plain_sep l (by decide)))).append
      (keeps_dumps l v hv)).closes (closes_dumpsMembers l kvs hkvs)).keeps (Or.inl rfl)

theorem closes_dumpsItems (l : Layout) :
    ∀ xs : List Json, isValidItems xs = true → Closes (dumpsItems l xs)
  | [], h => by rw [dumpsItems]; exact Closes.bracket (Or.inr rfl)
  | x :: xs, h => by
    have hv := isValidItems_cons.mp h
    rw [dumpsItems]
    exact ((Keeps.of_plain (plain_sep l (by decide))).append (keeps_dumps l x hv.1)).closes
      (closes_dumpsItems l xs hv.2)

theorem closes_dumpsMembers (l : Layout) :
    ∀ kvs : List (PyStr × Json), isValidMembers kvs = true → Closes (dumpsMembers l kvs)
  | [], h => by rw [dumpsMembers]; exact Closes.bracket (Or.inl rfl)
  | (k, v) :: kvs, h => by
    obtain ⟨-, hv, hkvs⟩ := isValidMembers_cons.mp h
    rw [dumpsMembers]
    exact ((((Keeps.of_plain (plain_sep l (by decide))).append (keeps_dumpsStr k)).append
      (Keeps.of_plain (plain_sep l (by decide)))).append (keeps_dumps l v hv)).closes
        (closes_dumpsMembers l kvs hkvs)

end

theorem Flips.of_plain {s : List Char} (h : ∀ c ∈ s, Plain c) : Flips s :=
  Flips.of_unquoted fun c hc => ⟨(h c hc).1, (h c hc).2.1⟩

theorem Flips.of_atom {s : List Char} (h : ∀ c ∈ s, AtomChar c) : Flips s :=
  Flips.of_plain fun c hc => (h c hc).plain

theorem Flips.cons {c : Char} {s : List Char} (hc : c ≠ '"' ∧ c ≠ '\\') (h : Flips s) :
    Flips (c :: s) := by
  intro d
  rw [scan_cons, scanStep_str_plain hc]
  exact h d

mutual

/-- From inside a quote, a written value leaves a quote open. -/
theorem flips_dumps (l : Layout) : ∀ v : Json, v.Valid → Flips (dumps l v)
  | .null, _ => Flips.of_atom (atomChar_null l)
  | .bool b, _ => Flips.of_atom (atomChar_bool l b)
  | .int i, _ => Flips.of_atom (atomChar_int l i)
  | .float lit, h => Flips.of_atom (atomChar_float l h)
  | .str s, _ => by rw [dumps]; exact flips_dumpsStr s
  | .arr [], _ => by rw [dumps]; exact Flips.of_unquoted (by simp)
  | .arr (x :: xs), h => by
    have hv := valid_arr_cons.mp h
    rw [dumps]
    exact ((flips_dumps l x hv.1).append (flips_dumpsItems l xs hv.2)).cons (by decide)
  | .obj [], _ => by rw [dumps]; exact Flips.of_unquoted (by simp)
  | .obj ((k, v) :: kvs), h => by
    obtain ⟨-, hv, hkvs⟩ := isValidMembers_cons.mp (valid_obj.mp h).2
    rw [dumps]
    exact ((((flips_dumpsStr k).append (Flips.of_plain (plain_sep l (by decide)))).append
      (flips_dumps l v hv)).append (flips_dumpsMembers l kvs hkvs)).cons (by decide)

theorem flips_dumpsItems (l : Layout) :
    ∀ xs : List Json, isValidItems xs = true → Flips (dumpsItems l xs)
  | [], _ => by rw [dumpsItems]; exact Flips.of_unquoted (by simp)
  | x :: xs, h => by
    have hv := isValidItems_cons.mp h
    rw [dumpsItems]
    exact ((Flips.of_plain (plain_sep l (by decide))).append (flips_dumps l x hv.1)).append
      (flips_dumpsItems l xs hv.2)

theorem flips_dumpsMembers (l : Layout) :
    ∀ kvs : List (PyStr × Json), isValidMembers kvs = true → Flips (dumpsMembers l kvs)
  | [], _ => by rw [dumpsMembers]; exact Flips.of_unquoted (by simp)
  | (k, v) :: kvs, h => by
    obtain ⟨-, hv, hkvs⟩ := isValidMembers_cons.mp h
    rw [dumpsMembers]
    exact ((((Flips.of_plain (plain_sep l (by decide))).append (flips_dumpsStr k)).append
      (Flips.of_plain (plain_sep l (by decide)))).append (flips_dumps l v hv)).append
        (flips_dumpsMembers l kvs hkvs)

end

/-! ## Objects that are cut off -/

theorem closes_dumps_obj (l : Layout) {kvs : List (PyStr × Json)} (h : (obj kvs).Valid) :
    ∃ t, dumps l (.obj kvs) = '{' :: t ∧ Closes t := by
  cases kvs with
  | nil => exact ⟨_, by rw [dumps], Closes.bracket (Or.inl rfl)⟩
  | cons p kvs =>
    obtain ⟨k, v⟩ := p
    obtain ⟨-, hv, hkvs⟩ := isValidMembers_cons.mp (valid_obj.mp h).2
    refine ⟨_, by rw [dumps], ?_⟩
    exact (((keeps_dumpsStr k).append (Keeps.of_plain (plain_sep l (by decide)))).append
      (keeps_dumps l v hv)).closes (closes_dumpsMembers l kvs hkvs)

theorem not_above_zero : ¬ Above 1 (.code 0) := fun h => absurd h (by decide : ¬ (1 : Int) ≤ 0)

/-- After a proper part of an object, a brace is open. -/
theorem above_of_torn (l : Layout) {kvs : List (PyStr × Json)} (h : (obj kvs).Valid)
    {p : List Char} (hp : p <+: dumps l (.obj kvs)) (hne : p ≠ dumps l (.obj kvs))
    (h0 : p ≠ []) : Above 1 (scan (.code 0) p) := by
  obtain ⟨t, ht, hc⟩ := closes_dumps_obj l h
  rw [ht] at hp hne
  rcases List.prefix_cons_iff.mp hp with rfl | ⟨q, rfl, hq⟩
  · exact absurd rfl h0
  · exact (hc 0).2 q hq fun e => hne (by rw [e])

/-- **A proper prefix of an object is no JSON text.** -/
theorem loads_torn (l : Layout) {kvs : List (PyStr × Json)} (h : (obj kvs).Valid)
    {p : List Char} (hp : p <+: dumps l (.obj kvs)) (hne : p ≠ dumps l (.obj kvs))
    (h0 : p ≠ []) : loads p = none := by
  have ha := above_of_torn l h hp hne h0
  cases hl : loads p with
  | none => rfl
  | some v =>
    rw [scan_of_loads hl 0] at ha
    exact absurd ha not_above_zero

/-- **Nor is one with a whole object after it**: the brace stays open, or a quote does. -/
theorem loads_torn_append (l : Layout) {kvs kvs' : List (PyStr × Json)} (h : (obj kvs).Valid)
    (h' : (obj kvs').Valid) {p : List Char} (hp : p <+: dumps l (.obj kvs))
    (hne : p ≠ dumps l (.obj kvs)) (h0 : p ≠ []) : loads (p ++ dumps l (.obj kvs')) = none := by
  have ha := above_of_torn l h hp hne h0
  have hflip := flips_dumps l _ h'
  cases hl : loads (p ++ dumps l (.obj kvs')) with
  | none => rfl
  | some v =>
    have hb := scan_of_loads hl 0
    rw [scan_append] at hb
    cases hs : scan (.code 0) p with
    | code k =>
      rw [hs] at ha hb
      rw [(keeps_dumps l _ h' k).1] at hb
      cases hb
      exact absurd ha not_above_zero
    | str k =>
      rw [hs] at hb
      rcases hflip k with hd | ⟨j, hj⟩
      · rw [hd] at hb; cases hb
      · rw [hj] at hb; cases hb
    | esc k =>
      -- the brace after a backslash counts as quoted, so the quote is still open
      obtain ⟨t, ht, -⟩ := closes_dumps_obj l h'
      have he : scan (.esc k) (dumps l (.obj kvs')) = scan (.str k) (dumps l (.obj kvs')) := by
        rw [ht]
        rfl
      rw [hs, he] at hb
      rcases hflip k with hd | ⟨j, hj⟩
      · rw [hd] at hb; cases hb
      · rw [hj] at hb; cases hb
    | dead => rw [hs] at ha; exact absurd ha id

end Json
