import PreauthGateway.Json.Sound

/-!
# The limits of the interpreter

`json.loads` raises more than a `JSONDecodeError`. A text that nests deeper than the interpreter
recurses is a `RecursionError`, and an integer with more digits than the interpreter converts is a
`ValueError`, whether or not the rest of the text is well formed. The scanner here stops at the
first error of any kind, as Python's does; where it meets no limit it is that of `loads`.

## Main definitions

* `Json.Limits`, `Json.LoadError`: the limits, and how `json.loads` fails
* `Json.loadsWithin`: `json.loads` under limits

## Main results

* `Json.loads_of_loadsWithin`: **where no limit is met**, `loadsWithin` is `loads`
* `Json.loadsWithin_strings`: an object with one list of strings meets no limit
-/

namespace Json

/-- How deep arrays and objects may nest, and how many digits an integer may have; zero stands for
no limit on the digits. Python's own are at least these two. -/
structure Limits where
  depth : ℕ
  digits : ℕ
  two_le_depth : 2 ≤ depth

/-- `JSONDecodeError`, `RecursionError`, and the `ValueError` on an integer of so many digits. -/
inductive LoadError
  | decode
  | recursion
  | digits (n : ℕ)
deriving DecidableEq

/-- What a scanner that may meet a limit finds. -/
abbrev Scanned (α : Type) := Except LoadError (α × List Char)

/-- Nothing found is a `JSONDecodeError`. -/
def orDecode {α : Type} : Option α → Except LoadError α
  | some a => .ok a
  | none => .error .decode

/-- The number of digits of the integer at the front of `cs`, when `r` is the text after it. -/
def digitsBefore (cs r : List Char) : ℕ :=
  cs.length - r.length - if cs.head? = some '-' then 1 else 0

/-- A literal or a number; the conversion of an integer may be refused. -/
def atomWithin (digits : ℕ) (cs : List Char) : Scanned Json :=
  match scanAtom cs with
  | none => .error .decode
  | some (.int i, r) =>
    if 0 < digits ∧ digits < digitsBefore cs r then .error (.digits (digitsBefore cs r))
    else .ok (.int i, r)
  | some p => .ok p

section Loops

variable (scan : List Char → Scanned Json)

/-- `scanItems` with a scanner that may meet a limit. -/
def itemsWithin : ℕ → List Char → Scanned (List Json)
  | 0, _ => .error .decode
  | m + 1, cs =>
    match scan cs with
    | .error e => .error e
    | .ok (v, cs) =>
      match skipWs cs with
      | ']' :: r => .ok ([v], r)
      | ',' :: r => (itemsWithin m (skipWs r)).map fun p => (v :: p.1, p.2)
      | _ => .error .decode

/-- `scanMembers` with a scanner that may meet a limit. -/
def membersWithin : ℕ → List Char → Scanned (List (PyStr × Json))
  | 0, _ => .error .decode
  | m + 1, cs =>
    match cs with
    | '"' :: cs =>
      match scanString cs with
      | none => .error .decode
      | some (k, cs) =>
        match skipWs cs with
        | ':' :: cs =>
          match scan (skipWs cs) with
          | .error e => .error e
          | .ok (v, cs) =>
            match skipWs cs with
            | '}' :: r => .ok ([(k, v)], r)
            | ',' :: r => (membersWithin m (skipWs r)).map fun p => ((k, v) :: p.1, p.2)
            | _ => .error .decode
        | _ => .error .decode
    | _ => .error .decode

end Loops

/-- A value by its first character; objects and arrays are left to their scanners. -/
def valueWithin (digits : ℕ) (object array : List Char → Scanned Json) : List Char → Scanned Json
  | [] => .error .decode
  | c :: r =>
    if c = '"' then orDecode ((scanString r).map fun p => (.str p.1, p.2))
    else if c = '{' then object r
    else if c = '[' then array r
    else atomWithin digits (c :: r)

/-- `scan_once`, with room for so many nested arrays and objects. -/
def scanWithin (digits : ℕ) : ℕ → List Char → Scanned Json
  | 0 => valueWithin digits (fun _ => .error .recursion) (fun _ => .error .recursion)
  | d + 1 => valueWithin digits
    (fun r =>
      if (skipWs r).head? = some '}' then .ok (.obj [], (skipWs r).tail)
      else (membersWithin (scanWithin digits d) r.length (skipWs r)).map fun p =>
        (.obj (dictOf p.1), p.2))
    (fun r =>
      if (skipWs r).head? = some ']' then .ok (.arr [], (skipWs r).tail)
      else (itemsWithin (scanWithin digits d) r.length (skipWs r)).map fun p => (.arr p.1, p.2))

/-- `json.loads` under limits. A text nests no deeper than it is long. -/
def loadsWithin (lim : Limits) (cs : List Char) : Except LoadError Json :=
  match scanWithin lim.digits (min lim.depth cs.length) (skipWs cs) with
  | .error e => .error e
  | .ok (v, r) => if skipWs r = [] then .ok v else .error .decode

/-! ## Where no limit is met -/

/-- What was found under limits is what is found without, unless a limit was met. -/
def Agrees {α : Type} (x : Except LoadError α) (y : Option α) : Prop :=
  (∀ a, x = .ok a → y = some a) ∧ (x = .error .decode → y = none)

section Agrees

variable {α β : Type} {x : Except LoadError α} {y : Option α}

theorem agrees_ok (a : α) : Agrees (.ok a) (some a) :=
  ⟨fun _ h => congrArg some (Except.ok.inj h), fun h => by injection h⟩

theorem agrees_decode : Agrees (.error .decode) (none : Option α) :=
  ⟨fun _ h => by injection h, fun _ => rfl⟩

/-- Where a limit was met, nothing is said. -/
theorem agrees_limit {e : LoadError} (h : e ≠ .decode) (y : Option α) : Agrees (.error e) y :=
  ⟨fun _ ha => by injection ha, fun hd => absurd (Except.error.inj hd) h⟩

theorem agrees_orDecode (y : Option α) : Agrees (orDecode y) y := by
  cases y with
  | none => exact agrees_decode
  | some a => exact agrees_ok a

theorem Agrees.cases (h : Agrees x y) :
    (∃ a, x = .ok a ∧ y = some a) ∨ (x = .error .decode ∧ y = none) ∨
      ∃ e, e ≠ .decode ∧ x = .error e := by
  cases x with
  | ok a => exact Or.inl ⟨a, rfl, h.1 a rfl⟩
  | error e =>
    by_cases he : e = .decode
    · subst he
      exact Or.inr (Or.inl ⟨rfl, h.2 rfl⟩)
    · exact Or.inr (Or.inr ⟨e, he, rfl⟩)

theorem Agrees.map (h : Agrees x y) (f : α → β) : Agrees (x.map f) (y.map f) := by
  rcases h.cases with ⟨a, rfl, rfl⟩ | ⟨rfl, rfl⟩ | ⟨e, he, rfl⟩
  · exact agrees_ok (f a)
  · exact agrees_decode
  · exact agrees_limit he _

end Agrees

theorem atomWithin_agrees (digits : ℕ) (cs : List Char) :
    Agrees (atomWithin digits cs) (scanAtom cs) := by
  unfold atomWithin
  split
  · rename_i h
    rw [h]
    exact agrees_decode
  · rename_i h
    rw [h]
    split
    · exact agrees_limit LoadError.noConfusion _
    · exact agrees_ok _
  · rename_i p _ h
    rw [h]
    exact agrees_ok p

section Loops

variable {f : List Char → Scanned Json} {g : List Char → Option (Json × List Char)}
  (h : ∀ cs, Agrees (f cs) (g cs))

include h

theorem itemsWithin_agrees (m : ℕ) (cs : List Char) :
    Agrees (itemsWithin f m cs) (scanItems g m cs) := by
  induction m generalizing cs with
  | zero => exact agrees_decode
  | succ m ih =>
    rw [itemsWithin, scanItems]
    rcases (h cs).cases with ⟨⟨v, t⟩, hf, hg⟩ | ⟨hf, hg⟩ | ⟨e, he, hf⟩
    · rw [hf, hg]
      dsimp only
      generalize skipWs t = u
      by_cases hbracket : ∃ r, u = ']' :: r
      · obtain ⟨r, rfl⟩ := hbracket
        exact agrees_ok _
      by_cases hcomma : ∃ r, u = ',' :: r
      · obtain ⟨r, rfl⟩ := hcomma
        exact (ih _).map _
      · rw [not_exists] at hbracket hcomma
        simp only [agrees_decode]
    · rw [hf, hg]
      exact agrees_decode
    · rw [hf]
      exact agrees_limit he _

theorem membersWithin_agrees (m : ℕ) (cs : List Char) :
    Agrees (membersWithin f m cs) (scanMembers g m cs) := by
  induction m generalizing cs with
  | zero => exact agrees_decode
  | succ m ih =>
    by_cases hquote : ∃ t, cs = '"' :: t
    · obtain ⟨cs, rfl⟩ := hquote
      rw [membersWithin, scanMembers]
      cases scanString cs with
      | none => exact agrees_decode
      | some p =>
        obtain ⟨k, t⟩ := p
        dsimp only
        generalize skipWs t = t
        by_cases hcolon : ∃ u, t = ':' :: u
        · obtain ⟨u, rfl⟩ := hcolon
          rcases (h (skipWs u)).cases with ⟨⟨v, w⟩, hf, hg⟩ | ⟨hf, hg⟩ | ⟨e, he, hf⟩
          · simp only [hf, hg]
            generalize skipWs w = w
            by_cases hbrace : ∃ r, w = '}' :: r
            · obtain ⟨r, rfl⟩ := hbrace
              exact agrees_ok _
            by_cases hcomma : ∃ r, w = ',' :: r
            · obtain ⟨r, rfl⟩ := hcomma
              exact (ih _).map _
            · rw [not_exists] at hbrace hcomma
              simp only [agrees_decode]
          · simp only [hf, hg]
            exact agrees_decode
          · simp only [hf]
            exact agrees_limit he _
        · rw [not_exists] at hcolon
          simp only [agrees_decode]
    · have hnone : ∀ t, cs = '"' :: t → False := fun t ht => hquote ⟨t, ht⟩
      rw [membersWithin, scanMembers]
      · exact agrees_decode
      · exact hnone
      · exact hnone

end Loops

/-- With more room than the nesting allowed, the scanners agree. -/
theorem scanWithin_agrees (digits : ℕ) {d n : ℕ} (hn : d < n) (cs : List Char) :
    Agrees (scanWithin digits d cs) (scanOnce n cs) := by
  induction d generalizing n cs with
  | zero =>
    obtain ⟨n, rfl⟩ := Nat.exists_eq_succ_of_ne_zero (Nat.pos_iff_ne_zero.mp hn)
    rw [scanWithin, scanOnce.eq_def]
    cases cs with
    | nil => exact agrees_decode
    | cons c r =>
      dsimp only [valueWithin]
      split
      · exact agrees_orDecode _
      -- there is no room for an object or an array
      split
      · exact agrees_limit LoadError.noConfusion _
      split
      · exact agrees_limit LoadError.noConfusion _
      · exact atomWithin_agrees digits _
  | succ d ih =>
    obtain ⟨n, rfl⟩ := Nat.exists_eq_succ_of_ne_zero (Nat.ne_of_gt (Nat.zero_lt_of_lt hn))
    have hscan : ∀ cs, Agrees (scanWithin digits d cs) (scanOnce n cs) :=
      ih (Nat.lt_of_succ_lt_succ hn)
    rw [scanWithin, scanOnce.eq_def]
    cases cs with
    | nil => exact agrees_decode
    | cons c r =>
      dsimp only [valueWithin]
      split
      · exact agrees_orDecode _
      split
      · split
        · exact agrees_ok _
        · exact (membersWithin_agrees hscan _ _).map _
      split
      · split
        · exact agrees_ok _
        · exact (itemsWithin_agrees hscan _ _).map _
      · exact atomWithin_agrees digits _

/-- **Where no limit is met**, a text is read under limits as it is without. -/
theorem loadsWithin_agrees (lim : Limits) (cs : List Char) :
    Agrees (loadsWithin lim cs) (loads cs) := by
  have hscan := scanWithin_agrees lim.digits (d := min lim.depth cs.length) (n := cs.length + 1)
    (by omega) (skipWs cs)
  unfold loadsWithin loads
  rcases hscan.cases with ⟨⟨v, r⟩, hf, hg⟩ | ⟨hf, hg⟩ | ⟨e, he, hf⟩
  · rw [hf, hg]
    dsimp only
    split
    · exact agrees_ok v
    · exact agrees_decode
  · rw [hf, hg]
    exact agrees_decode
  · rw [hf]
    exact agrees_limit he _

/-! ## A list of strings -/

section Strings

variable (digits : ℕ) (l : Layout)

theorem skipWs_dumpsStr (x : PyStr) (cs : List Char) :
    skipWs (dumpsStr x ++ cs) = dumpsStr x ++ cs := by
  rw [dumpsStr, List.cons_append, skipWs_cons rfl]

theorem scanWithin_str {x : PyStr} (hx : x.Unicode) (d : ℕ) (r : List Char) :
    scanWithin digits d (dumpsStr x ++ r) = .ok (.str x, r) := by
  have hvalue (object array : List Char → Scanned Json) :
      valueWithin digits object array (dumpsStr x ++ r) = .ok (.str x, r) := by
    rw [dumpsStr, List.cons_append, valueWithin, if_pos rfl, List.append_assoc,
      List.singleton_append, scanString_dumpsStr hx]
    rfl
  cases d with
  | zero => rw [scanWithin, hvalue]
  | succ d => rw [scanWithin, hvalue]

theorem itemsWithin_strings (d : ℕ) {x : PyStr} {xs : List PyStr} (hx : ∀ y ∈ x :: xs, y.Unicode)
    {m : ℕ} (hm : xs.length < m) (r : List Char) :
    itemsWithin (scanWithin digits d) m (dumpsStr x ++ (dumpsItems l (xs.map .str) ++ r)) =
      .ok ((x :: xs).map .str, r) := by
  induction xs generalizing x m with
  | nil =>
    obtain ⟨m, rfl⟩ := Nat.exists_eq_succ_of_ne_zero (Nat.ne_of_gt (Nat.zero_lt_of_lt hm))
    rw [itemsWithin, scanWithin_str digits (hx x List.mem_cons_self)]
    rfl
  | cons y ys ih =>
    obtain ⟨m, rfl⟩ := Nat.exists_eq_succ_of_ne_zero (Nat.ne_of_gt (Nat.zero_lt_of_lt hm))
    have hrest := ih (fun z hz => hx z (List.mem_cons_of_mem _ hz)) (Nat.lt_of_succ_lt_succ hm)
    rw [itemsWithin, scanWithin_str digits (hx x List.mem_cons_self)]
    simp only [List.map_cons, dumpsItems, dumps, List.cons_append, List.append_assoc,
      skipWs_cons (c := ',') rfl, skipWs_pad, skipWs_dumpsStr, hrest]
    rfl

theorem scanWithin_strings (d : ℕ) {xs : List PyStr} (hxs : ∀ x ∈ xs, x.Unicode) (r : List Char) :
    scanWithin digits (d + 1) (dumps l (.arr (xs.map .str)) ++ r) =
      .ok (.arr (xs.map .str), r) := by
  cases xs with
  | nil => rfl
  | cons x xs =>
    have hitems := itemsWithin_strings digits l d hxs
      (m := (dumpsStr x ++ (dumpsItems l (xs.map .str) ++ r)).length) (by
        have := length_le_dumpsItems l (xs.map .str)
        rw [List.length_map] at this
        simp only [List.length_append]
        omega) r
    have hhead : (dumpsStr x ++ (dumpsItems l (xs.map .str) ++ r)).head? ≠ some ']' := by
      simp [dumpsStr]
    rw [List.map_cons, dumps, dumps, List.cons_append, List.append_assoc, scanWithin, valueWithin,
      if_neg (by decide), if_neg (by decide), if_pos rfl, skipWs_dumpsStr, if_neg hhead, hitems]
    rfl

theorem membersWithin_strings (d : ℕ) {k : PyStr} (hk : k.Unicode) {xs : List PyStr}
    (hxs : ∀ x ∈ xs, x.Unicode) {m : ℕ} (hm : 0 < m) :
    membersWithin (scanWithin digits (d + 1)) m
      (dumpsStr k ++ (':' :: (l.pad ++ (dumps l (.arr (xs.map .str)) ++ ['}'])))) =
        .ok ([(k, .arr (xs.map .str))], []) := by
  obtain ⟨m, rfl⟩ := Nat.exists_eq_succ_of_ne_zero (Nat.ne_of_gt hm)
  have hvalid : (arr (xs.map .str)).Valid := by
    rw [Valid, isValid, isValidItems_iff]
    intro v hv
    obtain ⟨x, hx, rfl⟩ := List.mem_map.mp hv
    rw [Valid, isValid]
    exact decide_eq_true (hxs x hx)
  have hclose : skipWs ['}'] = ['}'] := rfl
  rw [dumpsStr, List.cons_append, membersWithin, List.append_assoc, List.singleton_append,
    scanString_dumpsStr hk]
  simp only [skipWs_cons (c := ':') rfl, skipWs_pad, skipWs_dumps l hvalid,
    scanWithin_strings digits l d hxs, hclose]

/-- **An object with one list of strings meets no limit.** -/
theorem loadsWithin_strings (lim : Limits) (l : Layout) {k : PyStr} (hk : k.Unicode)
    {xs : List PyStr} (hxs : ∀ x ∈ xs, x.Unicode) :
    loadsWithin lim (dumps l (.obj [(k, .arr (xs.map .str))])) =
      .ok (.obj [(k, .arr (xs.map .str))]) := by
  have htext : dumps l (.obj [(k, .arr (xs.map .str))]) =
      '{' :: (dumpsStr k ++ (':' :: (l.pad ++ (dumps l (.arr (xs.map .str)) ++ ['}'])))) := by
    simp [dumps, dumpsMembers]
  generalize hrest : dumpsStr k ++ (':' :: (l.pad ++ (dumps l (.arr (xs.map .str)) ++ ['}']))) =
    rest at htext
  have hlen : 2 ≤ rest.length := by
    rw [← hrest]
    simp [dumpsStr]
    omega
  obtain ⟨d, hd⟩ : ∃ d, min lim.depth ('{' :: rest).length = d + 2 := by
    have := lim.two_le_depth
    exact ⟨min lim.depth ('{' :: rest).length - 2, by rw [List.length_cons]; omega⟩
  have hhead : rest.head? ≠ some '}' := by
    rw [← hrest]
    simp [dumpsStr]
  have hskip : skipWs rest = rest := by rw [← hrest, skipWs_dumpsStr]
  have hmembers := membersWithin_strings lim.digits l d hk hxs (m := rest.length) (by omega)
  rw [hrest] at hmembers
  rw [htext, loadsWithin, hd, skipWs_cons rfl, scanWithin, valueWithin, if_neg (by decide),
    if_pos rfl, hskip, if_neg hhead, hmembers]
  rfl

end Strings

end Json
