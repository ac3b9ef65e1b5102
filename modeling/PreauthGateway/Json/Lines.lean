import PreauthGateway.Json.Balance
import PreauthGateway.Text.Lines

/-!
# Logs of JSON lines

A log holds one object per line, in the compact layout. The reader splits the text into lines,
strips each, skips blank ones and counts those that are no JSON. Written text is printable ASCII, so
no written object is split or stripped, and a log cut at any byte is some whole lines and the front
of one more object.

## Main definitions

* `Json.line`, `Json.logText`, `Json.logBytes`: a line, and the text and the bytes of a log
* `Json.readLines`, `Json.readLog`: the reader
* `Json.Cut`: the front of the object after some whole lines

## Main results

* `Json.dumps_printable`: a written value is printable ASCII
* `Json.readLog_logBytes`: **reading undoes writing**
* `Json.exists_cut`: what a prefix of a log is
* `Json.readLog_torn`, `Json.readLog_whole`: reading a log that is cut off
* `Json.readLog_torn_append`, `Json.readLog_whole_append`: reading one to which lines were added
-/

namespace Json

/-! ## Written text is printable -/

/-- A printable ASCII character. -/
def Printable (c : Char) : Prop := 0x20 ≤ c.toNat ∧ c.toNat < 0x7F

instance (c : Char) : Decidable (Printable c) := inferInstanceAs (Decidable (_ ∧ _))

theorem Printable.isAscii {c : Char} (h : Printable c) : Utf8.IsAscii c :=
  Nat.lt_trans h.2 (by decide)

theorem Printable.not_isLineBreak {c : Char} (h : Printable c) : isLineBreak c = false := by
  obtain ⟨h₁, h₂⟩ := h
  simp only [isLineBreak, List.mem_cons, List.not_mem_nil, or_false, decide_eq_false_iff_not]
  omega

theorem AtomChar.printable {c : Char} (h : AtomChar c) : Printable c := by
  rcases h with h | h
  · have hd : '0'.val ≤ c.val ∧ c.val ≤ '9'.val := by
      simpa [Char.isDigit, Bool.and_eq_true, decide_eq_true_eq] using h
    have h₁ : '0'.toNat ≤ c.toNat := UInt32.le_iff_toNat_le.mp hd.1
    have h₂ : c.toNat ≤ '9'.toNat := UInt32.le_iff_toNat_le.mp hd.2
    exact ⟨Nat.le_trans (by decide) h₁, Nat.lt_of_le_of_lt h₂ (by decide)⟩
  · revert c
    simp [Printable]

theorem printable_digitChar : ∀ d, d < 16 → Printable (Nat.digitChar d) := by decide

theorem printable_escapeUnit (u : CodePoint) : ∀ c ∈ escapeUnit u, Printable c := by
  unfold escapeUnit
  split_ifs with h₁ h₂ h₃ h₄ h₅ h₆ h₇ h
  iterate 7 simp [Printable]
  · have hv : u.val.isValidChar := Or.inl (by omega)
    simp only [List.mem_singleton, forall_eq, Printable, Char.toNat_ofNat, hv, if_true]
    omega
  · simp only [uEscape, List.mem_cons, List.not_mem_nil, or_false]
    rintro c (rfl | rfl | rfl | rfl | rfl | rfl)
    · decide
    · decide
    all_goals exact printable_digitChar _ (Nat.mod_lt _ (by decide))

theorem printable_dumpsStr (s : PyStr) : ∀ c ∈ dumpsStr s, Printable c := by
  intro c hc
  rcases List.mem_cons.mp hc with rfl | hc
  · decide
  rcases List.mem_append.mp hc with hc | hc
  · obtain ⟨u, -, hu⟩ := List.mem_flatMap.mp hc
    exact printable_escapeUnit u c hu
  · rw [List.mem_singleton.mp hc]
    decide

theorem printable_pad (l : Layout) : ∀ c ∈ l.pad, Printable c := by
  cases l <;> simp [Layout.pad, Printable]

section Append

variable {s t : List Char} {c : Char}

theorem printable_append (hs : ∀ c ∈ s, Printable c) (ht : ∀ c ∈ t, Printable c) :
    ∀ c ∈ s ++ t, Printable c := by
  intro c hc
  rcases List.mem_append.mp hc with hc | hc
  · exact hs c hc
  · exact ht c hc

theorem printable_cons (hc : Printable c) (ht : ∀ c ∈ t, Printable c) :
    ∀ x ∈ c :: t, Printable x := by
  intro x hx
  rcases List.mem_cons.mp hx with rfl | hx
  · exact hc
  · exact ht x hx

end Append

theorem printable_sep (l : Layout) {c : Char} (h : Printable c) : ∀ x ∈ c :: l.pad, Printable x :=
  printable_cons h (printable_pad l)

mutual

/-- **A written value is printable ASCII.** -/
theorem dumps_printable (l : Layout) : ∀ v : Json, v.Valid → ∀ c ∈ dumps l v, Printable c
  | .null, _ => fun c hc => (atomChar_null l c hc).printable
  | .bool b, _ => fun c hc => (atomChar_bool l b c hc).printable
  | .int i, _ => fun c hc => (atomChar_int l i c hc).printable
  | .float lit, h => fun c hc => (atomChar_float l h c hc).printable
  | .str s, _ => by rw [dumps]; exact printable_dumpsStr s
  | .arr [], _ => by simp [dumps, Printable]
  | .arr (x :: xs), h => by
    have hv := valid_arr_cons.mp h
    rw [dumps]
    exact printable_cons (by decide)
      (printable_append (dumps_printable l x hv.1) (dumpsItems_printable l xs hv.2))
  | .obj [], _ => by simp [dumps, Printable]
  | .obj ((k, v) :: kvs), h => by
    obtain ⟨-, hv, hkvs⟩ := isValidMembers_cons.mp (valid_obj.mp h).2
    rw [dumps]
    exact printable_cons (by decide) (printable_append (printable_append
      (printable_append (printable_dumpsStr k) (printable_sep l (by decide)))
      (dumps_printable l v hv)) (dumpsMembers_printable l kvs hkvs))

theorem dumpsItems_printable (l : Layout) :
    ∀ xs : List Json, isValidItems xs = true → ∀ c ∈ dumpsItems l xs, Printable c
  | [], _ => by simp [dumpsItems, Printable]
  | x :: xs, h => by
    have hv := isValidItems_cons.mp h
    rw [dumpsItems]
    exact printable_append (printable_append (printable_sep l (by decide))
      (dumps_printable l x hv.1)) (dumpsItems_printable l xs hv.2)

theorem dumpsMembers_printable (l : Layout) :
    ∀ kvs : List (PyStr × Json), isValidMembers kvs = true →
      ∀ c ∈ dumpsMembers l kvs, Printable c
  | [], _ => by simp [dumpsMembers, Printable]
  | (k, v) :: kvs, h => by
    obtain ⟨-, hv, hkvs⟩ := isValidMembers_cons.mp h
    rw [dumpsMembers]
    exact printable_append (printable_append (printable_append (printable_append
      (printable_sep l (by decide)) (printable_dumpsStr k)) (printable_sep l (by decide)))
      (dumps_printable l v hv)) (dumpsMembers_printable l kvs hkvs)

end

/-! ## The log and its reader -/

/-- The text of an object in the log. -/
def encode (r : JsonObject) : List Char := dumps .compact r.toJson

/-- What `append` writes. -/
def line (r : JsonObject) : List Char := encode r ++ ['\n']

/-- The text of a log. -/
def logText (rs : List JsonObject) : List Char := rs.flatMap line

/-- The file of a log. -/
def logBytes (rs : List JsonObject) : Bytes := Utf8.encode (logText rs)

/-- The values of the lines, and how many lines are no JSON. -/
def readLines : List (List Char) → List Json × ℕ
  | [] => ([], 0)
  | l :: ls =>
    if strip l = [] then readLines ls
    else
      match loads (strip l) with
      | some v => (v :: (readLines ls).1, (readLines ls).2)
      | none => ((readLines ls).1, (readLines ls).2 + 1)

/-- What the reader makes of a file; `none` is a `UnicodeDecodeError`. -/
def readLog (b : Bytes) : Option (List Json × ℕ) :=
  (readText b).map fun t => readLines (splitlines t)

@[simp] theorem logText_nil : logText [] = [] := rfl

@[simp] theorem logText_append (rs rs' : List JsonObject) :
    logText (rs ++ rs') = logText rs ++ logText rs' := List.flatMap_append

theorem logText_cons (r : JsonObject) (rs : List JsonObject) :
    logText (r :: rs) = encode r ++ '\n' :: logText rs := by
  simp [logText, line]

theorem logText_singleton (r : JsonObject) : logText [r] = line r := by simp [logText]

@[simp] theorem logBytes_nil : logBytes [] = [] := rfl

@[simp] theorem logBytes_append (rs rs' : List JsonObject) :
    logBytes (rs ++ rs') = logBytes rs ++ logBytes rs' := by
  rw [logBytes, logText_append, Utf8.encode_append]
  rfl

theorem encode_printable (r : JsonObject) : ∀ c ∈ encode r, Printable c :=
  dumps_printable .compact r.toJson r.valid

theorem dumpsMembers_last (l : Layout) (kvs : List (PyStr × Json)) :
    ∃ s, dumpsMembers l kvs = s ++ ['}'] := by
  induction kvs with
  | nil => exact ⟨[], rfl⟩
  | cons p kvs ih =>
    obtain ⟨s, hs⟩ := ih
    exact ⟨_, by rw [dumpsMembers, hs, ← List.append_assoc]⟩

/-- An object is written between braces. -/
theorem encode_ends (r : JsonObject) : ∃ s, encode r = '{' :: (s ++ ['}']) := by
  obtain ⟨kvs, h⟩ := r
  cases kvs with
  | nil => exact ⟨[], rfl⟩
  | cons p kvs =>
    obtain ⟨s, hs⟩ := dumpsMembers_last .compact kvs
    exact ⟨_, by rw [encode, JsonObject.toJson, dumps, hs, ← List.append_assoc]⟩

theorem strip_between (s : List Char) : strip ('{' :: (s ++ ['}'])) = '{' :: (s ++ ['}']) :=
  strip_eq (d := '}') (by decide) (by decide) (by rw [← List.cons_append, List.getLast?_concat])

theorem strip_encode (r : JsonObject) : strip (encode r) = encode r := by
  obtain ⟨s, hs⟩ := encode_ends r
  rw [hs, strip_between]

theorem encode_ne_nil (r : JsonObject) : encode r ≠ [] := by
  obtain ⟨s, hs⟩ := encode_ends r
  rw [hs]
  exact List.cons_ne_nil _ _

theorem loads_encode (r : JsonObject) : loads (encode r) = some r.toJson :=
  loads_dumps .compact r.valid

theorem encode_unbroken (r : JsonObject) : ∀ c ∈ encode r, isLineBreak c = false :=
  fun c hc => (encode_printable r c hc).not_isLineBreak

/-- The text of a log and of the front of one more line has no carriage return and is ASCII. -/
theorem logText_chars (rs : List JsonObject) {t : List Char} (ht : ∀ c ∈ t, Printable c) :
    ∀ c ∈ logText rs ++ t, Printable c ∨ c = '\n' := by
  intro c hc
  rcases List.mem_append.mp hc with hc | hc
  · obtain ⟨r, -, hr⟩ := List.mem_flatMap.mp hc
    rcases List.mem_append.mp hr with hr | hr
    · exact Or.inl (encode_printable r c hr)
    · exact Or.inr (List.mem_singleton.mp hr)
  · exact Or.inl (ht c hc)

theorem isAscii_of_char {c : Char} (h : Printable c ∨ c = '\n') : Utf8.IsAscii c := by
  rcases h with h | rfl
  · exact h.isAscii
  · decide

theorem ne_return_of_char {c : Char} (h : Printable c ∨ c = '\n') : c ≠ '\r' := by
  rintro rfl
  rcases h with h | h
  · exact absurd h (by decide)
  · cases h

theorem splitlines_logText_append (rs : List JsonObject) (t : List Char) :
    splitlines (logText rs ++ t) = rs.map encode ++ splitlines t := by
  induction rs with
  | nil => rfl
  | cons r rs ih =>
    rw [logText_cons, List.append_assoc, List.cons_append, splitlines_line (encode_unbroken r), ih]
    rfl

theorem readLines_encode_append (rs : List JsonObject) (ls : List (List Char)) :
    readLines (rs.map encode ++ ls) =
      (rs.map JsonObject.toJson ++ (readLines ls).1, (readLines ls).2) := by
  induction rs with
  | nil => rfl
  | cons r rs ih =>
    rw [List.map_cons, List.cons_append, readLines, strip_encode, if_neg (encode_ne_nil r),
      loads_encode, ih]
    rfl

/-- **Whole lines are read back**, and what follows them is read on its own. -/
theorem readLog_append (rs : List JsonObject) {t : List Char}
    (ht : ∀ c ∈ t, Printable c ∨ c = '\n') :
    readLog (Utf8.encode (logText rs ++ t)) =
      some (rs.map JsonObject.toJson ++ (readLines (splitlines t)).1,
        (readLines (splitlines t)).2) := by
  have hr : '\r' ∉ logText rs ++ t := by
    intro h
    rcases List.mem_append.mp h with h | h
    · exact ne_return_of_char (logText_chars rs (t := []) (by simp) '\r' (by simpa using h)) rfl
    · exact ne_return_of_char (ht _ h) rfl
  rw [readLog, readText_encode hr, Option.map_some, splitlines_logText_append,
    readLines_encode_append]

/-- **Reading undoes writing.** -/
theorem readLog_logBytes (rs : List JsonObject) :
    readLog (logBytes rs) = some (rs.map JsonObject.toJson, 0) := by
  have h := readLog_append rs (t := []) (by simp)
  rw [List.append_nil] at h
  rw [logBytes, h]
  simp [splitlines, readLines]

theorem logBytes_injective : Function.Injective logBytes := by
  intro rs rs' h
  have hr := readLog_logBytes rs
  rw [h, readLog_logBytes, Option.some.injEq] at hr
  exact (List.map_injective_iff.mpr JsonObject.toJson_injective (Prod.mk.inj hr).1).symm

/-! ## Logs that are cut off -/

/-- `t` is the front of the text of the object after the first `n`, or empty. -/
def Cut (rs : List JsonObject) (n : ℕ) (t : List Char) : Prop :=
  t = [] ∨ ∃ r, rs[n]? = some r ∧ t <+: encode r

/-- The bytes of a log and of the front of one more line. -/
def tornBytes (rs : List JsonObject) (t : List Char) : Bytes := Utf8.encode (logText rs ++ t)

theorem prefix_logText (rs : List JsonObject) {t : List Char} (h : t <+: logText rs) :
    ∃ n u, t = logText (rs.take n) ++ u ∧ Cut rs n u := by
  induction rs generalizing t with
  | nil => exact ⟨0, t, rfl, Or.inl (List.prefix_nil.mp h)⟩
  | cons r rs ih =>
    rw [logText_cons] at h
    rcases prefix_append_cases h with h | ⟨q, rfl, hq⟩
    · exact ⟨0, t, rfl, Or.inr ⟨r, rfl, h⟩⟩
    rcases List.prefix_cons_iff.mp hq with rfl | ⟨q', rfl, hq'⟩
    · exact ⟨0, encode r, by simp, Or.inr ⟨r, rfl, List.prefix_rfl⟩⟩
    · obtain ⟨n, u, rfl, hu⟩ := ih hq'
      refine ⟨n + 1, u, ?_, hu⟩
      rw [List.take_succ_cons, logText_cons, List.append_assoc, List.cons_append]

theorem logText_isAscii (rs : List JsonObject) : ∀ c ∈ logText rs, Utf8.IsAscii c := by
  intro c hc
  exact isAscii_of_char (logText_chars rs (t := []) (by simp) c (by simpa using hc))

/-- **A log cut at any byte** is some whole lines and the front of one more object. -/
theorem exists_cut {rs : List JsonObject} {b : Bytes} (h : b <+: logBytes rs) :
    ∃ n t, b = tornBytes (rs.take n) t ∧ Cut rs n t := by
  obtain ⟨u, hu, rfl⟩ := Utf8.prefix_encode (logText_isAscii rs) h
  obtain ⟨n, t, rfl, ht⟩ := prefix_logText rs hu
  exact ⟨n, t, rfl, ht⟩

section Cut

variable (rs : List JsonObject) {r : JsonObject} {t : List Char}

theorem printable_front (ht : t <+: encode r) : ∀ c ∈ t, Printable c :=
  fun c hc => encode_printable r c (ht.subset hc)

/-- A proper front of an object keeps one, not empty, when it is stripped. -/
theorem strip_torn (ht : t <+: encode r) (hne : t ≠ encode r) (h0 : t ≠ []) :
    strip t <+: encode r ∧ strip t ≠ encode r ∧ strip t ≠ [] := by
  obtain ⟨s, hs⟩ := encode_ends r
  obtain ⟨u, rfl⟩ : ∃ u, t = '{' :: u := by
    rw [hs] at ht
    rcases List.prefix_cons_iff.mp ht with rfl | ⟨u, rfl, -⟩
    · exact absurd rfl h0
    · exact ⟨u, rfl⟩
  obtain ⟨hp, h0'⟩ := strip_cons_prefix (c := '{') (by decide) u
  refine ⟨hp.trans ht, fun e => hne ?_, h0'⟩
  rw [e] at hp
  exact ht.eq_of_length_le hp.length_le

theorem readLines_torn (ht : t <+: encode r) (hne : t ≠ encode r) (h0 : t ≠ []) :
    readLines [t] = ([], 1) := by
  obtain ⟨hp, hne', h0'⟩ := strip_torn ht hne h0
  have hl : loads (strip t) = none := loads_torn .compact r.valid hp hne' h0'
  rw [readLines, if_neg h0', hl]
  rfl

theorem splitlines_front (ht : t <+: encode r) (h0 : t ≠ []) : splitlines t = [t] := by
  rw [splitlines_unbroken fun c hc => (printable_front ht c hc).not_isLineBreak, if_neg h0]

/-- A log that ends inside an object: the whole lines are read, and one torn line is counted. -/
theorem readLog_torn (ht : t <+: encode r) (hne : t ≠ encode r) (h0 : t ≠ []) :
    readLog (tornBytes rs t) = some (rs.map JsonObject.toJson, 1) := by
  rw [tornBytes, readLog_append rs fun c hc => Or.inl (printable_front ht c hc),
    splitlines_front ht h0, readLines_torn ht hne h0, List.append_nil]

/-- A log that ends right after an object, before its newline: the object is read too. -/
theorem readLog_whole : readLog (tornBytes rs (encode r)) =
    some (rs.map JsonObject.toJson ++ [r.toJson], 0) := by
  rw [tornBytes, readLog_append rs fun c hc => Or.inl (encode_printable r c hc),
    splitlines_front List.prefix_rfl (encode_ne_nil r)]
  simp only [readLines, strip_encode, if_neg (encode_ne_nil r), loads_encode]

theorem tornBytes_append (rs' : List JsonObject) :
    tornBytes rs t ++ logBytes rs' = Utf8.encode (logText rs ++ (t ++ logText rs')) := by
  rw [tornBytes, logBytes, ← Utf8.encode_append, List.append_assoc]

/-- Lines added after the front of an object: the first of them becomes part of its line. -/
theorem readLines_merged (ht : t <+: encode r) (h0 : t ≠ []) (r' : JsonObject)
    (rs' : List JsonObject) (hl : loads (t ++ encode r') = none) :
    readLines (splitlines (t ++ logText (r' :: rs'))) = (rs'.map JsonObject.toJson, 1) := by
  obtain ⟨s, hs⟩ := encode_ends r
  obtain ⟨s', hs'⟩ := encode_ends r'
  -- the merged line starts with a brace and ends in one, so nothing is stripped
  have hstrip : strip (t ++ encode r') = t ++ encode r' := by
    obtain ⟨u, rfl⟩ : ∃ u, t = '{' :: u := by
      rw [hs] at ht
      rcases List.prefix_cons_iff.mp ht with rfl | ⟨u, rfl, -⟩
      · exact absurd rfl h0
      · exact ⟨u, rfl⟩
    have e : '{' :: u ++ encode r' = '{' :: ((u ++ '{' :: s') ++ ['}']) := by
      rw [hs']
      simp
    rw [e, strip_between]
  have hne : t ++ encode r' ≠ [] := List.append_ne_nil_of_left_ne_nil h0 _
  have hb : ∀ c ∈ t ++ encode r', isLineBreak c = false := by
    intro c hc
    rcases List.mem_append.mp hc with hc | hc
    · exact (printable_front ht c hc).not_isLineBreak
    · exact encode_unbroken r' c hc
  have hrest := splitlines_logText_append rs' []
  have hread := readLines_encode_append rs' []
  simp only [List.append_nil, splitlines, readLines] at hrest hread
  rw [logText_cons, ← List.append_assoc, splitlines_line hb, readLines, hstrip, if_neg hne, hl,
    hrest, hread]

/-- **Lines added to a log that ends inside an object**: the first of them is lost. -/
theorem readLog_torn_append (ht : t <+: encode r) (hne : t ≠ encode r) (h0 : t ≠ [])
    (r' : JsonObject) (rs' : List JsonObject) :
    readLog (tornBytes rs t ++ logBytes (r' :: rs')) =
      some (rs.map JsonObject.toJson ++ rs'.map JsonObject.toJson, 1) := by
  have hc : ∀ c ∈ t ++ logText (r' :: rs'), Printable c ∨ c = '\n' := by
    intro c hc
    rcases List.mem_append.mp hc with hc | hc
    · exact Or.inl (printable_front ht c hc)
    · exact logText_chars (r' :: rs') (t := []) (by simp) c (by simpa using hc)
  rw [tornBytes_append, readLog_append rs hc,
    readLines_merged ht h0 r' rs' (loads_torn_append .compact r.valid r'.valid ht hne h0)]

/-- **Lines added to a log that ends right after an object**: that object is lost too. -/
theorem readLog_whole_append (r' : JsonObject) (rs' : List JsonObject) :
    readLog (tornBytes rs (encode r) ++ logBytes (r' :: rs')) =
      some (rs.map JsonObject.toJson ++ rs'.map JsonObject.toJson, 1) := by
  have hc : ∀ c ∈ encode r ++ logText (r' :: rs'), Printable c ∨ c = '\n' := by
    intro c hc
    rcases List.mem_append.mp hc with hc | hc
    · exact Or.inl (encode_printable r c hc)
    · exact logText_chars (r' :: rs') (t := []) (by simp) c (by simpa using hc)
  rw [tornBytes_append, readLog_append rs hc,
    readLines_merged List.prefix_rfl (encode_ne_nil r) r' rs'
      (loads_obj_append .compact r.valid r'.valid)]

end Cut

end Json
