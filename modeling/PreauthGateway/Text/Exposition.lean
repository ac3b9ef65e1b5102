import Mathlib

/-!
# The text format of metrics

A page of metrics is made of lines. A line that begins with `#` is a comment; any other is a sample:
the name of a metric, labels in braces if there are any, a blank and the value. In the value of a
label a backslash escapes the next character. A reader that follows these rules gets back the
samples that were written, as long as no name, label or value holds a character that would end it
early.

## Main definitions

* `Exposition.Sample`, `Exposition.Line`, `Exposition.page`: samples, lines, and the text of a page
* `Exposition.scrape`: the reader
* `Exposition.Line.Legal`: nothing in the line ends early

## Main results

* `Exposition.readSample_text`: a sample is read back from its line
* `Exposition.scrape_page`: **a page is read back as its samples**
-/

namespace Exposition

/-- A sample: the name of a metric, its labels, and the text of its value. -/
structure Sample where
  name : String
  labels : List (String × String) := []
  value : String
deriving DecidableEq

/-- A line of a page. -/
inductive Line
  | comment (text : String)
  | sample (s : Sample)

/-- The text of a label. -/
def labelText (l : String × String) : List Char :=
  l.1.toList ++ ['=', '"'] ++ l.2.toList ++ ['"']

/-- The text of the labels, in braces; nothing when there are none. -/
def labelsText (ls : List (String × String)) : List Char :=
  if ls = [] then [] else ['\x7b'] ++ [','].intercalate (ls.map labelText) ++ ['\x7d']

/-- The text of a sample. -/
def Sample.text (s : Sample) : List Char :=
  s.name.toList ++ labelsText s.labels ++ [' '] ++ s.value.toList

/-- The text of a line. -/
def Line.text : Line → List Char
  | .comment text => '#' :: text.toList
  | .sample s => s.text

/-- The samples among lines. -/
def samples (ls : List Line) : List Sample :=
  ls.filterMap fun
    | .comment _ => none
    | .sample s => some s

/-- The text of a page. -/
def page (ls : List Line) : List Char := ['\n'].intercalate (ls.map Line.text) ++ ['\n']

/-! ## The reader -/

/-- The characters of the names of metrics and labels. -/
def isNameChar (c : Char) : Bool := c.isAlphanum || c = '_' || c = ':'

/-- The value of a label, up to its closing quote. -/
def readQuoted : List Char → Option (List Char × List Char)
  | [] => none
  | '"' :: t => some ([], t)
  | '\\' :: 'n' :: t => (readQuoted t).map fun p => ('\n' :: p.1, p.2)
  | '\\' :: c :: t => (readQuoted t).map fun p => (c :: p.1, p.2)
  | c :: t => (readQuoted t).map fun p => (c :: p.1, p.2)

/-- The labels up to the closing brace; the number bounds them. -/
def readLabels : ℕ → List Char → Option (List (String × String) × List Char)
  | 0, _ => none
  | n + 1, t =>
    match t.dropWhile isNameChar with
    | '\x7d' :: t' => if t.takeWhile isNameChar = [] then some ([], t') else none
    | '=' :: '"' :: t' =>
      match readQuoted t' with
      | some (v, ',' :: t'') => (readLabels n t'').map fun p =>
          ((String.ofList (t.takeWhile isNameChar), String.ofList v) :: p.1, p.2)
      | some (v, '\x7d' :: t'') =>
          some ([(String.ofList (t.takeWhile isNameChar), String.ofList v)], t'')
      | _ => none
    | _ => none

/-- The value of a sample; a time may follow it. -/
def readValue (t : List Char) : String := String.ofList (t.takeWhile (· ≠ ' '))

/-- A sample from its line. -/
def readSample (t : List Char) : Option Sample :=
  let name := String.ofList (t.takeWhile isNameChar)
  match t.dropWhile isNameChar with
  | ' ' :: t' => some { name, value := readValue t' }
  | '\x7b' :: t' =>
    match readLabels t'.length t' with
    | some (labels, ' ' :: t'') => some { name, labels, value := readValue t'' }
    | _ => none
  | _ => none

/-- The line is neither empty nor a comment. -/
def isSample : List Char → Bool
  | [] => false
  | c :: _ => c ≠ '#'

/-- The samples of a page; `none` when a line is not in the format. -/
def scrape (t : List Char) : Option (List Sample) :=
  ((t.splitOn '\n').filter isSample).mapM readSample

/-! ## What may be written -/

/-- A name of a metric or of a label. -/
def IsName (s : String) : Prop := s.toList ≠ [] ∧ s.toList.all isNameChar = true

/-- A text that no quote ends early and no backslash changes. -/
def IsPlain (s : String) : Prop := s.toList.all fun c => c ≠ '"' ∧ c ≠ '\\' ∧ c ≠ '\n'

/-- Nothing in the sample ends early. -/
structure Sample.Legal (s : Sample) : Prop where
  name : IsName s.name
  labels : ∀ l ∈ s.labels, IsName l.1 ∧ IsPlain l.2
  value : ∀ c ∈ s.value.toList, c ≠ ' ' ∧ c ≠ '\n'

/-- Nothing in the line ends early. -/
def Line.Legal : Line → Prop
  | .comment text => '\n' ∉ text.toList
  | .sample s => s.Legal

instance (s : String) : Decidable (IsName s) := inferInstanceAs (Decidable (_ ∧ _))

instance (s : String) : Decidable (IsPlain s) := inferInstanceAs (Decidable (_ = true))

theorem IsName.isNameChar {s : String} (h : IsName s) : ∀ c ∈ s.toList, isNameChar c = true :=
  List.all_eq_true.mp h.2

theorem isPlain_iff {s : String} :
    IsPlain s ↔ ∀ c ∈ s.toList, c ≠ '"' ∧ c ≠ '\\' ∧ c ≠ '\n' := by
  simp only [IsPlain, List.all_eq_true, decide_eq_true_eq]

/-! ## Reading back -/

section Reading

variable {s : String} {c : Char} {t : List Char}

theorem takeWhile_name (h : IsName s) (hc : isNameChar c = false) :
    (s.toList ++ c :: t).takeWhile isNameChar = s.toList := by
  rw [List.takeWhile_append_of_pos h.isNameChar, List.takeWhile_cons_of_neg (by simp [hc]),
    List.append_nil]

theorem dropWhile_name (h : IsName s) (hc : isNameChar c = false) :
    (s.toList ++ c :: t).dropWhile isNameChar = c :: t := by
  rw [List.dropWhile_append_of_pos h.isNameChar, List.dropWhile_cons_of_neg (by simp [hc])]

/-- A plain text is read up to its closing quote. -/
theorem readQuoted_plain (h : IsPlain s) : readQuoted (s.toList ++ '"' :: t) = some (s.toList, t) := by
  rw [isPlain_iff] at h
  generalize s.toList = cs at h
  induction cs with
  | nil => rfl
  | cons c cs ih =>
    obtain ⟨hq, hb, -⟩ := h c List.mem_cons_self
    have hcs := ih fun d hd => h d (List.mem_cons_of_mem _ hd)
    rw [List.cons_append, readQuoted, hcs]
    · rfl
    · exact hq
    · rintro _ hc _
      exact hb hc
    · rintro _ _ hc _
      exact hb hc

/-- A label is read from its text. -/
theorem readLabels_comma {l : String × String} (h : IsName l.1 ∧ IsPlain l.2) (n : ℕ) :
    readLabels (n + 1) (labelText l ++ ',' :: t) =
      (readLabels n t).map fun p => (l :: p.1, p.2) := by
  have ht : labelText l ++ ',' :: t =
      l.1.toList ++ '=' :: '"' :: (l.2.toList ++ '"' :: ',' :: t) := by simp [labelText]
  rw [ht, readLabels, dropWhile_name h.1 (by decide), takeWhile_name h.1 (by decide)]
  simp only [readQuoted_plain h.2, String.ofList_toList]

theorem readLabels_brace {l : String × String} (h : IsName l.1 ∧ IsPlain l.2) (n : ℕ) :
    readLabels (n + 1) (labelText l ++ '\x7d' :: t) = some ([l], t) := by
  have ht : labelText l ++ '\x7d' :: t =
      l.1.toList ++ '=' :: '"' :: (l.2.toList ++ '"' :: '\x7d' :: t) := by simp [labelText]
  rw [ht, readLabels, dropWhile_name h.1 (by decide), takeWhile_name h.1 (by decide)]
  simp only [readQuoted_plain h.2, String.ofList_toList]

/-- The labels are read up to the closing brace. -/
theorem readLabels_intercalate {ls : List (String × String)} {n : ℕ}
    (h : ∀ l ∈ ls, IsName l.1 ∧ IsPlain l.2) (hls : ls ≠ []) (hn : ls.length ≤ n) :
    readLabels n ([','].intercalate (ls.map labelText) ++ '\x7d' :: t) = some (ls, t) := by
  induction ls generalizing n with
  | nil => exact absurd rfl hls
  | cons l ls ih =>
    have hl := h l List.mem_cons_self
    cases n with
    | zero => cases hn
    | succ n =>
      cases ls with
      | nil =>
        rw [List.map_singleton, List.intercalate_singleton, readLabels_brace hl]
      | cons l' ls =>
        have hrest := ih (n := n) (fun m hm => h m (List.mem_cons_of_mem _ hm)) (List.cons_ne_nil _ _)
          (Nat.le_of_succ_le_succ hn)
        rw [List.map_cons, List.map_cons, List.intercalate_cons_cons, List.append_assoc,
          List.append_assoc, List.singleton_append, readLabels_comma hl, ← List.map_cons, hrest]
        rfl

/-- There are no more labels than characters. -/
theorem length_le_intercalate (ls : List (String × String)) :
    ls.length ≤ ([','].intercalate (ls.map labelText)).length := by
  induction ls with
  | nil => exact Nat.zero_le _
  | cons l ls ih =>
    have hone : 1 ≤ (labelText l).length := by
      simp only [labelText, List.length_append, List.length_cons]
      omega
    cases ls with
    | nil =>
      rw [List.map_singleton, List.intercalate_singleton]
      exact hone
    | cons l' ls =>
      rw [List.map_cons, List.map_cons, List.intercalate_cons_cons, ← List.map_cons]
      simp only [List.length_append, List.length_cons] at ih ⊢
      omega

theorem readValue_eq (h : ∀ c ∈ s.toList, c ≠ ' ' ∧ c ≠ '\n') : readValue s.toList = s := by
  rw [readValue, List.takeWhile_eq_self_iff.mpr, String.ofList_toList]
  intro c hc
  simpa using (h c hc).1

/-- **A sample is read back from its line.** -/
theorem readSample_text {s : Sample} (h : s.Legal) : readSample s.text = some s := by
  obtain ⟨name, labels, value⟩ := s
  obtain ⟨hname, hlabels, hvalue⟩ := h
  by_cases hls : labels = []
  · subst hls
    have ht : (Sample.mk name [] value).text = name.toList ++ ' ' :: value.toList := by
      simp [Sample.text, labelsText]
    rw [ht, readSample, dropWhile_name hname (by decide), takeWhile_name hname (by decide)]
    simp only [readValue_eq hvalue, String.ofList_toList]
  · have ht : (Sample.mk name labels value).text = name.toList ++
        '\x7b' :: ([','].intercalate (labels.map labelText) ++ '\x7d' :: ' ' :: value.toList) := by
      simp [Sample.text, labelsText, hls]
    rw [ht, readSample, dropWhile_name hname (by decide), takeWhile_name hname (by decide)]
    have hlen : labels.length ≤ ([','].intercalate (labels.map labelText) ++
        '\x7d' :: ' ' :: value.toList).length := by
      have := length_le_intercalate labels
      rw [List.length_append]
      omega
    simp only [readLabels_intercalate hlabels hls hlen, readValue_eq hvalue, String.ofList_toList]

end Reading

/-! ## Reading a page -/

section Page

theorem mem_intercalate {α : Type*} {x y : α} {ls : List (List α)} (h : y ∈ [x].intercalate ls) :
    y = x ∨ ∃ l ∈ ls, y ∈ l := by
  induction ls with
  | nil => cases h
  | cons l ls ih =>
    cases ls with
    | nil =>
      rw [List.intercalate_singleton] at h
      exact .inr ⟨l, List.mem_singleton_self l, h⟩
    | cons l' ls =>
      rw [List.intercalate_cons_cons] at h
      rcases List.mem_append.mp h with h | h
      · rcases List.mem_append.mp h with h | h
        · exact .inr ⟨l, List.mem_cons_self, h⟩
        · exact .inl (List.mem_singleton.mp h)
      · rcases ih h with h | ⟨m, hm, h⟩
        · exact .inl h
        · exact .inr ⟨m, List.mem_cons_of_mem _ hm, h⟩

theorem ne_newline_of_isNameChar {c : Char} (h : isNameChar c = true) : c ≠ '\n' := by
  rintro rfl
  exact absurd h (by decide)

theorem ne_newline_of_mem_labelText {l : String × String} (h : IsName l.1 ∧ IsPlain l.2) {c : Char}
    (hc : c ∈ labelText l) : c ≠ '\n' := by
  simp only [labelText, List.mem_append, List.mem_cons, List.not_mem_nil, or_false] at hc
  rcases hc with ((hc | hc) | hc) | hc
  · exact ne_newline_of_isNameChar (h.1.isNameChar c hc)
  · rcases hc with rfl | rfl <;> decide
  · exact (isPlain_iff.mp h.2 c hc).2.2
  · rw [hc]
    decide

theorem ne_newline_of_mem_labelsText {ls : List (String × String)}
    (h : ∀ l ∈ ls, IsName l.1 ∧ IsPlain l.2) {c : Char} (hc : c ∈ labelsText ls) : c ≠ '\n' := by
  unfold labelsText at hc
  split at hc
  · cases hc
  rcases List.mem_append.mp hc with hc | hc
  · rcases List.mem_append.mp hc with hc | hc
    · rw [List.mem_singleton.mp hc]
      decide
    · rcases mem_intercalate hc with rfl | ⟨m, hm, hc⟩
      · decide
      · obtain ⟨l, hl, rfl⟩ := List.mem_map.mp hm
        exact ne_newline_of_mem_labelText (h l hl) hc
  · rw [List.mem_singleton.mp hc]
    decide

/-- A legal line holds no line break. -/
theorem newline_notMem_text {l : Line} (h : l.Legal) : '\n' ∉ l.text := by
  cases l with
  | comment text =>
    rintro (_ | ⟨_, hc⟩)
    exact h hc
  | sample s =>
    intro hc
    simp only [Line.text, Sample.text, List.mem_append, List.mem_singleton] at hc
    rcases hc with ((hc | hc) | hc) | hc
    · exact ne_newline_of_isNameChar (h.name.isNameChar _ hc) rfl
    · exact ne_newline_of_mem_labelsText h.labels hc rfl
    · exact absurd hc (by decide)
    · exact (h.value _ hc).2 rfl

theorem isSample_text {s : Sample} (h : s.Legal) : isSample s.text = true := by
  obtain ⟨c, cs, hname⟩ := List.exists_cons_of_ne_nil h.name.1
  have hc : isNameChar c = true := h.name.isNameChar c (by rw [hname]; exact List.mem_cons_self)
  have hne : c ≠ '#' := by
    rintro rfl
    exact absurd hc (by decide)
  rw [Sample.text, hname, List.cons_append, List.cons_append, List.cons_append, isSample]
  exact decide_eq_true hne

/-- A last line break begins an empty line. -/
theorem intercalate_concat_nil {α : Type*} (x : α) {ls : List (List α)} (h : ls ≠ []) :
    [x].intercalate ls ++ [x] = [x].intercalate (ls ++ [[]]) := by
  induction ls with
  | nil => exact absurd rfl h
  | cons l ls ih =>
    cases ls with
    | nil =>
      rw [List.intercalate_singleton, List.singleton_append, List.intercalate_cons_cons,
        List.intercalate_singleton, List.append_nil]
    | cons l' ls =>
      rw [List.intercalate_cons_cons, List.append_assoc, ih (List.cons_ne_nil _ _)]
      exact List.intercalate_cons_cons.symm

/-- The lines of a page are read back. -/
theorem mapM_filter_text {ls : List Line} (h : ∀ l ∈ ls, l.Legal) :
    ((ls.map Line.text).filter isSample).mapM readSample = some (samples ls) := by
  induction ls with
  | nil => rfl
  | cons l ls ih =>
    have hls := ih fun m hm => h m (List.mem_cons_of_mem _ hm)
    cases l with
    | comment text => exact hls
    | sample s =>
      have hs : s.Legal := h _ List.mem_cons_self
      rw [List.map_cons, Line.text, List.filter_cons_of_pos (isSample_text hs), List.mapM_cons,
        readSample_text hs, hls]
      rfl

/-- **A page is read back as its samples.** -/
theorem scrape_page {ls : List Line} (h : ∀ l ∈ ls, l.Legal) :
    scrape (page ls) = some (samples ls) := by
  by_cases hls : ls = []
  · subst hls
    rfl
  have hne : ls.map Line.text ≠ [] := mt List.map_eq_nil_iff.mp hls
  have hlines : ∀ l ∈ ls.map Line.text ++ [[]], '\n' ∉ l := by
    intro l hl
    rcases List.mem_append.mp hl with hl | hl
    · obtain ⟨m, hm, rfl⟩ := List.mem_map.mp hl
      exact newline_notMem_text (h m hm)
    · rw [List.mem_singleton.mp hl]
      exact List.not_mem_nil
  rw [← mapM_filter_text h, scrape, page, intercalate_concat_nil _ hne,
    List.splitOn_intercalate _ hlines (List.append_ne_nil_of_right_ne_nil _ (List.cons_ne_nil _ _)),
    List.filter_append, show [[]].filter isSample = [] from rfl, List.append_nil]

end Page

end Exposition
