import PreauthGateway.Number.Format
import PreauthGateway.Service.Exports
import PreauthGateway.Text.Exposition

/-!
# The page of metrics

`Registry.render` writes the metrics in the text format that the monitoring reads. It escapes
nothing, so the page can be read back when no name, help text or label needs an escape.

## Main definitions

* `Registry.render`: the text of `/metrics`
* `Registry.samples`: what is to be read from it
* `Registry.Exportable`: no name, help text or label needs an escape

## Main results

* `Registry.render_toList`: the text is the page of these samples, under their headers
* `Registry.Exportable.scrape_render`: **the page of an exportable registry is read back as its
  samples**
* `Registry.Exportable.mem_samples_iff`: what is read of a counter
* `Gauge.samples_set_iff`: a gauge is read exactly below a million
-/

open Exposition

namespace Metrics

/-! ## The text -/

/-- `"{}".format(b)` of a bound; the bounds of `LATENCY_BUCKETS_MS` are integers. -/
def boundText (b : ℚ) : String := String.ofList (Json.dumpsInt b.num)

/-- `"{:.6f}"`. -/
def fixed6 (x : PyFloat) : String := String.ofList (x.fixed 6)

/-- `"{:g}"`. -/
def generalText (x : PyFloat) : String := String.ofList x.general

/-- The lines `# HELP` and `# TYPE`. -/
def header (name helpText type : String) : List String :=
  ["# HELP " ++ name ++ " " ++ helpText, "# TYPE " ++ name ++ " " ++ type]

/-- The count of a bucket. -/
def Histogram.countOf (h : Histogram) (b : ℚ) : ℕ := (h.counts.get? b).getD 0

/-- The lines of a histogram. -/
def Histogram.render (name : String) (h : Histogram) : List String :=
  header name h.helpText "histogram" ++
    (h.buckets.map fun b =>
      name ++ "_bucket\x7ble=\"" ++ boundText b ++ "\"\x7d " ++ (h.countOf b).repr) ++
    [name ++ "_bucket\x7ble=\"+Inf\"\x7d " ++ h.total.repr,
      name ++ "_sum " ++ fixed6 h.sumValue,
      name ++ "_count " ++ h.total.repr]

/-- The order of the tuples of labels, pair by pair. -/
def labelsLe : List (String × String) → List (String × String) → Bool
  | [], _ => true
  | _ :: _, [] => false
  | (k, v) :: a, (l, w) :: b =>
    if k ≠ l then k < l else if v ≠ w then v < w else labelsLe a b

/-- `sorted(c.values.items())`. -/
def Counter.sorted (c : Counter) : List (List (String × String) × ℕ) :=
  c.values.insertionSort fun p q => labelsLe p.1 q.1 = true

/-- The lines of a counter. -/
def Counter.render (name : String) (c : Counter) : List String :=
  header name c.helpText "counter" ++ c.sorted.map fun p =>
    if p.1 ≠ [] then
      name ++ "\x7b" ++ ",".intercalate (p.1.map fun l => l.1 ++ "=\"" ++ l.2 ++ "\"") ++ "\x7d " ++
        p.2.repr
    else name ++ " " ++ p.2.repr

/-- The lines of a gauge. -/
def Gauge.render (name : String) (g : Gauge) : List String :=
  header name g.helpText "gauge" ++ [name ++ " " ++ generalText g.value]

/-- `render`. -/
def Registry.render (r : Registry) : String :=
  "\n".intercalate ((r.histograms.flatMap fun p => p.2.render p.1) ++
    (r.counters.flatMap fun p => p.2.render p.1) ++
    (r.gauges.flatMap fun p => p.2.render p.1)) ++ "\n"

/-! ## The samples -/

/-- The samples of a histogram. -/
def Histogram.samples (name : String) (h : Histogram) : List Sample :=
  (h.buckets.map fun b =>
    { name := name ++ "_bucket", labels := [("le", boundText b)], value := (h.countOf b).repr }) ++
  [{ name := name ++ "_bucket", labels := [("le", "+Inf")], value := h.total.repr },
    { name := name ++ "_sum", value := fixed6 h.sumValue },
    { name := name ++ "_count", value := h.total.repr }]

/-- The samples of a counter. -/
def Counter.samples (name : String) (c : Counter) : List Sample :=
  c.sorted.map fun p => { name, labels := p.1, value := p.2.repr }

/-- The sample of a gauge. -/
def Gauge.samples (name : String) (g : Gauge) : List Sample :=
  [{ name, value := generalText g.value }]

/-- The samples of the registry. -/
def Registry.samples (r : Registry) : List Sample :=
  (r.histograms.flatMap fun p => p.2.samples p.1) ++ (r.counters.flatMap fun p => p.2.samples p.1) ++
    (r.gauges.flatMap fun p => p.2.samples p.1)

/-- The lines of a metric. -/
def linesOf (name helpText type : String) (ss : List Sample) : List Line :=
  [.comment (" HELP " ++ name ++ " " ++ helpText), .comment (" TYPE " ++ name ++ " " ++ type)] ++
    ss.map .sample

/-- The lines of the page. -/
def Registry.lines (r : Registry) : List Line :=
  (r.histograms.flatMap fun p => linesOf p.1 p.2.helpText "histogram" (p.2.samples p.1)) ++
    (r.counters.flatMap fun p => linesOf p.1 p.2.helpText "counter" (p.2.samples p.1)) ++
    (r.gauges.flatMap fun p => linesOf p.1 p.2.helpText "gauge" (p.2.samples p.1))

/-! ## The page -/

theorem header_toList (name helpText type : String) {ss : List Sample} {ts : List String}
    (h : ts.map String.toList = ss.map Sample.text) :
    (header name helpText type ++ ts).map String.toList =
      (linesOf name helpText type ss).map Line.text := by
  rw [header, linesOf, List.map_append, List.map_append, h, List.map_map]
  simp [Line.text, String.toList_append, Function.comp_def]

/-- A sample without labels. -/
theorem text_bare (name value : String) :
    (name ++ " " ++ value).toList = Sample.text { name, value } := by
  simp [Sample.text, labelsText, String.toList_append]

theorem Histogram.render_toList (name : String) (h : Histogram) :
    (h.render name).map String.toList =
      (linesOf name h.helpText "histogram" (h.samples name)).map Line.text := by
  rw [Histogram.render, List.append_assoc]
  refine header_toList _ _ _ ?_
  rw [Histogram.samples, List.map_append, List.map_append, List.map_map, List.map_map]
  congr 1
  · refine List.map_congr_left fun b _ => ?_
    simp [Sample.text, labelsText, labelText, String.toList_append]
  · simp [Sample.text, labelsText, labelText, String.toList_append]

theorem Counter.render_toList (name : String) (c : Counter) :
    (c.render name).map String.toList =
      (linesOf name c.helpText "counter" (c.samples name)).map Line.text := by
  refine header_toList _ _ _ ?_
  rw [Counter.samples, List.map_map, List.map_map]
  refine List.map_congr_left fun p _ => ?_
  obtain ⟨key, v⟩ := p
  dsimp only [Function.comp_apply]
  split
  · rename_i hkey
    have hlabels : (key.map fun l => l.1 ++ "=\"" ++ l.2 ++ "\"").map String.toList =
        key.map labelText := by
      simp [labelText, String.toList_append, Function.comp_def]
    simp only [String.toList_append, String.toList_intercalate, hlabels, Sample.text, labelsText,
      if_neg hkey]
    simp
  · rename_i hkey
    rw [text_bare, not_not.mp hkey]

theorem Gauge.render_toList (name : String) (g : Gauge) :
    (g.render name).map String.toList =
      (linesOf name g.helpText "gauge" (g.samples name)).map Line.text := by
  refine header_toList _ _ _ ?_
  rw [Gauge.samples, List.map_singleton, List.map_singleton, text_bare]

/-- **The text is the page of these lines.** -/
theorem Registry.render_toList (r : Registry) : r.render.toList = page r.lines := by
  rw [Registry.render, page, String.toList_append, String.toList_intercalate, Registry.lines]
  simp only [List.map_append, List.map_flatMap, Histogram.render_toList, Counter.render_toList,
    Gauge.render_toList]
  rfl

/-! ## Numerals -/

theorem toList_repr (n : ℕ) : n.repr.toList = Nat.toDigits 10 n := by
  rw [Nat.repr, String.toList_ofList]

theorem isNumeral_repr (n : ℕ) : IsNumeral n.repr.toList := by
  rw [toList_repr]
  exact .toDigits n

theorem isNumeral_fixed6 (x : PyFloat) : IsNumeral (fixed6 x).toList := by
  rw [fixed6, String.toList_ofList]
  exact x.isNumeral_fixed 6

theorem isNumeral_generalText (x : PyFloat) : IsNumeral (generalText x).toList := by
  rw [generalText, String.toList_ofList]
  exact x.isNumeral_general

theorem isNumeral_boundText (b : ℚ) : IsNumeral (boundText b).toList := by
  rw [boundText, String.toList_ofList]
  cases b.num with
  | ofNat n => exact .toDigits n
  | negSucc n => exact .cons rfl (.toDigits _)

/-- A numeral ends no value early. -/
theorem value_of_isNumeral {s : String} (h : IsNumeral s.toList) :
    ∀ c ∈ s.toList, c ≠ ' ' ∧ c ≠ '\n' := fun _ hc =>
  ⟨(h.plain hc).1, (h.plain hc).2.2.2⟩

theorem isPlain_of_isNumeral {s : String} (h : IsNumeral s.toList) : IsPlain s :=
  isPlain_iff.mpr fun _ hc => (h.plain hc).2

/-! ## Nothing needs an escape -/

/-- The name and the help text of a metric need no escape. -/
def Named (name helpText : String) : Prop := IsName name ∧ '\n' ∉ helpText.toList

instance (name helpText : String) : Decidable (Named name helpText) :=
  inferInstanceAs (Decidable (_ ∧ _))

/-- The labels of a counter need no escape, and each series is there once. -/
structure Counter.Exportable (c : Counter) : Prop where
  labels : ∀ p ∈ c.values, ∀ l ∈ p.1, IsName l.1 ∧ IsPlain l.2
  once : (c.values.map Prod.fst).Nodup

/-- Nothing in the registry needs an escape, and each counter is there once. -/
structure Registry.Exportable (r : Registry) : Prop where
  histograms : ∀ p ∈ r.histograms, Named p.1 p.2.helpText
  counters : ∀ p ∈ r.counters, Named p.1 p.2.helpText ∧ p.2.Exportable
  gauges : ∀ p ∈ r.gauges, Named p.1 p.2.helpText
  once : (r.counters.map Prod.fst).Nodup

theorem isName_append {s t : String} (hs : IsName s) (ht : t.toList.all isNameChar = true) :
    IsName (s ++ t) := by
  rw [IsName, String.toList_append, List.all_append, hs.2, ht]
  exact ⟨List.append_ne_nil_of_left_ne_nil hs.1 _, rfl⟩

theorem Histogram.legal_samples {name : String} (hname : IsName name) (h : Histogram) :
    ∀ s ∈ h.samples name, s.Legal := by
  have hlabel {bound : String} (hb : IsPlain bound) :
      ∀ l ∈ [("le", bound)], IsName l.1 ∧ IsPlain l.2 := by
    intro l hl
    rw [List.mem_singleton.mp hl]
    exact ⟨show IsName "le" by decide, hb⟩
  intro s hs
  rcases List.mem_append.mp hs with hs | hs
  · obtain ⟨b, -, rfl⟩ := List.mem_map.mp hs
    exact ⟨isName_append hname (by decide), hlabel (isPlain_of_isNumeral (isNumeral_boundText b)),
      value_of_isNumeral (isNumeral_repr _)⟩
  · simp only [List.mem_cons, List.not_mem_nil, or_false] at hs
    rcases hs with rfl | rfl | rfl
    · exact ⟨isName_append hname (by decide), hlabel (by decide),
        value_of_isNumeral (isNumeral_repr _)⟩
    · exact ⟨isName_append hname (by decide), nofun, value_of_isNumeral (isNumeral_fixed6 _)⟩
    · exact ⟨isName_append hname (by decide), nofun, value_of_isNumeral (isNumeral_repr _)⟩

theorem Counter.mem_sorted {c : Counter} {p : List (String × String) × ℕ} :
    p ∈ c.sorted ↔ p ∈ c.values := by
  rw [Counter.sorted]
  exact (List.perm_insertionSort _ _).mem_iff

theorem Counter.legal_samples {name : String} (hname : IsName name) {c : Counter}
    (hc : c.Exportable) : ∀ s ∈ c.samples name, s.Legal := by
  intro s hs
  obtain ⟨p, hp, rfl⟩ := List.mem_map.mp hs
  exact ⟨hname, hc.labels p (Counter.mem_sorted.mp hp), value_of_isNumeral (isNumeral_repr _)⟩

theorem Gauge.legal_samples {name : String} (hname : IsName name) (g : Gauge) :
    ∀ s ∈ g.samples name, s.Legal := by
  intro s hs
  rw [List.mem_singleton.mp hs]
  exact ⟨hname, nofun, value_of_isNumeral (isNumeral_generalText _)⟩

theorem legal_linesOf {name helpText type : String} (h : Named name helpText)
    (htype : '\n' ∉ type.toList) {ss : List Sample} (hss : ∀ s ∈ ss, s.Legal) :
    ∀ l ∈ linesOf name helpText type ss, l.Legal := by
  have hname : '\n' ∉ name.toList := fun hc => ne_newline_of_isNameChar (h.1.isNameChar _ hc) rfl
  intro l hl
  rcases List.mem_append.mp hl with hl | hl
  · simp only [List.mem_cons, List.not_mem_nil, or_false] at hl
    rcases hl with rfl | rfl
    · simp [Line.Legal, String.toList_append, hname, h.2]
    · simp [Line.Legal, String.toList_append, hname, htype]
  · obtain ⟨s, hs, rfl⟩ := List.mem_map.mp hl
    exact hss s hs

theorem Registry.Exportable.legal {r : Registry} (h : r.Exportable) : ∀ l ∈ r.lines, l.Legal := by
  intro l hl
  rcases List.mem_append.mp hl with hl | hl
  · rcases List.mem_append.mp hl with hl | hl
    · obtain ⟨p, hp, hl⟩ := List.mem_flatMap.mp hl
      have hn := h.histograms p hp
      exact legal_linesOf hn (by decide) (Histogram.legal_samples hn.1 p.2) l hl
    · obtain ⟨p, hp, hl⟩ := List.mem_flatMap.mp hl
      obtain ⟨hn, hc⟩ := h.counters p hp
      exact legal_linesOf hn (by decide) (Counter.legal_samples hn.1 hc) l hl
  · obtain ⟨p, hp, hl⟩ := List.mem_flatMap.mp hl
    have hn := h.gauges p hp
    exact legal_linesOf hn (by decide) (Gauge.legal_samples hn.1 p.2) l hl

theorem samples_linesOf (name helpText type : String) (ss : List Sample) :
    Exposition.samples (linesOf name helpText type ss) = ss := by
  simp [linesOf, Exposition.samples, List.filterMap_map]

theorem Registry.samples_lines (r : Registry) : Exposition.samples r.lines = r.samples := by
  have happend (a b : List Line) :
      Exposition.samples (a ++ b) = Exposition.samples a ++ Exposition.samples b :=
    List.filterMap_append
  have hflat {μ : Type} (d : Dict String μ) (f : String × μ → List Line) :
      Exposition.samples (d.flatMap f) = d.flatMap fun p => Exposition.samples (f p) :=
    List.filterMap_flatMap
  rw [Registry.lines, happend, happend, hflat, hflat, hflat]
  simp only [samples_linesOf]
  rfl

/-- **The page of an exportable registry is read back as its samples.** -/
theorem Registry.Exportable.scrape_render {r : Registry} (h : r.Exportable) :
    scrape r.render.toList = some r.samples := by
  rw [Registry.render_toList, scrape_page h.legal, Registry.samples_lines]

/-! ## What is read of a metric -/

/-- The name is not one under which a histogram is written. -/
def Unsuffixed (name : String) : Prop :=
  ∀ base : String, name ≠ base ++ "_bucket" ∧ name ≠ base ++ "_sum" ∧ name ≠ base ++ "_count"

/-- The value of a series of a counter, if it is there. -/
def Registry.series? (r : Registry) (name : String) (labels : List (String × String)) : Option ℕ :=
  (r.counters.get? name).bind fun c => c.values.get? labels

theorem Histogram.name_of_mem_samples {base : String} {h : Histogram} {s : Sample}
    (hs : s ∈ h.samples base) :
    s.name = base ++ "_bucket" ∨ s.name = base ++ "_sum" ∨ s.name = base ++ "_count" := by
  rcases List.mem_append.mp hs with hs | hs
  · obtain ⟨b, -, rfl⟩ := List.mem_map.mp hs
    exact .inl rfl
  · simp only [List.mem_cons, List.not_mem_nil, or_false] at hs
    rcases hs with rfl | rfl | rfl
    · exact .inl rfl
    · exact .inr (.inl rfl)
    · exact .inr (.inr rfl)

/-- **What is read of a counter** is the value of each series, under its labels, and nothing
else. -/
theorem Registry.Exportable.mem_samples_iff {r : Registry} (h : r.Exportable) {x : Sample}
    (hsuffix : Unsuffixed x.name) (hgauge : x.name ∉ r.gauges.map Prod.fst) :
    x ∈ r.samples ↔ ∃ n, r.series? x.name x.labels = some n ∧ x.value = n.repr := by
  constructor
  · intro hs
    rcases List.mem_append.mp hs with hs | hs
    · rcases List.mem_append.mp hs with hs | hs
      · obtain ⟨p, -, hs⟩ := List.mem_flatMap.mp hs
        obtain ⟨hb, hsum, hcount⟩ := hsuffix p.1
        rcases Histogram.name_of_mem_samples hs with hn | hn | hn
        · exact absurd hn hb
        · exact absurd hn hsum
        · exact absurd hn hcount
      · obtain ⟨⟨key, c⟩, hp, hs⟩ := List.mem_flatMap.mp hs
        obtain ⟨⟨l, n⟩, hq, rfl⟩ := List.mem_map.mp hs
        refine ⟨n, Option.bind_eq_some_iff.mpr ⟨c, (Dict.get?_eq_some_iff h.once).mpr hp, ?_⟩, rfl⟩
        exact (Dict.get?_eq_some_iff (h.counters _ hp).2.once).mpr (Counter.mem_sorted.mp hq)
    · obtain ⟨p, hp, hs⟩ := List.mem_flatMap.mp hs
      have hn : x.name = p.1 := congrArg Sample.name (List.mem_singleton.mp hs)
      exact absurd (List.mem_map.mpr ⟨p, hp, hn.symm⟩) hgauge
  · rintro ⟨n, hseries, hvalue⟩
    obtain ⟨c, hc, hv⟩ := Option.bind_eq_some_iff.mp hseries
    have hx : x = { name := x.name, labels := x.labels, value := n.repr } := by rw [← hvalue]
    rw [hx]
    refine List.mem_append_left _ (List.mem_append_right _ (List.mem_flatMap.mpr ⟨(x.name, c),
      Dict.mem_of_get? hc, List.mem_map.mpr ⟨(x.labels, n), ?_, rfl⟩⟩))
    exact Counter.mem_sorted.mpr (Dict.mem_of_get? hv)

/-- **A number is read exactly from a gauge when it has up to six digits.** -/
theorem Gauge.samples_set_iff {n : ℕ} (hn : n ≤ 2 ^ 53) (name : String) (g : Gauge) :
    (g.set n).samples name = [{ name, value := n.repr }] ↔ n < 10 ^ 6 := by
  rw [← PyFloat.general_eq_digits_iff hn]
  simp [Gauge.samples, Gauge.set, generalText, Nat.repr, String.ofList_inj]

end Metrics
