import PreauthGateway.Gateway.Budget
import PreauthGateway.Number.Double
import PreauthGateway.Number.Rank

/-!
# The measured-vs-budget table

`pct` picks the sample at the index `p/100 * (n - 1)`, rounded to the nearest. For the p99 of some
numbers of samples it rounds down, and one sample more than one in a hundred lies above the one
picked.

## Main definitions

* `Budget.pct`, `Budget.table`, `Budget.render`: the percentiles, and the table that is printed of
  them
* `Budget.Recorded`: what a budget can be
* `Budget.PassedOver`: the samples of which too many are above a bound that `pct(99)` is not

## Main results

* `Budget.pct_le_iff`: **the p99 is in the bound when few enough samples are above it**
* `p99_met_iff`: **when a met p99 means that 99 of 100 are inside the bound**
-/

/-- `SLO_P99_MS`. -/
def sloP99Ms : ℚ := 100

/-- `s[k]`, from the end for a negative `k`; `none` is an `IndexError`. -/
def index? {α : Type*} (s : List α) (k : ℤ) : Option α :=
  if 0 ≤ k then s[k.toNat]?
  else if 0 ≤ s.length + k then s[(s.length + k).toNat]? else none

/-- A row of the table. -/
structure BudgetRow where
  stage : String
  budgetMs : ℚ
  p50Ms : ℚ
  p95Ms : ℚ
  p99Ms : ℚ
  headroomMs : ℚ
  overBudget : Bool
  n : ℕ
deriving DecidableEq

namespace Budget

/-! ## The table -/

/-- `pct`. -/
def pct (samples : List ℚ) (p : ℚ) : Option ℚ :=
  if samples = [] then some 0
  else
    let s := samples.insertionSort (· ≤ ·)
    index? s (min (Double.roundEven (p / 100 * (s.length - 1))) (s.length - 1))

/-- The row of a stage; `none` is a `KeyError` of a stage without a histogram. -/
def row (b : Budget) (stage : String) (budget : ℚ) : Option BudgetRow := do
  let h ← b.stages.get? stage
  let p99 ← pct h 99
  let p50 ← pct h 50
  let p95 ← pct h 95
  return {
    stage
    budgetMs := budget
    p50Ms := p50
    p95Ms := p95
    p99Ms := p99
    headroomMs := budget - p99
    overBudget := budget < p99
    n := h.length }

/-- `table`. -/
def table (b : Budget) : Option (List BudgetRow) := b.budget.mapM fun p => b.row p.1 p.2

/-! ## What is printed of it -/

/-- `"{:<w}"`. -/
def ljust (w : ℕ) (text : String) : String :=
  text ++ String.ofList (List.replicate (w - text.length) ' ')

/-- `"{:>w}"`. -/
def rjust (w : ℕ) (text : String) : String :=
  String.ofList (List.replicate (w - text.length) ' ') ++ text

/-- `"{:.df}"` for a positive `d`: the nearest decimal of `d` places, ties to even. -/
def fixed (d : ℕ) (x : ℚ) : String :=
  let scaled := (Double.roundEven (|x| * 10 ^ d)).toNat
  let places := Nat.toDigits 10 (scaled % 10 ^ d)
  (if x < 0 then "-" else "") ++ (scaled / 10 ^ d).repr ++ "." ++
    String.ofList (List.replicate (d - places.length) '0' ++ places)

/-- `"{:<18}{:>10}{:>10}{:>10}{:>10}{:>12}  {}"`. -/
def line (stage budget p50 p95 p99 headroom status : String) : String :=
  ljust 18 stage ++ rjust 10 budget ++ rjust 10 p50 ++ rjust 10 p95 ++ rjust 10 p99 ++
    rjust 12 headroom ++ "  " ++ status

/-- `"{:<18}{:>10.1f}{:>10.2f}{:>10.2f}{:>10.2f}{:>12.2f}  {}"`. -/
def numbers (stage : String) (budget p50 p95 p99 headroom : ℚ) (status : String) : String :=
  line stage (fixed 1 budget) (fixed 2 p50) (fixed 2 p95) (fixed 2 p99) (fixed 2 headroom) status

/-- The line of a row. -/
def rowLine (r : BudgetRow) : String :=
  numbers r.stage r.budgetMs r.p50Ms r.p95Ms r.p99Ms r.headroomMs
    (if r.overBudget then "OVER BUDGET" else "ok")

/-- The line of the whole. -/
def totalLine (b : Budget) (p50 p95 p99 : ℚ) : String :=
  numbers "END TO END" (b.budget.map Prod.snd).sum p50 p95 p99 (sloP99Ms - p99)
    (if p99 ≤ sloP99Ms then "SLO MET" else "SLO BREACHED")

/-- The lines above that of the whole. -/
def tableLines (rows : List BudgetRow) : List String :=
  let rule := String.ofList (List.replicate 84 '-')
  [line "stage" "budget" "p50" "p95" "p99" "headroom" "status", rule] ++ rows.map rowLine ++ [rule]

/-- `render`. -/
def render (b : Budget) : Option String := do
  let rows ← b.table
  let p99 ← pct b.total 99
  let p50 ← pct b.total 50
  let p95 ← pct b.total 95
  return "\n".intercalate (tableLines rows ++ [b.totalLine p50 p95 p99])

/-- The text ends in `SLO MET`, as the status of the whole. -/
def PrintsSloMet (text : String) : Prop := "SLO MET".toList <:+ text.toList

instance (text : String) : Decidable (PrintsSloMet text) :=
  inferInstanceAs (Decidable (_ <:+ _))

/-! ## The sample that is picked -/

theorem index?_natCast {α : Type*} (s : List α) (k : ℕ) : index? s k = s[k]? := by
  simp [index?]

theorem pct_eq_nth? {samples : List ℚ} (h : samples ≠ []) {p : ℚ} {k : ℕ}
    (hk : min (Double.roundEven (p / 100 * (samples.length - 1))) (samples.length - 1) = k) :
    pct samples p = Rank.nth? samples k := by
  unfold pct
  rw [if_neg h]
  simp only [List.length_insertionSort, hk]
  exact index?_natCast _ _

/-- A percentile of samples is one of them. -/
theorem exists_pct (samples : List ℚ) {p : ℚ} (hp : 0 ≤ p) : ∃ v, pct samples p = some v := by
  by_cases h : samples = []
  · exact ⟨0, if_pos h⟩
  have hn : 0 < samples.length := List.length_pos_iff.mpr h
  have hround : 0 ≤ Double.roundEven (p / 100 * (samples.length - 1)) := by
    have hn' : (1 : ℚ) ≤ samples.length := by exact_mod_cast hn
    apply Double.le_roundEven
    push_cast
    have : (0 : ℚ) ≤ samples.length - 1 := by linarith
    positivity
  obtain ⟨k, hk⟩ := Int.eq_ofNat_of_zero_le
    (le_min hround (by omega : (0 : ℤ) ≤ samples.length - 1))
  obtain ⟨v, hv⟩ := Rank.exists_nth? (l := samples) (k := k) (by omega)
  exact ⟨v, (pct_eq_nth? h hk).trans hv⟩

/-- How many samples are above the one that `pct(99)` picks. -/
def spare (n : ℕ) : ℕ := n / 100 + if 52 ≤ n % 100 ∨ n % 200 = 151 then 1 else 0

/-- The index `99/100 * (n - 1)` is rounded up, but for the counts that spare one sample more. -/
theorem index_99 {n : ℕ} (h : 0 < n) :
    min (Double.roundEven ((99 : ℚ) / 100 * (n - 1))) ((n : ℤ) - 1) = (n - 1 - spare n : ℕ) := by
  obtain ⟨m, rfl⟩ := Nat.exists_eq_add_of_lt h
  have hq : (99 : ℚ) / 100 * (((0 + m + 1 : ℕ) : ℚ) - 1) = ((99 * m : ℤ) : ℚ) / (100 : ℕ) := by
    push_cast
    ring
  rw [hq, Double.roundEven_div _ (by norm_num)]
  -- with `m = 100k + s` the quotient is `99k + s`, less one unless `s` is zero
  obtain ⟨k, s, hs, hm⟩ : ∃ k s, s < 100 ∧ m = 100 * k + s :=
    ⟨m / 100, m % 100, Nat.mod_lt _ (by norm_num), (Nat.div_add_mod m 100).symm⟩
  have hspare : spare (0 + m + 1) = k + if 51 ≤ s ∨ (s = 50 ∧ k % 2 = 1) then 1 else 0 := by
    unfold spare
    split_ifs <;> omega
  have hdiv : (99 * (m : ℤ)) / ((100 : ℕ) : ℤ) = 99 * k + s - if s = 0 then 0 else 1 := by
    split_ifs <;> omega
  have hmod : (99 * (m : ℤ)) % ((100 : ℕ) : ℤ) = if s = 0 then 0 else 100 - s := by
    split_ifs <;> omega
  rw [hdiv, hmod, hspare]
  split_ifs <;> omega

/-- A sample is in a bound or above it. -/
theorem length_eq_countP (samples : List ℚ) (bound : ℚ) :
    samples.length = samples.countP (· ≤ bound) + samples.countP (bound < ·) := by
  simpa using List.length_eq_countP_add_countP (l := samples) (· ≤ bound)

/-- **The p99 is in a bound exactly when no more samples than are spared are above it.** -/
theorem pct_le_iff {samples : List ℚ} (h : samples ≠ []) (bound : ℚ) :
    ∃ v, pct samples 99 = some v ∧
      (v ≤ bound ↔ samples.countP (bound < ·) ≤ spare samples.length) := by
  have hn : 0 < samples.length := List.length_pos_iff.mpr h
  have hspare : spare samples.length < samples.length := by
    unfold spare
    split_ifs <;> omega
  obtain ⟨v, hv⟩ := Rank.exists_nth? (l := samples) (k := samples.length - 1 - spare samples.length)
    (by omega)
  refine ⟨v, (pct_eq_nth? h (index_99 hn)).trans hv, ?_⟩
  have hcount := length_eq_countP samples bound
  rw [Rank.le_iff_of_nth? hv]
  omega

/-! ## What a budget can be -/

/-- A budget, with what was recorded in it. -/
inductive Recorded : Budget → Prop
  | make (budget : Dict String ℚ) : Recorded (make budget)
  | record {b : Budget} (stage : String) (ms : ℚ) : Recorded b → Recorded (b.record stage ms)
  | recordTotal {b : Budget} (ms : ℚ) : Recorded b → Recorded (b.recordTotal ms)

theorem get?_map_nil {budget : Dict String ℚ} {p : String × ℚ} (hp : p ∈ budget) :
    Dict.get? p.1 (budget.map fun p => (p.1, ([] : List ℚ))) ≠ none := by
  rw [ne_eq, Dict.get?_eq_none, List.map_map, not_not]
  exact List.mem_map_of_mem hp

/-- Every stage with a budget has a histogram. -/
theorem Recorded.exists_histogram {b : Budget} (h : b.Recorded) {p : String × ℚ}
    (hp : p ∈ b.budget) : ∃ samples, b.stages.get? p.1 = some samples := by
  rw [← Option.ne_none_iff_exists']
  induction h with
  | make budget => exact get?_map_nil hp
  | record stage ms _ ih =>
    by_cases hs : p.1 = stage
    · rw [Budget.record, hs, Dict.get?_update_self]
      exact Option.some_ne_none _
    · rw [Budget.record, Dict.get?_update_of_ne hs]
      exact ih hp
  | recordTotal ms _ ih => exact ih hp

/-- Decisions of one stage. -/
def recordAll (stage : String) (samples : List ℚ) (b : Budget) : Budget :=
  samples.foldl (fun b ms => (b.record stage ms).recordTotal ms) b

theorem Recorded.recordAll {b : Budget} (h : b.Recorded) (stage : String) (samples : List ℚ) :
    (b.recordAll stage samples).Recorded :=
  List.foldlRecOn samples _ h fun _ hb ms _ => .recordTotal ms (.record stage ms hb)

theorem samples_recordAll (stage : String) (samples : List ℚ) (b : Budget) :
    (b.recordAll stage samples).samples stage = b.samples stage ++ samples := by
  induction samples generalizing b with
  | nil => exact (List.append_nil _).symm
  | cons ms samples ih =>
    have hms : ((b.record stage ms).recordTotal ms).samples stage = b.samples stage ++ [ms] :=
      samples_record_self stage ms b
    rw [recordAll, List.foldl_cons, ← recordAll, ih, hms, List.append_assoc, List.singleton_append]

theorem total_recordAll (stage : String) (samples : List ℚ) (b : Budget) :
    (b.recordAll stage samples).total = b.total ++ samples := by
  induction samples generalizing b with
  | nil => exact (List.append_nil _).symm
  | cons ms samples ih =>
    rw [recordAll, List.foldl_cons, ← recordAll, ih, total_recordTotal, List.append_assoc,
      List.singleton_append]
    rfl

theorem budget_recordAll (stage : String) (samples : List ℚ) (b : Budget) :
    (b.recordAll stage samples).budget = b.budget := by
  induction samples generalizing b with
  | nil => rfl
  | cons ms samples ih =>
    rw [recordAll, List.foldl_cons, ← recordAll, ih]
    rfl

/-! ## The table of a budget -/

theorem exists_mapM {α β : Type*} {f : α → Option β} {l : List α} (h : ∀ a ∈ l, ∃ c, f a = some c) :
    ∃ cs, l.mapM f = some cs ∧ (∀ c ∈ cs, ∃ a ∈ l, f a = some c) ∧
      ∀ a ∈ l, ∃ c ∈ cs, f a = some c := by
  induction l with
  | nil => exact ⟨[], rfl, by simp, by simp⟩
  | cons a l ih =>
    obtain ⟨c, hc⟩ := h a List.mem_cons_self
    obtain ⟨cs, hcs, hof, hto⟩ := ih fun x hx => h x (List.mem_cons_of_mem _ hx)
    refine ⟨c :: cs, by simp [List.mapM_cons, hc, hcs], fun d hd => ?_, fun x hx => ?_⟩
    · rcases List.mem_cons.mp hd with rfl | hd
      · exact ⟨a, List.mem_cons_self, hc⟩
      · obtain ⟨x, hx, hfx⟩ := hof d hd
        exact ⟨x, List.mem_cons_of_mem _ hx, hfx⟩
    · rcases List.mem_cons.mp hx with rfl | hx
      · exact ⟨c, List.mem_cons_self, hc⟩
      · obtain ⟨d, hd, hfx⟩ := hto x hx
        exact ⟨d, List.mem_cons_of_mem _ hd, hfx⟩

/-- What the row of a stage says of its samples. -/
theorem exists_row {b : Budget} {stage : String} {samples : List ℚ}
    (h : b.stages.get? stage = some samples) (budget : ℚ) :
    ∃ r, b.row stage budget = some r ∧ r.stage = stage ∧ r.budgetMs = budget ∧
      pct (b.samples r.stage) 99 = some r.p99Ms ∧ (r.overBudget = false ↔ r.p99Ms ≤ r.budgetMs) := by
  obtain ⟨p99, h99⟩ := exists_pct samples (p := 99) (by norm_num)
  obtain ⟨p50, h50⟩ := exists_pct samples (p := 50) (by norm_num)
  obtain ⟨p95, h95⟩ := exists_pct samples (p := 95) (by norm_num)
  refine ⟨⟨stage, budget, p50, p95, p99, budget - p99, budget < p99, samples.length⟩,
    by simp [row, h, h99, h50, h95], rfl, rfl, ?_, by simp⟩
  rw [Budget.samples, h]
  exact h99

/-- **Every budget has a table** with a row for each stage, which compares the p99 of the stage with
its budget. -/
theorem Recorded.exists_table {b : Budget} (h : b.Recorded) :
    ∃ rows, b.table = some rows ∧
      (∀ r ∈ rows, pct (b.samples r.stage) 99 = some r.p99Ms ∧
        (r.overBudget = false ↔ r.p99Ms ≤ r.budgetMs)) ∧
      ∀ p ∈ b.budget, ∃ r ∈ rows, r.stage = p.1 ∧ r.budgetMs = p.2 := by
  have hrow : ∀ p ∈ b.budget, ∃ r, b.row p.1 p.2 = some r ∧ r.stage = p.1 ∧ r.budgetMs = p.2 ∧
      pct (b.samples r.stage) 99 = some r.p99Ms ∧ (r.overBudget = false ↔ r.p99Ms ≤ r.budgetMs) := by
    intro p hp
    obtain ⟨samples, hs⟩ := h.exists_histogram hp
    exact exists_row hs p.2
  obtain ⟨rows, hrows, hof, hto⟩ := exists_mapM (f := fun p => b.row p.1 p.2) fun p hp =>
    (hrow p hp).imp fun r hr => hr.1
  refine ⟨rows, hrows, fun r hr => ?_, fun p hp => ?_⟩
  · obtain ⟨p, hp, hpr⟩ := hof r hr
    obtain ⟨r', hr', -, -, h99, hover⟩ := hrow p hp
    cases hpr.symm.trans hr'
    exact ⟨h99, hover⟩
  · obtain ⟨r, hr, hpr⟩ := hto p hp
    obtain ⟨r', hr', hstage, hbudget, -⟩ := hrow p hp
    cases hpr.symm.trans hr'
    exact ⟨r, hr, hstage, hbudget⟩

/-- The last of the lines is what the text ends in. -/
theorem suffix_intercalate (sep : String) (lines : List String) (text : String) :
    text.toList <:+ (sep.intercalate (lines ++ [text])).toList := by
  rw [String.toList_intercalate, List.map_append, List.map_singleton]
  induction lines.map String.toList with
  | nil => simp
  | cons l lines ih =>
    rw [List.cons_append, List.intercalate_cons_of_ne_nil (by simp)]
    exact ih.trans (List.suffix_append _ _)

/-- The last line ends in its status. -/
theorem suffix_numbers (stage : String) (budget p50 p95 p99 headroom : ℚ) (status : String) :
    status.toList <:+ (numbers stage budget p50 p95 p99 headroom status).toList := by
  rw [numbers, line, String.toList_append]
  exact List.suffix_append _ _

/-- **The text of a budget ends in `SLO MET` exactly when its p99 is in the bound.** -/
theorem Recorded.exists_render {b : Budget} (h : b.Recorded) :
    ∃ text p99, b.render = some text ∧ pct b.total 99 = some p99 ∧
      (PrintsSloMet text ↔ p99 ≤ sloP99Ms) := by
  obtain ⟨rows, hrows, -⟩ := h.exists_table
  obtain ⟨p99, h99⟩ := exists_pct b.total (p := 99) (by norm_num)
  obtain ⟨p50, h50⟩ := exists_pct b.total (p := 50) (by norm_num)
  obtain ⟨p95, h95⟩ := exists_pct b.total (p := 95) (by norm_num)
  let status := if p99 ≤ sloP99Ms then "SLO MET" else "SLO BREACHED"
  have hrender : b.render =
      some ("\n".intercalate (tableLines rows ++ [b.totalLine p50 p95 p99])) := by
    simp [render, hrows, h99, h50, h95]
  have hstatus : status.toList <:+
      ("\n".intercalate (tableLines rows ++ [b.totalLine p50 p95 p99])).toList :=
    (suffix_numbers _ _ _ _ _ _ status).trans (suffix_intercalate _ _ _)
  refine ⟨_, p99, hrender, h99, fun hmet => ?_, fun hle => ?_⟩
  · by_contra hgt
    rw [show status = "SLO BREACHED" from if_neg hgt] at hstatus
    exact absurd (List.suffix_of_suffix_length_le hmet hstatus (by decide)) (by decide)
  · rwa [show status = "SLO MET" from if_pos hle] at hstatus

/-! ## A met p99 -/

/-- At least 99 percent of the samples are in the bound. -/
def Inside99 (samples : List ℚ) (bound : ℚ) : Prop :=
  99 * samples.length ≤ 100 * samples.countP (· ≤ bound)

/-- One sample more than one in a hundred is above the bound, and the number of samples is one for
which the p99 is picked below all of these. -/
def PassedOver (samples : List ℚ) (bound : ℚ) : Prop :=
  (52 ≤ samples.length % 100 ∨ samples.length % 200 = 151) ∧
    samples.countP (bound < ·) = samples.length / 100 + 1

instance (samples : List ℚ) (bound : ℚ) : Decidable (Inside99 samples bound) :=
  inferInstanceAs (Decidable (_ ≤ _))

instance (samples : List ℚ) (bound : ℚ) : Decidable (PassedOver samples bound) :=
  inferInstanceAs (Decidable (_ ∧ _))

theorem inside99_iff {samples : List ℚ} {bound : ℚ} :
    Inside99 samples bound ↔ samples.countP (bound < ·) ≤ samples.length / 100 := by
  have hcount := length_eq_countP samples bound
  unfold Inside99
  omega

/-- When a p99 that is in a bound means that 99 percent of the samples are. -/
theorem inside99_of_pct_le_iff {samples : List ℚ} (h : samples ≠ []) {bound v : ℚ}
    (hv : pct samples 99 = some v) :
    (v ≤ bound → Inside99 samples bound) ↔ ¬ PassedOver samples bound := by
  obtain ⟨w, hw, hle⟩ := pct_le_iff h bound
  cases hv.symm.trans hw
  rw [hle, inside99_iff, PassedOver, spare]
  split_ifs with hmod
  · simp only [hmod, true_and]
    omega
  · simp [hmod]

end Budget

open Budget

/-- **A p99 that is in its bound means that 99 of 100 samples are, exactly when the samples above it
are not passed over.** -/
theorem p99_met_iff {b : Budget} (h : b.Recorded) :
    (∃ rows, b.table = some rows ∧ ∀ r ∈ rows, b.samples r.stage ≠ [] →
      ((r.overBudget = false → Inside99 (b.samples r.stage) r.budgetMs) ↔
        ¬ PassedOver (b.samples r.stage) r.budgetMs)) ∧
    ∃ text, b.render = some text ∧ (b.total ≠ [] →
      ((PrintsSloMet text → Inside99 b.total sloP99Ms) ↔ ¬ PassedOver b.total sloP99Ms)) := by
  constructor
  · obtain ⟨rows, hrows, hmem, -⟩ := h.exists_table
    refine ⟨rows, hrows, fun r hr hne => ?_⟩
    obtain ⟨h99, hover⟩ := hmem r hr
    rw [hover]
    exact inside99_of_pct_le_iff hne h99
  · obtain ⟨text, p99, htext, h99, hmet⟩ := h.exists_render
    refine ⟨text, htext, fun hne => ?_⟩
    rw [hmet]
    exact inside99_of_pct_le_iff hne h99

/-- A hundred samples, of which one is above both bounds. -/
def hundredSamples : List ℚ := List.replicate 99 25 ++ [140]

/-- The p99 is in both bounds, and so are 99 of the samples. -/
theorem p99_met_iff_hundred :
    let b := (Budget.make budgetMs).recordAll "model" hundredSamples
    (∃ rows, b.table = some rows ∧ ∃ r ∈ rows, r.stage = "model" ∧ r.budgetMs = 30 ∧
      r.overBudget = false ∧ Inside99 (b.samples r.stage) r.budgetMs) ∧
    ∃ text, b.render = some text ∧ (PrintsSloMet text → Inside99 b.total sloP99Ms) := by
  intro b
  have hrec : b.Recorded := (Recorded.make budgetMs).recordAll "model" hundredSamples
  have hstage : b.samples "model" = hundredSamples := samples_recordAll _ _ _
  have htotal : b.total = hundredSamples := total_recordAll _ _ _
  have hbudget : b.budget = budgetMs := budget_recordAll _ _ _
  obtain ⟨⟨rows, hrows, hiff⟩, text, htext, hmet⟩ := p99_met_iff hrec
  obtain ⟨rows', hrows', hmem, hto⟩ := hrec.exists_table
  obtain rfl : rows' = rows := Option.some.inj (hrows'.symm.trans hrows)
  obtain ⟨r, hr, hmodel, hthirty⟩ := hto ("model", 30) (by rw [hbudget]; decide +kernel)
  have hpass := hiff r hr
  obtain ⟨h99, hover⟩ := hmem r hr
  rw [hmodel, hstage, hthirty] at hpass
  rw [hmodel, hstage] at h99
  have hp99 : pct hundredSamples 99 = some 25 := by decide +kernel
  have hin : r.overBudget = false := by
    rw [hover, Option.some.inj (h99.symm.trans hp99), hthirty]
    decide +kernel
  refine ⟨⟨rows', hrows, r, hr, hmodel, hthirty, hin, ?_⟩, text, htext, ?_⟩
  · rw [hmodel, hstage, hthirty]
    exact (hpass (by decide +kernel)).mpr (by decide +kernel) hin
  · rw [htotal] at hmet ⊢
    exact (hmet (by decide +kernel)).mpr (by decide +kernel)

/-- Of 52 samples one is above its bound, and the p99 is not. -/
theorem p99_met_without_99_of_100 :
    (¬ ∀ b : Budget, b.Recorded → ∀ rows, b.table = some rows → ∀ r ∈ rows,
      b.samples r.stage ≠ [] → r.overBudget = false → Inside99 (b.samples r.stage) r.budgetMs) ∧
    ¬ ∀ b : Budget, b.Recorded → ∀ text, b.render = some text → b.total ≠ [] →
      PrintsSloMet text → Inside99 b.total sloP99Ms := by
  let samples : List ℚ := List.replicate 51 1 ++ [140]
  let b := (Budget.make budgetMs).recordAll "model" samples
  have hrec : b.Recorded := (Recorded.make budgetMs).recordAll "model" samples
  have hne : samples ≠ [] := by decide
  constructor
  · intro hall
    have hstage : b.samples "model" = samples := samples_recordAll _ _ _
    obtain ⟨rows, hrows, hmem, hto⟩ := hrec.exists_table
    have hbudget : b.budget = budgetMs := budget_recordAll _ _ _
    obtain ⟨r, hr, hmodel, hthirty⟩ := hto ("model", 30) (by rw [hbudget]; decide +kernel)
    obtain ⟨h99, hover⟩ := hmem r hr
    have hin := hall b hrec rows hrows r hr
    rw [hover] at hin
    rw [hmodel, hstage] at h99 hin
    rw [hthirty] at hin
    exact (inside99_of_pct_le_iff hne h99).mp (hin hne) (by decide +kernel)
  · intro hall
    have htotal : b.total = samples := total_recordAll _ _ _
    obtain ⟨text, p99, htext, h99, hmet⟩ := hrec.exists_render
    have hin := hall b hrec text htext
    rw [hmet] at hin
    rw [htotal] at h99 hin
    exact (inside99_of_pct_le_iff hne h99).mp (hin hne) (by decide +kernel)
