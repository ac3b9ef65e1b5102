import PreauthGateway.Program.Dict

/-!
# The latency budget

A `Budget` keeps, for every stage of a decision and for the whole of it, the latencies measured.

## Main definitions

* `Stage`, `Budget`, `Budget.record`, `Budget.recordTotal`
-/

/-- The stages of a decision. -/
inductive Stage
  | parseValidate
  | hotRules
  | velocity
  | features
  | model
  | decideLog
deriving DecidableEq

namespace Stage

/-- The name a stage is recorded under. -/
def name : Stage → String
  | parseValidate => "parse_validate"
  | hotRules => "hot_rules"
  | velocity => "velocity"
  | features => "features"
  | model => "model"
  | decideLog => "decide_log"

end Stage

/-- `BUDGET_MS`. -/
def budgetMs : Dict String ℚ :=
  [("parse_validate", 5), ("hot_rules", 15), ("velocity", 20), ("features", 20), ("model", 30),
    ("decide_log", 10)]

/-- The budget of each stage, the latencies of each stage, and those of whole decisions. -/
structure Budget where
  budget : Dict String ℚ
  stages : Dict String (List ℚ)
  total : List ℚ

namespace Budget

/-- `Budget(budget_ms)`. -/
def make (budget : Dict String ℚ) : Budget :=
  { budget, stages := budget.map fun p => (p.1, []), total := [] }

/-- `record`: a stage without a histogram gets one. -/
def record (stage : String) (ms : ℚ) (b : Budget) : Budget :=
  { b with stages := b.stages.update stage [] (· ++ [ms]) }

/-- `record_total`. -/
def recordTotal (ms : ℚ) (b : Budget) : Budget := { b with total := b.total ++ [ms] }

/-- The latencies recorded for a stage. -/
def samples (b : Budget) (stage : String) : List ℚ := (b.stages.get? stage).getD []

@[simp] theorem total_recordTotal (ms : ℚ) (b : Budget) :
    (b.recordTotal ms).total = b.total ++ [ms] := rfl

theorem samples_record_self (stage : String) (ms : ℚ) (b : Budget) :
    (b.record stage ms).samples stage = b.samples stage ++ [ms] := by
  simp [samples, record]

theorem samples_record_of_ne {stage s : String} (h : s ≠ stage) (ms : ℚ) (b : Budget) :
    (b.record stage ms).samples s = b.samples s := by
  simp only [samples, record, Dict.get?_update_of_ne h]

/-- Samples are only added. -/
theorem samples_record_grows (stage s : String) (ms : ℚ) (b : Budget) :
    b.samples s <+: (b.record stage ms).samples s := by
  by_cases h : s = stage
  · rw [h, samples_record_self]
    exact List.prefix_append _ _
  · rw [samples_record_of_ne h]

theorem nodup_record {b : Budget} (h : (b.stages.map Prod.fst).Nodup) (stage : String) (ms : ℚ) :
    ((b.record stage ms).stages.map Prod.fst).Nodup := Dict.nodup_set h _ _

end Budget
