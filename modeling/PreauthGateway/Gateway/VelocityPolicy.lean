import PreauthGateway.Gateway.Pipeline

/-!
# The policy for a blind counter

A `VelocityGate` reads the counter and reports the time it took whatever happened. When the counter
cannot be seen, it approves up to a ceiling and marks the decision.

## Main definitions

* `VelocityOutcome`, `GateDecision`, `VelocityGate`
* `VelocityGate.read`, `VelocityGate.decide`

## Main results

* `VelocityGate.decide_blind`: what is approved blind
-/

structure VelocityOutcome where
  count : Option ℕ
  seen : Bool
  elapsedMs : ℚ
  overBudget : Bool := false
  error : String := ""

/-- The decision of a `VelocityGate`. -/
structure GateDecision where
  approved : Bool
  reason : String
  velocitySeen : Bool
  velocityCount : Option ℕ := none
  elapsedMs : ℚ := 0

/-- `DEFAULT_BLIND_APPROVE_CEILING_MINOR`. -/
def defaultBlindApproveCeilingMinor : ℤ := 10000

/-- `VELOCITY_BUDGET_MS`. -/
def velocityBudgetMs : ℚ := 20

structure VelocityGate (V : Type*) where
  counter : V
  budgetMs : ℚ := velocityBudgetMs
  ceiling : ℤ := defaultBlindApproveCeilingMinor
  threshold : ℤ := 5
  blindApprovals : ℕ := 0
  blindDeclines : ℕ := 0
  overBudget : ℕ := 0
  seen : ℕ := 0

/-- What one call of a gate meets: its milliseconds, and the name of the exception if the counter
raises one. -/
structure GateCircumstances where
  elapsedMs : ℚ
  error : String

namespace VelocityGate

variable {V : Type*}

/-- The count of the reads that took longer than the budget. -/
def countBreach (out : VelocityOutcome) (v : VelocityGate V) : VelocityGate V :=
  if out.overBudget then { v with overBudget := v.overBudget + 1 } else v

theorem ceiling_countBreach (out : VelocityOutcome) (v : VelocityGate V) :
    (countBreach out v).ceiling = v.ceiling := by
  unfold countBreach
  split <;> rfl

variable [VelocityCounter V]

/-- `read`. -/
def read (c : GateCircumstances) (key : PyStr) (nowMs : ℤ) (v : VelocityGate V) :
    VelocityOutcome × VelocityGate V :=
  let (count, counter) := VelocityCounter.incrAndCount key nowMs v.counter
  let v := { v with counter }
  match count with
  | none => (⟨none, false, c.elapsedMs, v.budgetMs < c.elapsedMs, c.error⟩, v)
  | some n => (⟨some n, true, c.elapsedMs, v.budgetMs < c.elapsedMs, ""⟩, v)

/-- `decide`. -/
def decide (c : GateCircumstances) (key : PyStr) (amountMinor nowMs : ℤ) (v : VelocityGate V) :
    GateDecision × VelocityGate V :=
  let (out, v) := v.read c key nowMs
  let v := v.countBreach out
  if out.seen then
    -- a call that was seen has a count
    let n := out.count.getD 0
    let v := { v with seen := v.seen + 1 }
    if v.threshold < (n : ℤ) then
      (⟨false, "velocity " ++ toString n ++ " over threshold " ++ toString v.threshold, true,
        out.count, out.elapsedMs⟩, v)
    else
      (⟨true, "velocity " ++ toString n ++ " within threshold", true, out.count, out.elapsedMs⟩, v)
  else if amountMinor ≤ v.ceiling then
    (⟨true, "velocity unavailable (" ++ out.error ++ "); approved blind under the " ++
      toString v.ceiling ++ " minor ceiling", false, none, out.elapsedMs⟩,
      { v with blindApprovals := v.blindApprovals + 1 })
  else
    (⟨false, "velocity unavailable (" ++ out.error ++ "); " ++ toString amountMinor ++
      " minor exceeds the " ++ toString v.ceiling ++ " minor blind ceiling", false, none,
      out.elapsedMs⟩, { v with blindDeclines := v.blindDeclines + 1 })

/-- **What is approved blind**: what the ceiling allows, and the decision is marked. -/
theorem decide_blind (c : GateCircumstances) {key : PyStr} (amountMinor : ℤ) {nowMs : ℤ}
    {v : VelocityGate V} (h : (VelocityCounter.incrAndCount key nowMs v.counter).1 = none) :
    ((v.decide c key amountMinor nowMs).1.approved = true ↔ amountMinor ≤ v.ceiling) ∧
      (v.decide c key amountMinor nowMs).1.velocitySeen = false := by
  have hread : v.read c key nowMs =
      (⟨none, false, c.elapsedMs, v.budgetMs < c.elapsedMs, c.error⟩,
        { v with counter := (VelocityCounter.incrAndCount key nowMs v.counter).2 }) := by
    unfold read
    rw [← Prod.mk.eta (p := VelocityCounter.incrAndCount key nowMs v.counter), h]
  unfold decide
  rw [hread]
  dsimp only
  rw [if_neg Bool.false_ne_true, ceiling_countBreach]
  by_cases hle : amountMinor ≤ v.ceiling
  · rw [if_pos hle]
    exact ⟨iff_of_true rfl hle, rfl⟩
  · rw [if_neg hle]
    exact ⟨iff_of_false Bool.false_ne_true hle, rfl⟩

end VelocityGate
