import Mathlib

/-!
# The circuit breaker

The breaker opens after `threshold` failures in a row. Reading `is_open` after the cooldown closes
it again and forgets the failures. The readings of `time.monotonic` are inputs.

## Main definitions

* `CircuitBreaker`, `CircuitBreaker.isOpen`, `CircuitBreaker.recordFailure`,
  `CircuitBreaker.recordSuccess`
* `Attempt`, `CircuitBreaker.attempt`: a request that reaches the model behind the breaker

## Main results

* `CircuitBreaker.attempt_open`, `CircuitBreaker.attempt_closed`, `CircuitBreaker.attempt_halfOpen`:
  what an attempt does
-/

structure CircuitBreaker where
  threshold : ℤ := 5
  cooldownS : ℚ := 2
  failures : ℕ := 0
  openedAt : Option ℚ := none

namespace CircuitBreaker

/-- `is_open`, which also closes an open breaker after the cooldown. -/
def isOpen (now : ℚ) (b : CircuitBreaker) : Bool × CircuitBreaker :=
  match b.openedAt with
  | none => (false, b)
  | some t =>
    if b.cooldownS < now - t then (false, { b with openedAt := none, failures := 0 }) else (true, b)

/-- `record_failure`. -/
def recordFailure (now : ℚ) (b : CircuitBreaker) : CircuitBreaker :=
  let b := { b with failures := b.failures + 1 }
  if b.threshold ≤ b.failures ∧ b.openedAt = none then { b with openedAt := some now } else b

/-- `record_success`. -/
def recordSuccess (b : CircuitBreaker) : CircuitBreaker := { b with failures := 0, openedAt := none }

end CircuitBreaker

/-- A request that reaches the model: the readings of the clock, for `is_open` and after a failure,
and whether the model answers if it is called. -/
structure Attempt where
  now : ℚ
  failureNow : ℚ
  ok : Bool

namespace CircuitBreaker

/-- The breaker after a request that reaches it, and whether the model was called. -/
def attempt (b : CircuitBreaker) (a : Attempt) : Bool × CircuitBreaker :=
  let (isOpen, b) := b.isOpen a.now
  if isOpen then (false, b)
  else (true, if a.ok then b.recordSuccess else b.recordFailure a.failureNow)

/-- The cooldown of an open breaker has passed at `now`. -/
def CooledDown (now : ℚ) (b : CircuitBreaker) : Prop := ∃ t ∈ b.openedAt, b.cooldownS < now - t

section Attempt

variable {b : CircuitBreaker} {a : Attempt}

/-- An open breaker does not let the model be called, and stays as it is. -/
theorem attempt_open (h : b.openedAt ≠ none) (hc : ¬ b.CooledDown a.now) :
    b.attempt a = (false, b) := by
  obtain ⟨t, ht⟩ := Option.ne_none_iff_exists'.mp h
  have hle : ¬ b.cooldownS < a.now - t := fun hlt => hc ⟨t, ht, hlt⟩
  simp [attempt, isOpen, ht, hle]

/-- A closed breaker lets it be called. -/
theorem attempt_closed (h : b.openedAt = none) :
    b.attempt a = (true, if a.ok then b.recordSuccess else b.recordFailure a.failureNow) := by
  simp [attempt, isOpen, h]

/-- So does an open one after the cooldown, which forgets the failures first. -/
theorem attempt_halfOpen (h : b.CooledDown a.now) :
    b.attempt a = (true, if a.ok then b.recordSuccess
      else { b with openedAt := none, failures := 0 }.recordFailure a.failureNow) := by
  obtain ⟨t, ht, hlt⟩ := h
  simp [attempt, isOpen, Option.mem_def.mp ht, hlt, recordSuccess]

/-- The model is called unless the breaker is open and the cooldown has not passed. -/
theorem attempt_called : (b.attempt a).1 = true ↔ b.openedAt = none ∨ b.CooledDown a.now := by
  by_cases h : b.openedAt = none
  · simp [attempt_closed h, h]
  · by_cases hc : b.CooledDown a.now
    · simp [attempt_halfOpen hc, hc]
    · simp [attempt_open h hc, h, hc]

theorem settings_recordFailure (now : ℚ) :
    (b.recordFailure now).threshold = b.threshold ∧ (b.recordFailure now).cooldownS = b.cooldownS := by
  unfold recordFailure
  dsimp only
  split <;> exact ⟨rfl, rfl⟩

/-- An attempt leaves the settings alone. -/
theorem settings_attempt :
    (b.attempt a).2.threshold = b.threshold ∧ (b.attempt a).2.cooldownS = b.cooldownS := by
  by_cases h : b.openedAt = none
  · rw [attempt_closed h]
    split
    · exact ⟨rfl, rfl⟩
    · exact settings_recordFailure _
  · by_cases hc : b.CooledDown a.now
    · rw [attempt_halfOpen hc]
      split
      · exact ⟨rfl, rfl⟩
      · exact settings_recordFailure _
    · rw [attempt_open h hc]
      exact ⟨rfl, rfl⟩

/-- A failure of a closed breaker opens it when it is one too many. -/
theorem openedAt_recordFailure (h : b.openedAt = none) (now : ℚ) :
    (b.recordFailure now).openedAt =
      if b.threshold ≤ (b.failures : ℤ) + 1 then some now else none := by
  unfold recordFailure
  simp only [h, and_true]
  push_cast
  split <;> rfl

end Attempt

end CircuitBreaker
