import PreauthGateway.Gateway.Breaker
import PreauthGateway.Gateway.Budget
import PreauthGateway.Gateway.Decision
import PreauthGateway.Gateway.Features
import PreauthGateway.Velocity.SafeCounter
import PreauthGateway.Wal.AuditWal

/-!
# The decision pipeline

`decide` validates a request, applies the hot rules, reads the velocity counter, assembles the
features, asks the model behind the breaker, and applies the decision policy. Without a score the
amount decides, see `degradationTiers`. Every exit goes through `finish`, which writes the audit
record.

The velocity counter and the audit log are whatever has their calls. The clock and the model are
inputs of each call, see `Circumstances`; what the operators of the service set between calls is in
`Surroundings`.

## Main definitions

* `VelocityCounter`, `AuditSink`: what the gateway is given
* `Gateway`, `Gateway.degrade`, `Gateway.finish`, `Gateway.decide`
* `GatewayCall`, `Gateway.step`: a gateway as a machine that answers calls
-/

/-- A counter with `incr_and_count`; `none` is its `Unavailable`. -/
class VelocityCounter (V : Type*) where
  incrAndCount : PyStr → ℤ → V → Option ℕ × V

instance : VelocityCounter SafeCounter where
  incrAndCount key nowMs c := c.incrAndCount key nowMs

/-- A log with `write`, which adds one record. -/
class AuditSink (A : Type*) where
  write : AppendClock → JsonObject → A → A
  records : A → List JsonObject
  records_write : ∀ c r a, records (write c r a) = records a ++ [r]

/-- The log in memory: the records not yet drained, and those drained. -/
structure AuditLog where
  buffer : List JsonObject := []
  shipped : List JsonObject := []
  sinkUp : Bool := true

namespace AuditLog

/-- `write`. -/
def write (record : JsonObject) (a : AuditLog) : AuditLog := { a with buffer := a.buffer ++ [record] }

/-- `drain`, with the number of records it moved. -/
def drain (a : AuditLog) : ℕ × AuditLog :=
  if a.sinkUp then
    (a.buffer.length, { a with shipped := a.shipped ++ a.buffer, buffer := [] })
  else (0, a)

end AuditLog

instance : AuditSink AuditLog where
  write _ record a := a.write record
  records a := a.shipped ++ a.buffer
  records_write _ r a := (List.append_assoc a.shipped a.buffer [r]).symm

instance : AuditSink DurableAuditLog where
  write c record d := d.write c record
  records d := d.shipped ++ d.buffer
  records_write _ r d := (List.append_assoc d.shipped d.buffer [r]).symm

/-! ## The degradation policy -/

/-- A behaviour when the model is unavailable. -/
inductive Behaviour
  | approve
  | rulesOnly
  | review
deriving DecidableEq

/-- `DEGRADATION_TIERS`: a ceiling of `none` is infinite. -/
def degradationTiers : List (Option ℤ × Behaviour) :=
  [(some 5000, .approve), (some 50000, .rulesOnly), (none, .review)]

/-- `velocity_available and v_card > limit`. -/
def exceeds (limit : ℕ) (count : Option ℕ) : Prop := ∃ n ∈ count, limit < n

instance (limit : ℕ) (count : Option ℕ) : Decidable (exceeds limit count) :=
  match count with
  | none => isFalse (by simp [exceeds])
  | some n => decidable_of_iff (limit < n) (by simp [exceeds])

/-- The loop of `_degrade` over the tiers. -/
def degradeLoop (amountMinor : ℤ) (count : Option ℕ) :
    List (Option ℤ × Behaviour) → Verdict × Tier
  | [] => (.review, .failClosed)
  | (ceiling, behaviour) :: tiers =>
    if ∀ c ∈ ceiling, amountMinor < c then
      match behaviour with
      | .approve => (.approve, .failOpen)
      | .rulesOnly => if exceeds 6 count then (.decline, .rulesOnly) else (.approve, .rulesOnly)
      | .review => (.review, .failClosed)
    else degradeLoop amountMinor count tiers

/-- `_degrade`. -/
def degrade (amountMinor : ℤ) (count : Option ℕ) : Verdict × Tier :=
  degradeLoop amountMinor count degradationTiers

/-! ## The decision policy -/

/-- What the feature stage yields. -/
structure Features where
  reasons : List Reason
  discount : PyFloat
  usable : Bool
  complete : Bool

/-- `bundle.reasons()`. -/
def FeatureBundle.reasons (b : FeatureBundle) : List Reason :=
  (if b.cacheDown then [.featureCacheDown] else []) ++ b.missingHard.map .missingHardFeature ++
    b.staleSoft.map .staleSoftFeature

/-- The features of an assembled bundle. -/
def FeatureBundle.toFeatures (b : FeatureBundle) : Features :=
  { reasons := b.reasons
    discount := b.confidenceDiscount
    usable := b.usableForModel
    complete := b.complete }

/-- The threshold of a request, and the reason when it is a discounted one. -/
def effectiveThreshold (modelThreshold : PyFloat) (f : Features) : PyFloat × List Reason :=
  if f.discount.Truthy then
    (modelThreshold.sub (f.discount.mul modelThreshold), [.confidenceDiscountedBy f.discount])
  else if f.complete then (modelThreshold.sub (f.discount.mul modelThreshold), [])
  else (modelThreshold.mul (.ofRat (4 / 5)), [.confidenceDiscounted])

/-- The decision for a score. -/
def judge (threshold score : PyFloat) : Verdict :=
  let reviewFloor := threshold.mul (.ofRat (4 / 5))
  let decision : Verdict := if threshold.Le score then .decline else .approve
  if reviewFloor.Le score ∧ score.Lt threshold then .review else decision

/-! ## The gateway -/

/-- A gateway over a velocity counter and an audit log. -/
structure Gateway (V A : Type*) where
  velocity : V
  audit : A
  budget : Budget
  breaker : CircuitBreaker := {}
  featureCacheUp : Bool := true
  featureCache : Option FeatureCache := none
  sourceCounts : Dict String ℕ := []
  modelThreshold : PyFloat := .ofRat (3 / 4)

/-- What one call of `decide` meets: the milliseconds of each stage and of the whole, the reads of
the cache, the readings of the clock of the breaker, the model, `none` being any exception it
raises, and the clock of the log. -/
structure Circumstances where
  elapsed : Stage → ℚ
  total : ℚ
  cacheReads : ℕ → CacheRead
  breakerNow : ℚ
  failureNow : ℚ
  score : Request → Option Score
  append : AppendClock

namespace Gateway

variable {V A : Type*}

/-- `self.budget.record(stage, …)`. -/
def record (c : Circumstances) (stage : Stage) (g : Gateway V A) : Gateway V A :=
  { g with budget := g.budget.record stage.name (c.elapsed stage) }

/-- `_finish`. -/
def finish [AuditSink A] (c : Circumstances) (req : Request) (decision : Verdict) (source : Source)
    (score : Option Score) (reasons : List Reason) (g : Gateway V A) : Decision × Gateway V A :=
  let g := { g with
    audit := AuditSink.write c.append (auditRecord req decision source score reasons) g.audit }
  let g := g.record c .decideLog
  let g := { g with
    budget := g.budget.recordTotal c.total
    sourceCounts := g.sourceCounts.update source.text 0 (· + 1) }
  (⟨req.requestId, decision, source, score, reasons, c.total, modelVersion⟩, g)

/-- The third stage: the count of the card, `none` when the store is unavailable. -/
def readVelocity [VelocityCounter V] (req : Request) (g : Gateway V A) : Option ℕ × Gateway V A :=
  let (count, velocity) := VelocityCounter.incrAndCount (PyStr.ofString "card:" ++ req.cardId)
    req.nowMs g.velocity
  (count, { g with velocity })

/-- The fourth stage: the features of the card. -/
def assembleFeatures (c : Circumstances) (req : Request) (g : Gateway V A) :
    Features × Gateway V A :=
  match g.featureCache with
  | some cache =>
    let (bundle, cache) := assemble req.cardId c.cacheReads [] cache
    (bundle.toFeatures, { g with featureCache := some cache })
  | none =>
    if g.featureCacheUp then
      ({ reasons := [], discount := .ofInt 0, usable := true, complete := true }, g)
    else
      ({ reasons := [.featuresPartial], discount := .ofInt 0, usable := true, complete := false }, g)

/-- The fifth stage: the score of the model behind the breaker, and the reason when there is
none. -/
def askModel (c : Circumstances) (req : Request) (g : Gateway V A) :
    Option Score × List Reason × Gateway V A :=
  let (isOpen, breaker) := g.breaker.isOpen c.breakerNow
  if isOpen then (none, [.circuitOpen], { g with breaker })
  else
    match c.score req with
    | some x => (some x, [], { g with breaker := breaker.recordSuccess })
    | none => (none, [.modelUnavailable], { g with breaker := breaker.recordFailure c.failureNow })

/-- `decide`. -/
def decide [VelocityCounter V] [AuditSink A] (c : Circumstances) (req : Request)
    (g : Gateway V A) : Decision × Gateway V A :=
  -- 1. parse + validate
  let g := g.record c .parseValidate
  if req.amountMinor ≤ 0 ∨ req.currency.length ≠ 3 then
    g.finish c req .decline .hotRule none [.invalidRequest]
  else
    -- 2. hot rules
    let g := g.record c .hotRules
    if req.Blocklisted then
      g.finish c req .decline .hotRule none [.cardBlocklisted]
    else
      -- 3. velocity
      let (count, g) := g.readVelocity req
      let reasons : List Reason := if count = none then [.velocityStoreDown] else []
      let g := g.record c .velocity
      if exceeds 12 count then
        g.finish c req .decline .rules none (reasons ++ [.velocityExceeded])
      else
        -- 4. feature assembly
        let (features, g) := g.assembleFeatures c req
        let reasons := reasons ++ features.reasons
        let g := g.record c .features
        if ¬ features.usable then
          let (decision, tier) := degrade req.amountMinor count
          g.finish c req decision (.degraded tier true) none reasons
        else
          -- 5. model score, behind a breaker
          let (score, why, g) := g.askModel c req
          let reasons := reasons ++ why
          let g := g.record c .model
          match score with
          | none =>
            let (decision, tier) := degrade req.amountMinor count
            g.finish c req decision (.degraded tier false) none reasons
          | some x =>
            -- 6. decision policy
            let (threshold, why) := effectiveThreshold g.modelThreshold features
            g.finish c req (judge threshold x.value) .model (some x) (reasons ++ why)

end Gateway

/-- What is set between calls. -/
structure Surroundings where
  featureCacheUp : Bool
  featureCache : Option FeatureCache
  modelThreshold : PyFloat

/-- A call of `decide`, and what was set before it. -/
structure GatewayCall where
  surroundings : Surroundings
  circumstances : Circumstances
  request : Request

namespace Gateway

variable {V A : Type*}

/-- The gateway with its surroundings set. -/
def arrange (s : Surroundings) (g : Gateway V A) : Gateway V A :=
  { g with
    featureCacheUp := s.featureCacheUp
    featureCache := s.featureCache
    modelThreshold := s.modelThreshold }

/-- A gateway answers a call. -/
def step [VelocityCounter V] [AuditSink A] (g : Gateway V A) (k : GatewayCall) :
    Decision × Gateway V A :=
  (g.arrange k.surroundings).decide k.circumstances k.request

end Gateway
