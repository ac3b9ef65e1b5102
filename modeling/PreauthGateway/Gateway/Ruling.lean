import PreauthGateway.Gateway.Pipeline

/-!
# What is decided

A decision is a function of the request, the model's threshold, and what the dependencies answer:
the velocity counter, the feature cache, the breaker and the model.

## Main definitions

* `Answers`, `Ruling`, `ruling`: the answers, and what is decided on them
* `Request.Admitted`, `Answers.Asks`: the requests that reach the counter, and the model
* `stagesReached`: the stages a request goes through

## Main results

* `Gateway.decide_settled`: **`decide` is one `finish` of the ruling**, and what else it changes
* `degrade_eq`: the tiers, by amount
-/

/-- What the dependencies answer: the count, `none` when the store is unavailable, the features, and
whether the breaker is open; the score of the model if it is asked, `none` when it raises. -/
structure Answers where
  count : Option ℕ
  features : Features
  isOpen : Bool
  score : Option Score

/-- What `_finish` is called with. -/
structure Ruling where
  decision : Verdict
  source : Source
  score : Option Score
  reasons : List Reason

namespace Request

/-- The request passes the first stage. -/
def Valid (req : Request) : Prop := 0 < req.amountMinor ∧ req.currency.length = 3

instance (req : Request) : Decidable req.Valid := inferInstanceAs (Decidable (_ ∧ _))

/-- The request reaches the velocity counter: it is valid and its card is not blocklisted. -/
def Admitted (req : Request) : Prop := req.Valid ∧ ¬ req.Blocklisted

instance (req : Request) : Decidable req.Admitted := inferInstanceAs (Decidable (_ ∧ _))

theorem not_valid_iff {req : Request} :
    ¬ req.Valid ↔ req.amountMinor ≤ 0 ∨ req.currency.length ≠ 3 := by
  unfold Valid
  omega

end Request

namespace Answers

/-- The score the gateway gets. -/
def scored (a : Answers) : Option Score := if a.isOpen then none else a.score

/-- The velocity store is reported when it is unavailable. -/
def velocityReasons (a : Answers) : List Reason :=
  if a.count = none then [.velocityStoreDown] else []

/-- An admitted request reaches the model. -/
def Asks (a : Answers) : Prop := ¬ exceeds 12 a.count ∧ a.features.usable = true

instance (a : Answers) : Decidable a.Asks := inferInstanceAs (Decidable (_ ∧ _))

end Answers

/-- What is decided. -/
def ruling (req : Request) (modelThreshold : PyFloat) (a : Answers) : Ruling :=
  if ¬ req.Valid then ⟨.decline, .hotRule, none, [.invalidRequest]⟩
  else if req.Blocklisted then ⟨.decline, .hotRule, none, [.cardBlocklisted]⟩
  else if exceeds 12 a.count then
    ⟨.decline, .rules, none, a.velocityReasons ++ [.velocityExceeded]⟩
  else if ¬ a.features.usable then
    ⟨(degrade req.amountMinor a.count).1, .degraded (degrade req.amountMinor a.count).2 true, none,
      a.velocityReasons ++ a.features.reasons⟩
  else
    match a.scored with
    | none =>
      ⟨(degrade req.amountMinor a.count).1, .degraded (degrade req.amountMinor a.count).2 false, none,
        a.velocityReasons ++ a.features.reasons ++
          [if a.isOpen then .circuitOpen else .modelUnavailable]⟩
    | some x =>
      ⟨judge (effectiveThreshold modelThreshold a.features).1 x.value, .model, some x,
        a.velocityReasons ++ a.features.reasons ++
          (effectiveThreshold modelThreshold a.features).2⟩

/-- The stages a request goes through before `_finish`. -/
def stagesReached (req : Request) (a : Answers) : List Stage :=
  if ¬ req.Valid then [.parseValidate]
  else if req.Blocklisted then [.parseValidate, .hotRules]
  else if exceeds 12 a.count then [.parseValidate, .hotRules, .velocity]
  else if ¬ a.features.usable then [.parseValidate, .hotRules, .velocity, .features]
  else [.parseValidate, .hotRules, .velocity, .features, .model]

/-! ## The tiers -/

/-- **The tiers, by amount.** -/
theorem degrade_eq (amountMinor : ℤ) (count : Option ℕ) :
    degrade amountMinor count =
      if amountMinor < 5000 then (.approve, .failOpen)
      else if amountMinor < 50000 then
        if exceeds 6 count then (.decline, .rulesOnly) else (.approve, .rulesOnly)
      else (.review, .failClosed) := by
  simp [degrade, degradationTiers, degradeLoop]

/-! ## A decision as one `finish` -/

namespace Gateway

variable {V A : Type*}

/-- The latencies of the stages, recorded. -/
def recordAll (c : Circumstances) (stages : List Stage) (b : Budget) : Budget :=
  stages.foldl (fun b stage => b.record stage.name (c.elapsed stage)) b

@[simp] theorem total_recordAll (c : Circumstances) (stages : List Stage) (b : Budget) :
    (recordAll c stages b).total = b.total := by
  induction stages generalizing b with
  | nil => rfl
  | cons stage stages ih => exact ih _

theorem recordAll_append (c : Circumstances) (stages stages' : List Stage) (b : Budget) :
    recordAll c (stages ++ stages') b = recordAll c stages' (recordAll c stages b) :=
  List.foldl_append

/-- Samples are only added. -/
theorem samples_recordAll_grows (c : Circumstances) (stages : List Stage) (b : Budget) (s : String) :
    b.samples s <+: (recordAll c stages b).samples s := by
  induction stages generalizing b with
  | nil => exact List.prefix_rfl
  | cons stage stages ih => exact (Budget.samples_record_grows _ _ _ _).trans (ih _)

theorem nodup_recordAll (c : Circumstances) (stages : List Stage) {b : Budget}
    (h : (b.stages.map Prod.fst).Nodup) : ((recordAll c stages b).stages.map Prod.fst).Nodup := by
  induction stages generalizing b with
  | nil => exact h
  | cons stage stages ih => exact ih (Budget.nodup_record h _ _)

/-- What the dependencies of a gateway answer. -/
def answers [VelocityCounter V] (g : Gateway V A) (c : Circumstances) (req : Request) : Answers where
  count := (g.readVelocity req).1
  features := (g.assembleFeatures c req).1
  isOpen := (g.breaker.isOpen c.breakerNow).1
  score := c.score req

/-- The breaker after the model was asked. -/
def breakerAfter (b : CircuitBreaker) (c : Circumstances) (req : Request) : CircuitBreaker :=
  (b.attempt ⟨c.breakerNow, c.failureNow, (c.score req).isSome⟩).2

/-- The gateway `g'` is `g` after the stages of a request and before `finish`. -/
structure Settled [VelocityCounter V] (g : Gateway V A) (c : Circumstances) (req : Request)
    (g' : Gateway V A) : Prop where
  audit : g'.audit = g.audit
  sourceCounts : g'.sourceCounts = g.sourceCounts
  budget : g'.budget = recordAll c (stagesReached req (g.answers c req)) g.budget
  velocity : g'.velocity = if req.Admitted then (g.readVelocity req).2.velocity else g.velocity
  breaker : g'.breaker =
    if req.Admitted ∧ (g.answers c req).Asks then breakerAfter g.breaker c req else g.breaker

section Stages

variable (c : Circumstances) (req : Request) (g : Gateway V A)

theorem assembleFeatures_snd : ∃ cache : Option FeatureCache,
    (g.assembleFeatures c req).2 = { g with featureCache := cache } := by
  unfold assembleFeatures
  split
  · exact ⟨some _, rfl⟩
  · split
    · exact ⟨g.featureCache, rfl⟩
    · exact ⟨g.featureCache, rfl⟩

theorem assembleFeatures_congr {g g' : Gateway V A} (h : g'.featureCache = g.featureCache)
    (hup : g'.featureCacheUp = g.featureCacheUp) :
    (g'.assembleFeatures c req).1 = (g.assembleFeatures c req).1 := by
  unfold assembleFeatures
  rw [h, hup]
  split <;> [rfl; split <;> rfl]

theorem askModel_fst : (g.askModel c req).1 =
    if (g.breaker.isOpen c.breakerNow).1 then none else c.score req := by
  unfold askModel
  dsimp only
  split
  · rfl
  · split <;> simp [*]

theorem askModel_snd : (g.askModel c req).2.1 =
    if (g.askModel c req).1 = none then
      [if (g.breaker.isOpen c.breakerNow).1 then .circuitOpen else .modelUnavailable]
    else [] := by
  unfold askModel
  dsimp only
  split
  · simp [*]
  · split <;> simp [*]

theorem askModel_gateway :
    (g.askModel c req).2.2 = { g with breaker := breakerAfter g.breaker c req } := by
  unfold breakerAfter askModel CircuitBreaker.attempt
  dsimp only
  split
  · rfl
  · split <;> simp [*]

theorem askModel_congr {g g' : Gateway V A} (h : g'.breaker = g.breaker) :
    (g'.askModel c req).1 = (g.askModel c req).1 ∧
      (g'.askModel c req).2.1 = (g.askModel c req).2.1 := by
  unfold askModel
  rw [h]
  dsimp only
  split
  · exact ⟨rfl, rfl⟩
  · split <;> exact ⟨rfl, rfl⟩

end Stages

section Decide

variable [VelocityCounter V] [AuditSink A]

/-- **`decide` is one `finish` of the ruling**, after the stages the request goes through. -/
theorem decide_settled (c : Circumstances) (req : Request) (g : Gateway V A) :
    ∃ g', g.Settled c req g' ∧
      g.decide c req = g'.finish c req (ruling req g.modelThreshold (g.answers c req)).decision
        (ruling req g.modelThreshold (g.answers c req)).source
        (ruling req g.modelThreshold (g.answers c req)).score
        (ruling req g.modelThreshold (g.answers c req)).reasons := by
  by_cases hv : req.Valid
  swap
  · refine ⟨g.record c .parseValidate, ⟨rfl, rfl, ?_, ?_, ?_⟩, ?_⟩
    · rw [stagesReached, if_pos hv]
      rfl
    · rw [if_neg fun h => hv h.1]
      rfl
    · rw [if_neg fun h => hv h.1.1]
      rfl
    · rw [decide, ruling, if_pos hv, if_pos (Request.not_valid_iff.mp hv)]
  have hexit : ¬ (req.amountMinor ≤ 0 ∨ req.currency.length ≠ 3) := fun h =>
    Request.not_valid_iff.mpr h hv
  rw [decide, if_neg hexit, ruling, if_neg (not_not.mpr hv)]
  by_cases hb : req.Blocklisted
  · refine ⟨(g.record c .parseValidate).record c .hotRules, ⟨rfl, rfl, ?_, ?_, ?_⟩, ?_⟩
    · rw [stagesReached, if_neg (not_not.mpr hv), if_pos hb]
      rfl
    · rw [if_neg fun h => h.2 hb]
      rfl
    · rw [if_neg fun h => h.1.2 hb]
      rfl
    · rw [if_pos hb, if_pos hb]
  have hadm : req.Admitted := ⟨hv, hb⟩
  rw [if_neg hb, if_neg hb]
  -- the counter answers the same whatever was recorded before
  have hread : ((g.record c .parseValidate).record c .hotRules).readVelocity req =
      ((g.answers c req).count, { (g.record c .parseValidate).record c .hotRules with
        velocity := (g.readVelocity req).2.velocity }) := rfl
  rw [hread]
  dsimp only
  have h₃ : ∃ g₃ : Gateway V A, g₃ = Gateway.record c .velocity
      { (g.record c .parseValidate).record c .hotRules with
        velocity := (g.readVelocity req).2.velocity } := ⟨_, rfl⟩
  obtain ⟨g₃, hg₃⟩ := h₃
  rw [← hg₃]
  by_cases he : exceeds 12 (g.answers c req).count
  · rw [if_pos he, if_pos he]
    refine ⟨g₃, ⟨?_, ?_, ?_, ?_, ?_⟩, rfl⟩
    · rw [hg₃]
      rfl
    · rw [hg₃]
      rfl
    · rw [hg₃, stagesReached, if_neg (not_not.mpr hv), if_neg hb, if_pos he]
      rfl
    · rw [hg₃, if_pos hadm]
      rfl
    · rw [hg₃, if_neg fun h => h.2.1 he]
      rfl
  rw [if_neg he, if_neg he]
  obtain ⟨cache, hcache⟩ := assembleFeatures_snd c req g₃
  have hfeat : g₃.assembleFeatures c req =
      ((g.answers c req).features, { g₃ with featureCache := cache }) :=
    Prod.ext (assembleFeatures_congr c req (by rw [hg₃]; rfl) (by rw [hg₃]; rfl)) hcache
  rw [hfeat]
  dsimp only
  have h₄ : ∃ g₄ : Gateway V A,
      g₄ = Gateway.record c .features { g₃ with featureCache := cache } := ⟨_, rfl⟩
  obtain ⟨g₄, hg₄⟩ := h₄
  rw [← hg₄]
  by_cases hu : ¬ (g.answers c req).features.usable
  · rw [if_pos hu, if_pos hu]
    refine ⟨g₄, ⟨?_, ?_, ?_, ?_, ?_⟩, rfl⟩
    · rw [hg₄, hg₃]
      rfl
    · rw [hg₄, hg₃]
      rfl
    · rw [hg₄, hg₃, stagesReached, if_neg (not_not.mpr hv), if_neg hb, if_neg he, if_pos hu]
      rfl
    · rw [hg₄, hg₃, if_pos hadm]
      rfl
    · rw [hg₄, hg₃, if_neg fun h => hu h.2.2]
      rfl
  rw [if_neg hu, if_neg hu]
  have hbreaker : g₄.breaker = g.breaker := by
    rw [hg₄, hg₃]
    rfl
  obtain ⟨hm₁, hm₂⟩ := askModel_congr c req hbreaker
  have hmodel : g₄.askModel c req = ((g.answers c req).scored, (g.askModel c req).2.1,
      { g₄ with breaker := breakerAfter g.breaker c req }) :=
    Prod.ext (hm₁.trans (askModel_fst c req g))
      (Prod.ext hm₂ ((askModel_gateway c req g₄).trans (by rw [hbreaker])))
  rw [hmodel]
  dsimp only
  have h₅ : ∃ g₅ : Gateway V A,
      g₅ = Gateway.record c .model { g₄ with breaker := breakerAfter g.breaker c req } := ⟨_, rfl⟩
  obtain ⟨g₅, hg₅⟩ := h₅
  rw [← hg₅]
  have hsettled : g.Settled c req g₅ := by
    refine ⟨?_, ?_, ?_, ?_, ?_⟩
    · rw [hg₅, hg₄, hg₃]
      rfl
    · rw [hg₅, hg₄, hg₃]
      rfl
    · rw [hg₅, hg₄, hg₃, stagesReached, if_neg (not_not.mpr hv), if_neg hb, if_neg he, if_neg hu]
      rfl
    · rw [hg₅, hg₄, hg₃, if_pos hadm]
      rfl
    · rw [hg₅, if_pos ⟨hadm, he, not_not.mp hu⟩]
      rfl
  refine ⟨g₅, hsettled, ?_⟩
  have hthreshold : g₅.modelThreshold = g.modelThreshold := by
    rw [hg₅, hg₄, hg₃]
    rfl
  have hwhy := askModel_snd c req g
  rw [show (g.askModel c req).1 = (g.answers c req).scored from askModel_fst c req g] at hwhy
  cases hs : (g.answers c req).scored with
  | none =>
    rw [hwhy, hs, if_pos rfl]
    rfl
  | some x =>
    rw [hwhy, hs, if_neg (Option.some_ne_none x), List.append_nil, hthreshold]
    rfl
end Decide

/-! ## One call -/

section Step

variable [VelocityCounter V]

/-- What the dependencies answer a call. -/
def answersTo (g : Gateway V A) (k : GatewayCall) : Answers :=
  (g.arrange k.surroundings).answers k.circumstances k.request

/-- What is decided on a call. -/
def rule (g : Gateway V A) (k : GatewayCall) : Ruling :=
  ruling k.request k.surroundings.modelThreshold (g.answersTo k)

variable [AuditSink A] (g : Gateway V A) (k : GatewayCall)

theorem step_settled : ∃ g', (g.arrange k.surroundings).Settled k.circumstances k.request g' ∧
    g.step k = g'.finish k.circumstances k.request (g.rule k).decision (g.rule k).source
      (g.rule k).score (g.rule k).reasons :=
  decide_settled k.circumstances k.request (g.arrange k.surroundings)

/-- The decision. -/
theorem step_fst : (g.step k).1 = ⟨k.request.requestId, (g.rule k).decision, (g.rule k).source,
    (g.rule k).score, (g.rule k).reasons, k.circumstances.total, modelVersion⟩ := by
  obtain ⟨g', -, h⟩ := step_settled g k
  rw [h]
  rfl

/-- One record is written, that of the decision. -/
theorem audit_step : (g.step k).2.audit = AuditSink.write k.circumstances.append
    (auditRecord k.request (g.rule k).decision (g.rule k).source (g.rule k).score
      (g.rule k).reasons) g.audit := by
  obtain ⟨g', hs, h⟩ := step_settled g k
  rw [h]
  exact congrArg (AuditSink.write k.circumstances.append _) hs.audit

/-- One source is counted, that of the decision. -/
theorem sourceCounts_step :
    (g.step k).2.sourceCounts = g.sourceCounts.update (g.rule k).source.text 0 (· + 1) := by
  obtain ⟨g', hs, h⟩ := step_settled g k
  rw [h]
  exact congrArg (fun d : Dict String ℕ => d.update _ 0 (· + 1)) hs.sourceCounts

/-- The stages reached are recorded, then `decide_log` and the whole. -/
theorem budget_step : (g.step k).2.budget =
    (recordAll k.circumstances (stagesReached k.request (g.answersTo k) ++ [.decideLog])
      g.budget).recordTotal k.circumstances.total := by
  obtain ⟨g', hs, h⟩ := step_settled g k
  have hb : g'.budget =
      recordAll k.circumstances (stagesReached k.request (g.answersTo k)) g.budget := hs.budget
  rw [h, recordAll_append, ← hb]
  rfl

/-- An admitted request is counted. -/
theorem velocity_step : (g.step k).2.velocity =
    if k.request.Admitted then (VelocityCounter.incrAndCount
      (PyStr.ofString "card:" ++ k.request.cardId) k.request.nowMs g.velocity).2
    else g.velocity := by
  obtain ⟨g', hs, h⟩ := step_settled g k
  rw [h]
  exact hs.velocity

/-- The breaker sees the requests that reach the model. -/
theorem breaker_step : (g.step k).2.breaker =
    if k.request.Admitted ∧ (g.answersTo k).Asks then
      breakerAfter g.breaker k.circumstances k.request
    else g.breaker := by
  obtain ⟨g', hs, h⟩ := step_settled g k
  rw [h]
  exact hs.breaker

end Step

end Gateway
