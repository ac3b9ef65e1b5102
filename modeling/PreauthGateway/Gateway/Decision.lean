import PreauthGateway.Wal.Records
import PreauthGateway.Number.PyFloat

/-!
# Requests, decisions and audit records

## Main definitions

* `Request`, `Verdict`, `Source`, `Reason`, `Decision`
* `auditRecord`: the record that is written for a decision

## Main results

* `logs_auditRecord`: the record carries what was decided
-/

open Json

/-! ## Requests and decisions -/

/-- A Python string that spells no character as two surrogates. -/
abbrev PyText := { s : PyStr // s.Unicode }

structure Request where
  requestId : PyText
  cardId : PyStr
  merchantId : PyStr
  deviceId : PyStr
  amountMinor : ℤ
  currency : PyStr
  nowMs : ℤ

/-- `BLOCKLIST`. -/
def blocklist : List PyStr := [PyStr.ofString "CARD_BAD_0001", PyStr.ofString "CARD_BAD_0002"]

/-- `req.card_id in BLOCKLIST`. -/
def Request.Blocklisted (req : Request) : Prop := req.cardId ∈ blocklist

instance (req : Request) : Decidable req.Blocklisted := inferInstanceAs (Decidable (_ ∈ _))

inductive Verdict
  | approve
  | decline
  | review
deriving DecidableEq

def Verdict.text : Verdict → String
  | approve => "approve"
  | decline => "decline"
  | review => "review"

/-- The behaviours of `_degrade`. -/
inductive Tier
  | failOpen
  | rulesOnly
  | failClosed
deriving DecidableEq

/-- Where a decision comes from. -/
inductive Source
  | hotRule
  | rules
  | model
  | degraded (tier : Tier) (noFeatures : Bool)
deriving DecidableEq

namespace Source

def text : Source → String
  | hotRule => "hot_rule"
  | rules => "rules"
  | model => "model"
  | degraded .failOpen false => "degraded_fail_open"
  | degraded .rulesOnly false => "degraded_rules_only"
  | degraded .failClosed false => "degraded_fail_closed"
  | degraded .failOpen true => "degraded_fail_open_no_features"
  | degraded .rulesOnly true => "degraded_rules_only_no_features"
  | degraded .failClosed true => "degraded_fail_closed_no_features"

end Source

/-- Why a decision was made. -/
inductive Reason
  | invalidRequest
  | cardBlocklisted
  | velocityStoreDown
  | velocityExceeded
  | featureCacheDown
  | missingHardFeature (feature : String)
  | staleSoftFeature (feature : String)
  | featuresPartial
  | modelUnavailable
  | circuitOpen
  | confidenceDiscountedBy (discount : PyFloat)
  | confidenceDiscounted
deriving DecidableEq

def Reason.text : Reason → String
  | invalidRequest => "invalid_request"
  | cardBlocklisted => "card_blocklisted"
  | velocityStoreDown => "velocity_store_down"
  | velocityExceeded => "velocity_exceeded"
  | featureCacheDown => "feature_cache_down"
  | missingHardFeature feature => "missing_hard_feature:" ++ feature
  | staleSoftFeature feature => "stale_soft_feature:" ++ feature
  | featuresPartial => "features_partial"
  | modelUnavailable => "model_unavailable"
  | circuitOpen => "circuit_open"
  | confidenceDiscountedBy discount => "confidence_discounted:" ++ String.ofList discount.fixed2
  | confidenceDiscounted => "confidence_discounted"

/-- The score of a model: a float, as the text `json.dumps` writes for it. -/
structure Score where
  lit : List Char
  valid : (Json.float lit).Valid
deriving DecidableEq

/-- The float of a score. -/
def Score.value (x : Score) : PyFloat :=
  match floatKey x.lit with
  | .num q => .num (Double.finite q)
  | .inf neg => .num (if neg then ⊥ else ⊤)
  | .nan | .none | .str _ => .nan

/-- `"preauth-0.1.0"`. -/
def modelVersion : String := "preauth-0.1.0"

structure Decision where
  requestId : PyText
  decision : Verdict
  source : Source
  score : Option Score
  reasons : List Reason
  latencyMs : ℚ
  modelVersion : String

/-! ## The audit record -/

/-- A string constant as JSON. -/
def jsonText (s : String) : Json := .str (PyStr.ofString s)

theorem valid_jsonText (s : String) : (jsonText s).Valid := by
  simp [jsonText, Valid, isValid, PyStr.unicode_ofString]

/-- A score as JSON: `null` without one. -/
def jsonScore : Option Score → Json
  | none => .null
  | some x => .float x.lit

theorem valid_jsonScore (score : Option Score) : (jsonScore score).Valid := by
  cases score with
  | none => rfl
  | some x => exact x.valid

/-- The reasons as JSON. -/
def jsonReasons (reasons : List Reason) : Json := .arr (reasons.map fun r => jsonText r.text)

theorem valid_jsonReasons (reasons : List Reason) : (jsonReasons reasons).Valid := by
  unfold jsonReasons Valid
  rw [isValid]
  induction reasons with
  | nil => rfl
  | cons r reasons ih =>
    rw [List.map_cons, isValidItems, ih, Bool.and_true]
    exact valid_jsonText r.text

/-- The members of the record `_finish` writes. -/
def auditMembers (req : Request) (decision : Verdict) (source : Source) (score : Option Score)
    (reasons : List Reason) : List (PyStr × Json) :=
  [(PyStr.ofString "request_id", .str req.requestId),
    (PyStr.ofString "decision", jsonText decision.text),
    (PyStr.ofString "source", jsonText source.text), (PyStr.ofString "score", jsonScore score),
    (PyStr.ofString "reasons", jsonReasons reasons),
    (PyStr.ofString "amount_minor", .int req.amountMinor),
    (PyStr.ofString "model_version", jsonText modelVersion)]

/-- The record `_finish` writes. -/
def auditRecord (req : Request) (decision : Verdict) (source : Source) (score : Option Score)
    (reasons : List Reason) : JsonObject :=
  ⟨auditMembers req decision source score reasons, by
    rw [valid_obj]
    refine ⟨?_, ?_⟩
    · simp only [auditMembers, List.map_cons, List.map_nil]
      decide +kernel
    · simp only [auditMembers, isValidMembers_cons]
      simp only [PyStr.unicode_ofString, valid_jsonText, valid_jsonScore, valid_jsonReasons,
        true_and]
      exact ⟨by simp [Valid, isValid, req.requestId.2], rfl, rfl⟩⟩

/-- The record carries what was decided. -/
structure Logs (r : JsonObject) (d : Decision) : Prop where
  requestId : r.get? (PyStr.ofString "request_id") = some (.str d.requestId)
  decision : r.get? (PyStr.ofString "decision") = some (jsonText d.decision.text)
  source : r.get? (PyStr.ofString "source") = some (jsonText d.source.text)
  score : r.get? (PyStr.ofString "score") = some (jsonScore d.score)
  reasons : r.get? (PyStr.ofString "reasons") = some (jsonReasons d.reasons)

/-- The keys of a record, as they are looked up. -/
theorem auditKeys_ne :
    ["request_id", "decision", "source", "score", "reasons"].Pairwise fun a b =>
      PyStr.ofString a ≠ PyStr.ofString b := by decide +kernel

/-- **The record carries what was decided.** -/
theorem logs_auditRecord (req : Request) (decision : Verdict) (source : Source)
    (score : Option Score) (reasons : List Reason) (latencyMs : ℚ) (version : String) :
    Logs (auditRecord req decision source score reasons)
      ⟨req.requestId, decision, source, score, reasons, latencyMs, version⟩ := by
  have h := auditKeys_ne
  simp only [List.pairwise_cons, List.mem_cons, List.not_mem_nil, or_false, forall_eq_or_imp,
    forall_eq] at h
  constructor <;> simp [JsonObject.get?, auditRecord, auditMembers, Json.get?, h]

/-- A record has no id. -/
theorem decisionId_auditRecord (req : Request) (decision : Verdict) (source : Source)
    (score : Option Score) (reasons : List Reason) :
    (auditRecord req decision source score reasons).decisionId = .null := by
  have h : ∀ k ∈ ["request_id", "decision", "source", "score", "reasons", "amount_minor",
      "model_version"], PyStr.ofString k ≠ decisionIdKey := by decide +kernel
  simp only [List.mem_cons, List.not_mem_nil, or_false, forall_eq_or_imp, forall_eq] at h
  simp [JsonObject.decisionId, JsonObject.get?, auditRecord, auditMembers, Json.get?, h]
