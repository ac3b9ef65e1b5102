import PreauthGateway.Gateway.EveryRequest
import PreauthGateway.Service.Metrics
import PreauthGateway.Wal.Durable

/-!
# The service

The registry of metrics lives as long as the process; each startup makes a new gateway with a new
budget and a new audit log on the file of the old one. `authorize` decides a request and counts it,
`metrics` exports the latencies of the stages that were not exported yet.

## Main definitions

* `Service`, `Service.startup`, `Service.shutdown`, `Service.authorize`, `Service.metrics`
-/

open Metrics

structure AuthResponse where
  requestId : PyText
  decision : String
  source : String
  score : Option Score
  reasons : List String
  latencyMs : PyFloat
  modelVersion : String

/-- `round(x, 3)`. -/
def round3 (x : ℚ) : PyFloat := .ofRat (Double.roundEven (x * 1000) / 1000)

/-- The state of the process: the gateway of the application if it is up, and `REGISTRY`. -/
structure Service (V : Type*) where
  gateway : Option (Gateway V DurableAuditLog) := none
  registry : Registry := {}

/-- The name of the histogram of a stage. -/
def stageMetric (stage : String) : String := "gateway_stage_latency_ms_" ++ stage

/-- `"gateway_velocity_errors_total"`. -/
def velocityErrorsTotal : String := "gateway_velocity_errors_total"

/-- `source.startswith("degraded_")`. -/
def Source.isDegraded (s : Source) : Bool := "degraded_".toList.isPrefixOf s.text.toList

namespace Service

variable {V : Type*}

/-- The startup of the application, on a counter and a file. -/
def startup (velocity : V) (config : WalConfig) (now : ℚ) (file : Bytes) (s : Service V) :
    Service V :=
  { s with gateway := some {
      velocity
      audit := .openAt config now file
      budget := .make budgetMs
      featureCache := some {} } }

/-- The shutdown of the application. -/
def shutdown (s : Service V) : Service V := { s with gateway := none }

/-- What `authorize` counts before it reads the log. -/
def countDecision (d : Decision) (a : DurableAuditLog) (r : Registry) : Registry :=
  (((r.onHistogram "gateway_decision_latency_ms" "End-to-end decision latency"
      (·.observe d.latencyMs)).onCounter "gateway_decisions_total" "Decisions by outcome and source"
      (·.inc [("decision", d.decision.text), ("source", d.source.text)] 1)).onGauge
      "gateway_audit_buffer_size" "Audit records buffered and not yet shipped"
      (·.set a.buffer.length))

/-- The gauge of the records on disk, and what is done with it. -/
def onUnshipped (f : Gauge → Gauge) (r : Registry) : Registry :=
  r.onGauge "gateway_audit_wal_unshipped" "Audit records on disk not yet acknowledged by the sink" f

/-- The count of the velocity errors. -/
def countVelocityError (d : Decision) (r : Registry) : Registry :=
  if d.source.isDegraded then
    r.onCounter velocityErrorsTotal "Velocity store failures" (·.inc [("source", d.source.text)] 1)
  else r

/-- The response to a decision. -/
def response (d : Decision) : AuthResponse where
  requestId := d.requestId
  decision := d.decision.text
  source := d.source.text
  score := d.score
  reasons := d.reasons.map Reason.text
  latencyMs := round3 d.latencyMs
  modelVersion := d.modelVersion

/-- `authorize`, of a request that passed the schema. -/
def authorize [VelocityCounter V] (k : GatewayCall) (s : Service V) :
    Except PyError AuthResponse × Service V :=
  match s.gateway with
  | none => (.error .keyError, s)
  | some g =>
    let (d, g) := g.step k
    -- the gauge is made before its value is computed
    let r := onUnshipped id (countDecision d g.audit s.registry)
    match g.audit.recover with
    | .error e => (.error e, { gateway := some g, registry := r })
    | .ok (out, audit) =>
      let r := countVelocityError d (onUnshipped (·.set out.length) r)
      (.ok (response d), { gateway := some { g with audit }, registry := r })

/-- The export of one stage: the samples not exported yet are observed. -/
def exportStage (r : Registry) (stage : String) (samples : List ℚ) : Registry :=
  r.onHistogram (stageMetric stage) ("Latency for stage " ++ stage)
    fun h => h.observeAll (samples.drop h.total)

/-- `metrics`, without the text it renders. -/
def metrics (s : Service V) : Except PyError Unit × Service V :=
  match s.gateway with
  | none => (.error .keyError, s)
  | some g =>
    (.ok (), { s with
      registry := g.budget.stages.foldl (fun r p => exportStage r p.1 p.2) s.registry })

end Service
