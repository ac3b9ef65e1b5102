import PreauthGateway.Gateway.Exposure
import PreauthGateway.Service.Serve

/-!
# The count of velocity errors

`authorize` counts a velocity error when the source of the decision is degraded. The decision is
degraded when the request gets no score, whatever became of the velocity store; and when the store
fails and the model answers, nothing is counted.

## Main definitions

* `Service.VelocityRaises`: the velocity read of a call raises
* `Service.raised`: the number of the calls of a run whose velocity read raised
* `Service.CountsRight`: the calls that are counted exactly when the read raises

## Main results

* `ruling_isDegraded`: when a decision is degraded
* `Service.velocity_errors_iff`: **when the metric counts the velocity errors**
-/

open Metrics

theorem Source.isDegraded_iff {s : Source} : s.isDegraded = true ↔ ∃ t b, s = .degraded t b := by
  constructor
  · intro h
    cases s with
    | degraded t b => exact ⟨t, b, rfl⟩
    | hotRule | rules | model => exact absurd h (by decide)
  · rintro ⟨t, b, rfl⟩
    cases t <;> cases b <;> decide

/-- The request reaches the tiers: it is admitted, within the limit, and gets no score. -/
def Unscored (req : Request) (a : Answers) : Prop :=
  req.Admitted ∧ ¬ exceeds 12 a.count ∧ a.obtained = none

instance (req : Request) (a : Answers) : Decidable (Unscored req a) :=
  inferInstanceAs (Decidable (_ ∧ _))

/-- **When a decision is degraded.** -/
theorem ruling_isDegraded (req : Request) (modelThreshold : PyFloat) (a : Answers) :
    (ruling req modelThreshold a).source.isDegraded = true ↔ Unscored req a := by
  rw [Source.isDegraded_iff]
  by_cases hv : req.Valid
  swap
  · rw [ruling, if_pos hv]
    exact iff_of_false (by simp) fun h => hv h.1.1
  by_cases hb : req.Blocklisted
  · rw [ruling, if_neg (not_not.mpr hv), if_pos hb]
    exact iff_of_false (by simp) fun h => h.1.2 hb
  by_cases he : exceeds 12 a.count
  · rw [ruling, if_neg (not_not.mpr hv), if_neg hb, if_pos he]
    exact iff_of_false (by simp) fun h => h.2.1 he
  rw [ruling, if_neg (not_not.mpr hv), if_neg hb, if_neg he]
  by_cases hu : a.features.usable = true
  swap
  · rw [if_pos hu]
    exact iff_of_true ⟨_, _, rfl⟩ ⟨⟨hv, hb⟩, he, if_neg hu⟩
  have hobtained : a.obtained = a.scored := if_pos hu
  rw [if_neg (not_not.mpr hu), Unscored, hobtained]
  cases a.scored with
  | none => exact iff_of_true ⟨_, _, rfl⟩ ⟨⟨hv, hb⟩, he, rfl⟩
  | some x => exact iff_of_false (by simp) fun h => by simp at h

namespace Service

variable {V : Type*} [VelocityCounter V]

/-- `gateway_velocity_errors_total`, summed over its labels. -/
def velocityErrors (s : Service V) : ℕ := s.registry.counterSum velocityErrorsTotal

/-- The velocity read of a call raises. -/
def VelocityRaises (s : Service V) (k : GatewayCall) : Prop :=
  ∃ g ∈ s.gateway, g.VelocityRaises k.request

instance (s : Service V) (k : GatewayCall) : Decidable (s.VelocityRaises k) :=
  match h : s.gateway with
  | none => isFalse (by simp [VelocityRaises, h])
  | some g => decidable_of_iff (g.VelocityRaises k.request) (by simp [VelocityRaises, h])

/-- The service answers a call of `authorize`. -/
def step (s : Service V) (k : GatewayCall) : Except PyError AuthResponse × Service V :=
  s.authorize k

/-- The number of the calls of a run whose velocity read raises. -/
def raised : Service V → List GatewayCall → ℕ
  | _, [] => 0
  | s, k :: ks => (if s.VelocityRaises k then 1 else 0) + raised (s.step k).2 ks

/-- **The metric counts the velocity errors**: at every time of the run it has grown by the number
of the calls whose velocity read raised. -/
def CountsErrors (s : Service V) (ks : List GatewayCall) : Prop :=
  ∀ pre post, ks = pre ++ post →
    (Machine.after step s pre).velocityErrors = s.velocityErrors + s.raised pre

/-- The log as it is before the call can be read once the record of its ruling is added. -/
def LogReadable (g : Gateway V DurableAuditLog) (k : GatewayCall) : Prop :=
  ∃ p, (g.audit.write k.circumstances.append (auditRecord k.request (g.rule k).decision
    (g.rule k).source (g.rule k).score (g.rule k).reasons)).recover = .ok p

theorem logReadable_iff (g : Gateway V DurableAuditLog) (k : GatewayCall) :
    LogReadable g k ↔ ∃ p, (g.step k).2.audit.recover = .ok p := by
  rw [Gateway.audit_step]
  rfl

/-- The velocity read of the call raises if and only if the request gets no score, and the log can
be read. -/
def RaisesUnscored (s : Service V) (k : GatewayCall) : Prop :=
  ∀ g ∈ s.gateway, (g.VelocityRaises k.request ↔
    Unscored k.request (g.answersTo k) ∧ LogReadable g k)

/-! ## One call -/

section Step

variable {s : Service V} {k : GatewayCall}

theorem counterSum_countDecision (d : Decision) (a : DurableAuditLog) (r : Registry) :
    (countDecision d a r).counterSum velocityErrorsTotal = r.counterSum velocityErrorsTotal :=
  Registry.counterSum_onCounter_of_ne (by decide) _ _ _

theorem counterSum_onUnshipped (f : Gauge → Gauge) (r : Registry) :
    (onUnshipped f r).counterSum velocityErrorsTotal = r.counterSum velocityErrorsTotal := rfl

theorem counterSum_countVelocityError (d : Decision) (r : Registry) :
    (countVelocityError d r).counterSum velocityErrorsTotal =
      r.counterSum velocityErrorsTotal + if d.source.isDegraded then 1 else 0 := by
  unfold countVelocityError
  split
  · exact Registry.counterSum_inc_self _ _ _ _ _
  · rfl

/-- What a call adds to the metric. -/
theorem velocityErrors_step {g : Gateway V DurableAuditLog} (hg : s.gateway = some g) :
    (Unscored k.request (g.answersTo k) ∧ LogReadable g k →
      (s.step k).2.velocityErrors = s.velocityErrors + 1) ∧
    (¬ (Unscored k.request (g.answersTo k) ∧ LogReadable g k) →
      (s.step k).2.velocityErrors = s.velocityErrors) := by
  rw [logReadable_iff]
  have hsource : (g.step k).1.source.isDegraded = true ↔ Unscored k.request (g.answersTo k) := by
    rw [Gateway.step_fst]
    exact ruling_isDegraded _ _ _
  unfold velocityErrors step authorize
  rw [hg]
  dsimp only
  cases hr : (g.step k).2.audit.recover with
  | error e =>
    refine ⟨fun h => ?_, fun _ => ?_⟩
    · obtain ⟨-, p, hp⟩ := h
      cases hp
    · exact counterSum_countDecision _ (g.step k).2.audit _
  | ok p =>
    obtain ⟨out, audit⟩ := p
    dsimp only
    rw [counterSum_countVelocityError, counterSum_onUnshipped, counterSum_onUnshipped,
      counterSum_countDecision]
    refine ⟨fun h => ?_, fun h => ?_⟩
    · rw [if_pos (hsource.mpr h.1)]
    · rw [if_neg fun hd => h ⟨hsource.mp hd, _, rfl⟩, Nat.add_zero]

/-- A call is counted right exactly when its read raises for want of a score. -/
theorem velocityErrors_step_iff :
    (s.step k).2.velocityErrors = s.velocityErrors + (if s.VelocityRaises k then 1 else 0) ↔
      s.RaisesUnscored k := by
  cases hg : s.gateway with
  | none =>
    have hs : (s.step k).2 = s := by
      unfold step authorize
      rw [hg]
    rw [hs, if_neg (by simp [VelocityRaises, hg])]
    exact iff_of_true rfl (by simp [RaisesUnscored, hg])
  | some g =>
    have hraise : s.VelocityRaises k ↔ g.VelocityRaises k.request := by simp [VelocityRaises, hg]
    have hright : s.RaisesUnscored k ↔ (g.VelocityRaises k.request ↔
        Unscored k.request (g.answersTo k) ∧ LogReadable g k) := by
      simp [RaisesUnscored, hg]
    obtain ⟨hone, hzero⟩ := velocityErrors_step (k := k) hg
    rw [hright, ← hraise]
    -- the counter moves on `hc`, and should move on `hv`
    by_cases hc : Unscored k.request (g.answersTo k) ∧ LogReadable g k
    · rw [hone hc]
      by_cases hv : s.VelocityRaises k
      · rw [if_pos hv]
        exact iff_of_true rfl (iff_of_true hv hc)
      · rw [if_neg hv]
        exact iff_of_false (by omega) fun h => hv (h.mpr hc)
    · rw [hzero hc]
      by_cases hv : s.VelocityRaises k
      · rw [if_pos hv]
        exact iff_of_false (by omega) fun h => hc (h.mp hv)
      · rw [if_neg hv]
        exact iff_of_true rfl (iff_of_false hv hc)

end Step

/-! ## Runs -/

/-- The metric counts the errors of a run as long as it counts those of each call. -/
theorem countsErrors_iff_along (s : Service V) (ks : List GatewayCall) :
    s.CountsErrors ks ↔ Machine.Along step (fun s k => (s.step k).2.velocityErrors =
      s.velocityErrors + (if s.VelocityRaises k then 1 else 0)) s ks := by
  induction ks generalizing s with
  | nil =>
    refine iff_of_true (fun pre post h => ?_) (Machine.along_nil _ s)
    obtain ⟨rfl, rfl⟩ := List.append_eq_nil_iff.mp h.symm
    rfl
  | cons k ks ih =>
    rw [Machine.along_cons, ← ih]
    constructor
    -- the prefix of one call gives the step, and the longer ones the run after it
    · intro h
      have hk : (s.step k).2.velocityErrors =
          s.velocityErrors + (if s.VelocityRaises k then 1 else 0) := h [k] ks rfl
      refine ⟨hk, fun pre post hp => ?_⟩
      have := h (k :: pre) post (by rw [hp]; rfl)
      rw [raised, Machine.after_cons] at this
      rw [this, hk]
      omega
    · rintro ⟨hk, h⟩ pre post hp
      cases pre with
      | nil => rfl
      | cons j pre =>
        obtain ⟨rfl, rfl⟩ := List.cons_eq_cons.mp hp
        rw [raised, Machine.after_cons, h pre post rfl, hk]
        omega

/-- **When the metric counts the velocity errors**: exactly when, at every call, the velocity read
raises if and only if the request gets no score, the log being readable. -/
theorem velocity_errors_iff (s : Service V) (ks : List GatewayCall) :
    s.CountsErrors ks ↔ Machine.Along step RaisesUnscored s ks := by
  rw [countsErrors_iff_along]
  exact Machine.along_congr (I := fun _ => True) (fun _ _ _ => velocityErrors_step_iff)
    (fun _ _ _ _ => trivial) trivial

/-- A service on the counter of its process and an empty log. -/
def fresh : Service SafeCounter := startup {} {} 0 [] {}

/-- A request to a service whose feature cache is empty. -/
def emptyCacheCall : GatewayCall :=
  { Gateway.idleCall [] 100 1 with surroundings := ⟨true, some {}, .ofRat (3 / 4)⟩ }

/-- The counter answers, and an error is counted: the features are missing. -/
theorem no_error_counted : ¬ fresh.CountsErrors [emptyCacheCall] := by
  intro h
  have h₁ := h [emptyCacheCall] [] rfl
  revert h₁
  decide +kernel

end Service
