import PreauthGateway.Service.Exports

/-!
# The recovery of the decisions

The records a gateway writes have no `decision_id`, so all of them have the id `None`. Once one of
them is shipped, `recover` takes every other for shipped too.

## Main definitions

* `RecoveryAction`, `Service.recoveryStep`: decisions, drains and failures of the sink
* `Service.RecoversUndrained`, `Service.GaugeExact`: what `recover` returns, and what the gauge
  shows, is what was not drained
* `NothingShipped`: a decision is made while nothing is shipped

## Main results

* `Service.recovery_iff`: **when the undrained decisions are recovered**
-/

open Metrics

/-- What happens to the audit log of a service: decisions of the gateway alone or through
`authorize`, drains, and changes of the sink. -/
inductive RecoveryAction
  | decide (k : GatewayCall)
  | authorize (k : GatewayCall)
  | drain
  | setSink (up : Bool)

namespace Service

variable {V : Type*} [VelocityCounter V]

/-- The service answers an action with the exception it raises. -/
def recoveryStep (s : Service V) : RecoveryAction → Option PyError × Service V
  | .decide k => (none, { s with gateway := s.gateway.map fun g => (g.step k).2 })
  | .authorize k => (exceptionOf (s.authorize k).1, (s.authorize k).2)
  | .drain =>
    (none, { s with gateway := s.gateway.map fun g => { g with audit := g.audit.drain.2 } })
  | .setSink up =>
    (none, { s with gateway := s.gateway.map fun g =>
      { g with audit := { g.audit with sinkUp := up } } })

/-- `recover` returns the records that were written and that no drain has moved, in the order of the
writes. -/
def RecoversUndrained (s : Service V) : Prop :=
  ∀ g ∈ s.gateway, ∃ d, g.audit.recover = .ok (g.audit.buffer.map JsonObject.toJson, d)

/-- The gauge shows the number of these records. -/
def GaugeExact (s : Service V) : Prop :=
  ∀ g ∈ s.gateway, (s.registry.gauges.get? "gateway_audit_wal_unshipped").map (·.value) =
    some (.ofInt g.audit.buffer.length)

/-- A decision is made while nothing is shipped. -/
def NothingShipped (s : Service V) : RecoveryAction → Prop
  | .decide _ | .authorize _ => ∀ g ∈ s.gateway, g.audit.shipped = []
  | .drain | .setSink _ => True

end Service

/-! ## Records without an id -/

/-- The log holds what was shipped and what is buffered, none of it with an id. -/
structure Anonymous (d : DurableAuditLog) : Prop where
  journals : d.Journals (d.shipped ++ d.buffer)
  decisionId : ∀ r ∈ d.shipped ++ d.buffer, r.decisionId = .null

section Anonymous

variable {d : DurableAuditLog}

/-- What `recover` returns: everything, until something is shipped. -/
theorem Anonymous.recover_eq (h : Anonymous d) :
    ∃ w, w.file = d.wal.file ∧ d.recover =
      .ok (if d.shipped = [] then d.buffer.map JsonObject.toJson else [], { d with wal := w }) := by
  have hkey : ∀ r ∈ d.shipped ++ d.buffer, r.decisionId.key = some .none := by
    intro r hr
    rw [h.decisionId r hr]
    rfl
  obtain ⟨w, hw, hrec⟩ := DurableAuditLog.recover_eq h.journals fun r hr => by
    rw [JsonObject.Hashable, hkey r hr]
    exact Option.some_ne_none _
  refine ⟨w, hw, ?_⟩
  rw [hrec]
  by_cases hs : d.shipped = []
  · rw [if_pos hs, hs, List.nil_append]
    simp [JsonObject.SharesId]
  · obtain ⟨s, l, hl⟩ := List.exists_cons_of_ne_nil hs
    have hmem : s ∈ d.shipped := by
      rw [hl]
      exact List.mem_cons_self
    have hall : ((d.shipped ++ d.buffer).filter fun r => ¬ r.SharesId d.shipped) = [] := by
      refine List.filter_eq_nil_iff.mpr fun r hr => ?_
      have : r.SharesId d.shipped :=
        ⟨s, hmem, (hkey s (List.mem_append_left _ hmem)).trans (hkey r hr).symm⟩
      simp [this]
    rw [if_neg hs, hall]
    rfl

/-- The undrained records are recovered while nothing is shipped, or nothing is undrained. -/
theorem Anonymous.recovers_iff (h : Anonymous d) :
    (∃ d', d.recover = .ok (d.buffer.map JsonObject.toJson, d')) ↔
      d.shipped = [] ∨ d.buffer = [] := by
  obtain ⟨w, -, hrec⟩ := h.recover_eq
  rw [hrec]
  by_cases hs : d.shipped = []
  · rw [if_pos hs]
    exact iff_of_true ⟨_, rfl⟩ (.inl hs)
  · rw [if_neg hs]
    constructor
    · rintro ⟨d', hd⟩
      have hnil : d.buffer.map JsonObject.toJson = [] := (congrArg Prod.fst (Except.ok.inj hd)).symm
      exact .inr (List.map_eq_nil_iff.mp hnil)
    · intro hb
      rw [hb.resolve_left hs]
      exact ⟨_, rfl⟩

theorem Anonymous.write (h : Anonymous d) (c : AppendClock) {r : JsonObject}
    (hr : r.decisionId = .null) : Anonymous (d.write c r) where
  journals := by
    have := h.journals.write c r
    rwa [List.append_assoc] at this
  decisionId := by
    intro s hs
    rw [DurableAuditLog.write, ← List.append_assoc] at hs
    rcases List.mem_append.mp hs with hs | hs
    · exact h.decisionId s hs
    · rw [List.mem_singleton.mp hs, hr]

theorem Anonymous.drain (h : Anonymous d) : Anonymous d.drain.2 := by
  unfold DurableAuditLog.drain
  split
  · refine ⟨⟨?_, ?_⟩, ?_⟩
    · rw [List.append_nil]
      exact h.journals.file
    · exact List.Sublist.refl _
    · rw [List.append_nil]
      exact h.decisionId
  · exact h

theorem Anonymous.of_file {d' : DurableAuditLog} (h : Anonymous d)
    (hfile : d'.wal.file = d.wal.file) (hshipped : d'.shipped = d.shipped)
    (hbuffer : d'.buffer = d.buffer) : Anonymous d' := by
  refine ⟨⟨?_, List.Sublist.refl _⟩, ?_⟩
  · rw [hfile, hshipped, hbuffer]
    exact h.journals.file
  · rw [hshipped, hbuffer]
    exact h.decisionId

end Anonymous

/-! ## Steps -/

namespace Gateway

variable {V : Type*} [VelocityCounter V] {g : Gateway V DurableAuditLog} {k : GatewayCall}

/-- What a decision does to the log. -/
theorem audit_step_durable : ∃ r : JsonObject, r.decisionId = .null ∧
    (g.step k).2.audit = g.audit.write k.circumstances.append r :=
  ⟨_, decisionId_auditRecord _ _ _ _ _, audit_step g k⟩

/-- After a decision the log is recovered exactly when nothing was shipped before it. -/
theorem recovers_step_iff (h : Anonymous g.audit) :
    Anonymous (g.step k).2.audit ∧
      ((∃ d, (g.step k).2.audit.recover =
        .ok ((g.step k).2.audit.buffer.map JsonObject.toJson, d)) ↔ g.audit.shipped = []) := by
  obtain ⟨r, hr, haudit⟩ := audit_step_durable (g := g) (k := k)
  have hwrite := h.write k.circumstances.append hr
  rw [haudit]
  refine ⟨hwrite, hwrite.recovers_iff.trans ⟨fun hs => ?_, .inl⟩⟩
  refine hs.resolve_right fun hb => ?_
  exact List.append_ne_nil_of_right_ne_nil _ (List.cons_ne_nil _ _) hb

theorem shipped_step : (g.step k).2.audit.shipped = g.audit.shipped := by
  obtain ⟨r, -, haudit⟩ := audit_step_durable (g := g) (k := k)
  rw [haudit]
  rfl

end Gateway

namespace Service

variable {V : Type*}

/-- The log of the service holds records without an id, and those not drained are recovered. -/
structure Recovering (s : Service V) : Prop where
  anonymous : ∀ g ∈ s.gateway, Anonymous g.audit
  recovers : s.RecoversUndrained

theorem recovering_start {s : Service V} {config : WalConfig} {now : ℚ}
    (hs : ∀ g ∈ s.gateway, g.audit = .openAt config now []) : s.Recovering := by
  have hempty : Anonymous (.openAt config now []) :=
    ⟨DurableAuditLog.journals_openAt config now, fun r hr => by cases hr⟩
  constructor
  · intro g hg
    rw [hs g hg]
    exact hempty
  · intro g hg
    rw [hs g hg]
    exact hempty.recovers_iff.mpr (.inl rfl)

variable [VelocityCounter V]

/-- What `authorize` leaves behind when the log can be read. -/
theorem authorize_ok {s : Service V} {k : GatewayCall} {g : Gateway V DurableAuditLog}
    (hg : s.gateway = some g) {out : List Json} {audit : DurableAuditLog}
    (hrec : (g.step k).2.audit.recover = .ok (out, audit)) :
    (s.authorize k).2.gateway = some { (g.step k).2 with audit } ∧
      ((s.authorize k).2.registry.gauges.get? "gateway_audit_wal_unshipped").map (·.value) =
        some (.ofInt out.length) := by
  have herror (d : Decision) (r : Registry) : (countVelocityError d r).gauges = r.gauges := by
    unfold countVelocityError
    split <;> rfl
  unfold authorize
  rw [hg]
  dsimp only
  rw [hrec]
  refine ⟨rfl, ?_⟩
  dsimp only
  rw [herror, onUnshipped, Registry.onGauge, Dict.get?_update_self]
  rfl

/-- The state after the action recovers what was not drained, and `authorize` shows its number. -/
def StaysExact (s : Service V) (a : RecoveryAction) : Prop :=
  (s.recoveryStep a).2.RecoversUndrained ∧
    ∀ k, a = .authorize k → (s.recoveryStep a).2.GaugeExact

section Step

variable {s : Service V}

theorem recovering_decide (h : s.Recovering) (k : GatewayCall) :
    (∀ g ∈ (s.recoveryStep (.decide k)).2.gateway, Anonymous g.audit) ∧
      (s.StaysExact (.decide k) ↔ s.NothingShipped (.decide k)) := by
  cases hg : s.gateway with
  | none => simp [recoveryStep, StaysExact, NothingShipped, RecoversUndrained, hg]
  | some g =>
    obtain ⟨hanon, hiff⟩ := Gateway.recovers_step_iff (k := k) (h.anonymous g hg)
    simpa [recoveryStep, StaysExact, NothingShipped, RecoversUndrained, hg, hanon] using hiff

theorem recovering_authorize (h : s.Recovering) (k : GatewayCall) :
    (∀ g ∈ (s.recoveryStep (.authorize k)).2.gateway, Anonymous g.audit) ∧
      (s.StaysExact (.authorize k) ↔ s.NothingShipped (.authorize k)) := by
  cases hg : s.gateway with
  | none =>
    have hs : (s.authorize k).2 = s := by
      unfold authorize
      rw [hg]
    simp [recoveryStep, StaysExact, NothingShipped, RecoversUndrained, GaugeExact, hs, hg]
  | some g =>
    obtain ⟨hanon, hiff⟩ := Gateway.recovers_step_iff (k := k) (h.anonymous g hg)
    obtain ⟨w, hw, hrec⟩ := hanon.recover_eq
    obtain ⟨hgateway, hgauge⟩ := authorize_ok hg hrec
    have hanon' : Anonymous { (g.step k).2.audit with wal := w } := hanon.of_file hw rfl rfl
    have hshipped : (g.step k).2.audit.shipped = g.audit.shipped := Gateway.shipped_step
    refine ⟨?_, ?_⟩
    · intro g' hg'
      rw [recoveryStep, hgateway] at hg'
      cases hg'
      exact hanon'
    · have hnothing : s.NothingShipped (.authorize k) ↔ g.audit.shipped = [] := by
        simp [NothingShipped, hg]
      have hrecovers : (s.recoveryStep (.authorize k)).2.RecoversUndrained ↔
          g.audit.shipped = [] := by
        rw [← hiff, hanon.recovers_iff, RecoversUndrained, recoveryStep, hgateway]
        simp only [Option.mem_def, Option.some.injEq, forall_eq']
        exact hanon'.recovers_iff
      rw [hnothing, StaysExact, hrecovers]
      refine ⟨fun h => h.1, fun hs => ⟨hs, fun j _ => ?_⟩⟩
      intro g' hg'
      rw [recoveryStep, hgateway] at hg'
      cases hg'
      rw [recoveryStep, hgauge, if_pos (hshipped.trans hs), List.length_map]

theorem recovering_drain (h : s.Recovering) : (s.recoveryStep .drain).2.Recovering := by
  constructor
  · intro g hg
    obtain ⟨g₀, hg₀, rfl⟩ := Option.map_eq_some_iff.mp hg
    exact (h.anonymous g₀ hg₀).drain
  · intro g hg
    obtain ⟨g₀, hg₀, rfl⟩ := Option.map_eq_some_iff.mp hg
    have hanon := (h.anonymous g₀ hg₀).drain
    refine hanon.recovers_iff.mpr ?_
    by_cases hup : g₀.audit.sinkUp = true
    · right
      simp [DurableAuditLog.drain, hup]
    · simp only [DurableAuditLog.drain, hup]
      exact (h.anonymous g₀ hg₀).recovers_iff.mp (h.recovers g₀ hg₀)

theorem recovering_setSink (h : s.Recovering) (up : Bool) :
    (s.recoveryStep (.setSink up)).2.Recovering := by
  constructor
  · intro g hg
    obtain ⟨g₀, hg₀, rfl⟩ := Option.map_eq_some_iff.mp hg
    exact (h.anonymous g₀ hg₀).of_file rfl rfl rfl
  · intro g hg
    obtain ⟨g₀, hg₀, rfl⟩ := Option.map_eq_some_iff.mp hg
    have hanon : Anonymous { g₀.audit with sinkUp := up } :=
      (h.anonymous g₀ hg₀).of_file rfl rfl rfl
    refine hanon.recovers_iff.mpr ?_
    exact (h.anonymous g₀ hg₀).recovers_iff.mp (h.recovers g₀ hg₀)

/-- **A decision is recovered exactly when it is made while nothing is shipped.** -/
theorem staysExact_iff (h : s.Recovering) (a : RecoveryAction) :
    s.StaysExact a ↔ s.NothingShipped a := by
  cases a with
  | decide k => exact (recovering_decide h k).2
  | authorize k => exact (recovering_authorize h k).2
  | drain => exact iff_of_true ⟨(recovering_drain h).recovers, fun k hk => by cases hk⟩ trivial
  | setSink up =>
    exact iff_of_true ⟨(recovering_setSink h up).recovers, fun k hk => by cases hk⟩ trivial

theorem recovering_step (h : s.Recovering) (a : RecoveryAction) (hn : s.NothingShipped a) :
    (s.recoveryStep a).2.Recovering := by
  have hexact := (staysExact_iff h a).mpr hn
  cases a with
  | decide k => exact ⟨(recovering_decide h k).1, hexact.1⟩
  | authorize k => exact ⟨(recovering_authorize h k).1, hexact.1⟩
  | drain => exact recovering_drain h
  | setSink up => exact recovering_setSink h up

end Step

/-! ## Runs -/

/-- **When the undrained decisions are recovered.** In every run from a log without a file, every
state recovers exactly the records that were not drained and `authorize` shows their number, exactly
when every decision is made while nothing is shipped. -/
theorem recovery_iff (s : Service V) (config : WalConfig) (now : ℚ)
    (hs : ∀ g ∈ s.gateway, g.audit = .openAt config now []) (as : List RecoveryAction) :
    (∀ pre a post, as = pre ++ a :: post →
        (Machine.after recoveryStep s (pre ++ [a])).RecoversUndrained ∧
          ∀ k, a = .authorize k → (Machine.after recoveryStep s (pre ++ [a])).GaugeExact) ↔
      Machine.Along recoveryStep NothingShipped s as := by
  have hcongr : Machine.Along recoveryStep StaysExact s as ↔
      Machine.Along recoveryStep NothingShipped s as :=
    Machine.along_congr (I := Recovering) (fun s a h => staysExact_iff h a)
      (fun s a h hn => recovering_step h a hn) (recovering_start hs)
  rw [← hcongr]
  simp only [Machine.after_concat]
  rfl

/-- A request with an id of one character. -/
def callOf (c : Char) : GatewayCall :=
  { emptyCacheCall with
    request := { emptyCacheCall.request with
      requestId := ⟨[CodePoint.ofChar c], PyStr.unicode_singleton _⟩ } }

/-- A decision is drained, and another one is made. -/
def drainedRun : List RecoveryAction := [.decide (callOf 'a'), .drain, .decide (callOf 'b')]

/-- The second decision is not recovered. -/
theorem undrained_not_recovered : ¬ ∀ pre a post, drainedRun = pre ++ a :: post →
    (Machine.after recoveryStep fresh (pre ++ [a])).RecoversUndrained ∧
      ∀ k, a = .authorize k → (Machine.after recoveryStep fresh (pre ++ [a])).GaugeExact := by
  intro h
  have hlast : (Machine.after recoveryStep fresh (drainedRun.take 2)).StaysExact
      (.decide (callOf 'b')) := h (drainedRun.take 2) (.decide (callOf 'b')) [] rfl
  have hfresh : fresh.Recovering :=
    @recovering_start _ fresh {} 0 (by rintro g ⟨⟩; rfl)
  have hfirst : (Machine.after recoveryStep fresh (drainedRun.take 1)).Recovering :=
    recovering_step hfresh (.decide (callOf 'a')) (by rintro g ⟨⟩; rfl)
  have hnothing := (staysExact_iff (recovering_drain hfirst) (.decide (callOf 'b'))).mp hlast
  have hshipped := hnothing _ rfl
  revert hshipped
  decide +kernel

instance (s : Service V) (a : RecoveryAction) : Decidable (s.NothingShipped a) :=
  match a with
  | .decide _ | .authorize _ => inferInstanceAs (Decidable (∀ g ∈ s.gateway, g.audit.shipped = []))
  | .drain | .setSink _ => isTrue trivial

/-- Two requests, and between them a drain that fails; the sink is up again for a second one. -/
def spooledRun : List RecoveryAction :=
  [.authorize (callOf 'a'), .setSink false, .drain, .authorize (callOf 'b'), .setSink true, .drain]

/-- Both requests are made while nothing is shipped. -/
theorem recovery_iff_spooled :
    Machine.Along recoveryStep NothingShipped fresh spooledRun ∧
      ((∀ pre a post, spooledRun = pre ++ a :: post →
        (Machine.after recoveryStep fresh (pre ++ [a])).RecoversUndrained ∧
          ∀ k, a = .authorize k → (Machine.after recoveryStep fresh (pre ++ [a])).GaugeExact) ↔
        Machine.Along recoveryStep NothingShipped fresh spooledRun) :=
  ⟨by decide +kernel, recovery_iff fresh {} 0 (by rintro g ⟨⟩; rfl) spooledRun⟩

end Service
