import PreauthGateway.Service.Render

/-!
# What the monitoring reads

Whatever startups, shutdowns, requests and scrapes the process goes through, nothing comes into its
registry that would need an escape: the names and help texts are those of the service, and the
labels are outcomes and sources. So a scrape finds every sample, and of each counter the value of
every series.

## Main definitions

* `Service.Exportable`: the registry is exportable, and stays so with the names the service uses

## Main results

* `Service.exportable_authorize`, `Service.exportable_metrics`: the steps keep it
* `Process.scrape_after`: **after every run of the process a scrape finds the samples of the
  registry**
-/

open Exposition

namespace Metrics.Registry.Exportable

/-! ## The operations of the registry -/

variable {r : Registry} {name helpText : String}

theorem onHistogram (h : r.Exportable) (hname : Named name helpText) {f : Histogram → Histogram}
    (hf : ∀ h : Histogram, (f h).helpText = h.helpText) :
    (r.onHistogram name helpText f).Exportable where
  histograms := Dict.forall_update h.histograms
    (by
      change Named name (f (.make helpText)).helpText
      rw [hf]
      exact hname)
    fun v hv => by
      change Named name (f v).helpText
      rw [hf]
      exact hv
  counters := h.counters
  gauges := h.gauges
  once := h.once

theorem onGauge (h : r.Exportable) (hname : Named name helpText) {f : Gauge → Gauge}
    (hf : ∀ g : Gauge, (f g).helpText = g.helpText) : (r.onGauge name helpText f).Exportable where
  histograms := h.histograms
  counters := h.counters
  gauges := Dict.forall_update h.gauges
    (by
      change Named name (f { helpText }).helpText
      rw [hf]
      exact hname)
    fun v hv => by
      change Named name (f v).helpText
      rw [hf]
      exact hv
  once := h.once

theorem inc {c : Counter} (h : c.Exportable) {labels : Dict String String} (n : ℕ)
    (hlabels : ∀ l ∈ labels, IsName l.1 ∧ IsPlain l.2) : (c.inc labels n).Exportable where
  labels := by
    have hsorted : ∀ l ∈ labels.insertionSort fun a b => a.1 ≤ b.1, IsName l.1 ∧ IsPlain l.2 :=
      fun l hl => hlabels l ((List.perm_insertionSort _ _).mem_iff.mp hl)
    change ∀ p ∈ c.values.update (labels.insertionSort fun a b => a.1 ≤ b.1) 0 (· + n), _
    exact Dict.forall_update h.labels hsorted fun _ _ => hsorted
  once := Dict.nodup_set h.once _ _

theorem onCounter (h : r.Exportable) (hname : Named name helpText) {labels : Dict String String}
    (n : ℕ) (hlabels : ∀ l ∈ labels, IsName l.1 ∧ IsPlain l.2) :
    (r.onCounter name helpText (·.inc labels n)).Exportable where
  histograms := h.histograms
  counters := Dict.forall_update h.counters
    ⟨hname, inc (c := { helpText }) ⟨fun p hp => (by cases hp), List.nodup_nil⟩ n hlabels⟩
    fun _ hv => ⟨hv.1, inc hv.2 n hlabels⟩
  gauges := h.gauges
  once := Dict.nodup_set h.once _ _

end Metrics.Registry.Exportable

open Metrics

/-! ## The steps of the service -/

theorem Metrics.Histogram.helpText_observeAll (values : List ℚ) (h : Histogram) :
    (h.observeAll values).helpText = h.helpText := by
  induction values generalizing h with
  | nil => rfl
  | cons v vs ih => exact ih (h.observe v)

/-- The name of a stage may stand in that of a metric. -/
def StageNamed (stage : String) : Prop := stage.toList.all isNameChar = true

instance (stage : String) : Decidable (StageNamed stage) := inferInstanceAs (Decidable (_ = true))

theorem named_stageMetric {stage : String} (h : StageNamed stage) :
    Named (stageMetric stage) ("Latency for stage " ++ stage) := by
  refine ⟨isName_append (by decide) h, ?_⟩
  rw [String.toList_append, List.mem_append, not_or]
  exact ⟨by decide, fun hc => ne_newline_of_isNameChar (List.all_eq_true.mp h _ hc) rfl⟩

theorem stageNamed_name (stage : Stage) : StageNamed stage.name := by
  cases stage <;> decide

theorem isPlain_verdict (v : Verdict) : IsPlain v.text := by
  cases v <;> decide

theorem isPlain_source (s : Source) : IsPlain s.text := by
  match s with
  | .hotRule | .rules | .model => decide
  | .degraded .failOpen false | .degraded .failOpen true => decide
  | .degraded .rulesOnly false | .degraded .rulesOnly true => decide
  | .degraded .failClosed false | .degraded .failClosed true => decide

/-- The gauges of the service. -/
def gaugeNames : List String := ["gateway_audit_buffer_size", "gateway_audit_wal_unshipped"]

/-- The registry is exportable, and its gauges are those of the service. -/
structure Metrics.Registry.OfService (r : Registry) : Prop where
  exportable : r.Exportable
  gauges : ∀ p ∈ r.gauges, p.1 ∈ gaugeNames

theorem Metrics.Registry.OfService.onGauge {r : Registry} (h : r.OfService) {name helpText : String}
    (hname : Named name helpText) (hmem : name ∈ gaugeNames) {f : Gauge → Gauge}
    (hf : ∀ g : Gauge, (f g).helpText = g.helpText) : (r.onGauge name helpText f).OfService where
  exportable := h.exportable.onGauge hname hf
  gauges := Dict.forall_update h.gauges hmem fun _ _ => hmem

namespace Service

variable {V : Type*}

/-- The registry is that of the service, and the stages of the gateway may stand in names. -/
structure Exportable (s : Service V) : Prop where
  registry : s.registry.OfService
  stages : ∀ g ∈ s.gateway, ∀ p ∈ g.budget.stages, StageNamed p.1

section Counting

variable {r : Registry} (d : Decision)

theorem ofService_countDecision (a : DurableAuditLog) (h : r.OfService) :
    (countDecision d a r).OfService := by
  have hlabels : ∀ l ∈ ([("decision", d.decision.text), ("source", d.source.text)] :
      Dict String String), IsName l.1 ∧ IsPlain l.2 := by
    intro l hl
    simp only [List.mem_cons, List.not_mem_nil, or_false] at hl
    rcases hl with rfl | rfl
    · exact ⟨show IsName "decision" by decide, isPlain_verdict _⟩
    · exact ⟨show IsName "source" by decide, isPlain_source _⟩
  have hlatency : Named "gateway_decision_latency_ms" "End-to-end decision latency" := by decide
  have hdecisions : Named "gateway_decisions_total" "Decisions by outcome and source" := by decide
  have hobserved := h.exportable.onHistogram hlatency (f := (·.observe d.latencyMs)) fun _ => rfl
  have hcounted : Registry.OfService _ := ⟨hobserved.onCounter hdecisions 1 hlabels, h.gauges⟩
  exact hcounted.onGauge (by decide) (by decide) (f := (·.set a.buffer.length)) fun _ => rfl

theorem ofService_onUnshipped {f : Gauge → Gauge} (hf : ∀ g : Gauge, (f g).helpText = g.helpText)
    (h : r.OfService) : (onUnshipped f r).OfService :=
  h.onGauge (by decide) (by decide) hf

theorem ofService_countVelocityError (h : r.OfService) : (countVelocityError d r).OfService := by
  unfold countVelocityError
  split
  · refine ⟨h.exportable.onCounter (by decide) 1 fun l hl => ?_, h.gauges⟩
    rw [List.mem_singleton.mp hl]
    exact ⟨show IsName "source" by decide, isPlain_source _⟩
  · exact h

theorem ofService_exportStage {stage : String} (hstage : StageNamed stage) (samples : List ℚ)
    (h : r.OfService) : (exportStage r stage samples).OfService where
  exportable := h.exportable.onHistogram (named_stageMetric hstage) fun h =>
    Histogram.helpText_observeAll _ h
  gauges := h.gauges

end Counting

section Steps

variable {s : Service V}

theorem exportable_startup (h : s.Exportable) (velocity : V) (config : WalConfig) (now : ℚ)
    (file : Bytes) : (s.startup velocity config now file).Exportable where
  registry := h.registry
  stages g hg := by
    cases hg
    change ∀ p ∈ (Budget.make budgetMs).stages, StageNamed p.1
    decide

theorem exportable_shutdown (h : s.Exportable) : s.shutdown.Exportable where
  registry := h.registry
  stages g hg := by cases hg

/-- The stages of a decision may stand in names. -/
theorem stages_recordAll {c : Circumstances} {stages : List Stage} {b : Budget}
    (h : ∀ p ∈ b.stages, StageNamed p.1) :
    ∀ p ∈ (Gateway.recordAll c stages b).stages, StageNamed p.1 := by
  induction stages generalizing b with
  | nil => exact h
  | cons stage stages ih =>
    have hname : StageNamed stage.name := stageNamed_name stage
    have hrecord : ∀ p ∈ (b.record stage.name (c.elapsed stage)).stages, StageNamed p.1 := by
      change ∀ p ∈ b.stages.update stage.name [] (· ++ [c.elapsed stage]), StageNamed p.1
      exact Dict.forall_update h hname fun _ _ => hname
    exact ih hrecord

/-- **A request keeps the registry exportable**, also when the log cannot be read. -/
theorem exportable_authorize [VelocityCounter V] (h : s.Exportable) (k : GatewayCall) :
    (s.authorize k).2.Exportable where
  registry := by
    unfold Service.authorize
    cases hg : s.gateway with
    | none => exact h.registry
    | some g =>
      have hmade := ofService_onUnshipped (f := id) (fun _ => rfl)
        (ofService_countDecision (g.step k).1 (g.step k).2.audit h.registry)
      dsimp only
      cases (g.step k).2.audit.recover with
      | error e => exact hmade
      | ok p =>
        exact ofService_countVelocityError _
          (ofService_onUnshipped (f := (·.set p.1.length)) (fun _ => rfl) hmade)
  stages := by
    intro g hg
    obtain ⟨g₀, hg₀, hb⟩ := (Process.authorize_gateway s k).1 g hg
    rw [hb, Gateway.budget_step]
    exact stages_recordAll (h.stages g₀ hg₀)

theorem exportable_metrics (h : s.Exportable) : s.metrics.2.Exportable where
  registry := by
    unfold Service.metrics
    cases hg : s.gateway with
    | none => exact h.registry
    | some g =>
      have hstages := h.stages g hg
      have hfold : ∀ r : Registry, r.OfService →
          (g.budget.stages.foldl (fun r p => exportStage r p.1 p.2) r).OfService := by
        generalize g.budget.stages = d at hstages
        induction d with
        | nil => exact fun _ hr => hr
        | cons p d ih =>
          exact fun r hr => ih (fun q hq => hstages q (List.mem_cons_of_mem _ hq)) _
            (ofService_exportStage (hstages p List.mem_cons_self) p.2 hr)
      exact hfold _ h.registry
  stages := by
    rw [gateway_metrics]
    exact h.stages

end Steps

end Service

namespace Process

variable {V : Type*} [VelocityCounter V]

theorem exportable_step (p : Process V) (a : ServiceAction V) (h : p.service.Exportable) :
    (p.step a).2.service.Exportable := by
  cases a with
  | startup velocity config now file => exact Service.exportable_startup h velocity config now file
  | shutdown => exact Service.exportable_shutdown h
  | authorize k => exact Service.exportable_authorize h k
  | metrics => exact Service.exportable_metrics h

theorem exportable_after (as : List (ServiceAction V)) :
    (Machine.after step ({} : Process V) as).service.Exportable := by
  refine Machine.invariant (P := fun _ _ => True) (fun p a h _ => exportable_step p a h) ?_
    fun _ _ _ _ => trivial
  have hempty {μ : Type} {P : String × μ → Prop} : ∀ p ∈ ([] : Dict String μ), P p := fun p hp => by
    cases hp
  exact ⟨⟨⟨hempty, hempty, hempty, List.nodup_nil⟩, hempty⟩, fun g hg => by cases hg⟩

theorem unsuffixed_of_getLast {name : String} (h : name.toList.getLast? = some 'l') :
    Unsuffixed name := by
  have hlast {base suffix : String} {c : Char} (hs : suffix.toList.getLast? = some c) (hc : c ≠ 'l') :
      name ≠ base ++ suffix := by
    rintro rfl
    rw [String.toList_append, List.getLast?_append, hs] at h
    exact hc (Option.some.inj h)
  exact fun base => ⟨hlast (c := 't') rfl (by decide), hlast (c := 'm') rfl (by decide),
    hlast (c := 't') rfl (by decide)⟩

/-- **What a scrape finds.** After every run of startups, shutdowns, requests and scrapes, the page
is read back as the samples of the registry, and what is read of the decisions and of the velocity
errors is the value of each of their series, and nothing else. -/
theorem scrape_after (as : List (ServiceAction V)) :
    scrape (Machine.after step ({} : Process V) as).service.registry.render.toList =
        some (Machine.after step ({} : Process V) as).service.registry.samples ∧
      ∀ x : Sample, x.name ∈ ["gateway_decisions_total", velocityErrorsTotal] →
        (x ∈ (Machine.after step ({} : Process V) as).service.registry.samples ↔
          ∃ n, (Machine.after step ({} : Process V) as).service.registry.series? x.name x.labels =
            some n ∧ x.value = n.repr) := by
  obtain ⟨⟨hexportable, hgauges⟩, -⟩ := exportable_after as
  refine ⟨hexportable.scrape_render, fun x hname => ?_⟩
  have hnot : x.name ∉ gaugeNames ∧ x.name.toList.getLast? = some 'l' := by
    simp only [List.mem_cons, List.not_mem_nil, or_false] at hname
    rcases hname with h | h <;> rw [h] <;> exact ⟨by decide, rfl⟩
  refine hexportable.mem_samples_iff (unsuffixed_of_getLast hnot.2) fun hmem => ?_
  obtain ⟨p, hp, he⟩ := List.mem_map.mp hmem
  exact hnot.1 (he ▸ hgauges p hp)

end Process
