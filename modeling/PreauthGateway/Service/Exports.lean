import PreauthGateway.Service.VelocityErrors

/-!
# The export of the latencies

`metrics` takes the total of the exported histogram as the index of the first sample it has not
exported. The histogram lives as long as the process and the samples as long as the application, so
after a restart as many samples are passed over as earlier lifespans had exported.

## Main definitions

* `Process`, `ServiceAction`, `Process.step`: a process, with what its lifespans had recorded when
  they were last scraped
* `Process.ExportedOnce`: every sample is exported exactly once
* `Process.Aligned`: the scrapes that find nothing of an earlier lifespan, or nothing new

## Main results

* `Service.stageHistogram_metrics`: what a scrape does to the histogram of a stage
* `Process.exported_once_iff`: **when every scrape exports every sample exactly once**
-/

open Metrics

/-! ## One scrape -/

theorem stageMetric_injective : Function.Injective stageMetric := fun _ _ h =>
  (String.append_right_inj _).mp h

theorem stageMetric_ne (stage : String) : stageMetric stage ≠ "gateway_decision_latency_ms" :=
  String.append_ne (by decide)

/-- The histogram of a stage, a new one when there is none. -/
def stageHistogram (r : Registry) (stage : String) : Histogram :=
  (r.histograms.get? (stageMetric stage)).getD (.make ("Latency for stage " ++ stage))

namespace Service

variable {V : Type*}

theorem get?_exportStage (r : Registry) (stage : String) (samples : List ℚ) :
    (exportStage r stage samples).histograms.get? (stageMetric stage) =
      some ((stageHistogram r stage).observeAll (samples.drop (stageHistogram r stage).total)) :=
  Dict.get?_update_self _ _ _ _

theorem get?_exportStage_of_ne {r : Registry} {stage other : String} (h : other ≠ stage)
    (samples : List ℚ) : (exportStage r stage samples).histograms.get? (stageMetric other) =
      r.histograms.get? (stageMetric other) :=
  Dict.get?_update_of_ne (stageMetric_injective.ne h)

theorem get?_foldl_exportStage_of_notMem {d : Dict String (List ℚ)} {stage : String}
    (h : stage ∉ d.map Prod.fst) (r : Registry) :
    (d.foldl (fun r p => exportStage r p.1 p.2) r).histograms.get? (stageMetric stage) =
      r.histograms.get? (stageMetric stage) := by
  induction d generalizing r with
  | nil => rfl
  | cons p d ih =>
    obtain ⟨hp, hd⟩ := not_or.mp (mt List.mem_cons.mpr h)
    rw [List.foldl_cons, ih hd, get?_exportStage_of_ne hp]

/-- The export of all stages. -/
theorem get?_foldl_exportStage {d : Dict String (List ℚ)} (hd : (d.map Prod.fst).Nodup)
    (r : Registry) {stage : String} {samples : List ℚ} (h : d.get? stage = some samples) :
    (d.foldl (fun r p => exportStage r p.1 p.2) r).histograms.get? (stageMetric stage) =
      some ((stageHistogram r stage).observeAll (samples.drop (stageHistogram r stage).total)) := by
  induction d generalizing r with
  | nil => cases h
  | cons p d ih =>
    obtain ⟨hp, hd⟩ := List.nodup_cons.mp hd
    rw [List.foldl_cons]
    by_cases hs : p.1 = stage
    · subst hs
      rw [Dict.get?, if_pos rfl] at h
      cases h
      rw [get?_foldl_exportStage_of_notMem hp, get?_exportStage]
    · rw [Dict.get?_cons_of_ne _ hs] at h
      have hkeep : stageHistogram (exportStage r p.1 p.2) stage = stageHistogram r stage := by
        rw [stageHistogram, get?_exportStage_of_ne (Ne.symm hs), stageHistogram]
      rw [ih hd _ h, hkeep]

end Service

/-! ## The process -/

/-- The samples recorded for a stage in the current lifespan. -/
def Service.samples {V : Type*} (s : Service V) (stage : String) : List ℚ :=
  match s.gateway with
  | none => []
  | some g => g.budget.samples stage

/-- What happens to a process. -/
inductive ServiceAction (V : Type*)
  | startup (velocity : V) (config : WalConfig) (now : ℚ) (file : Bytes)
  | shutdown
  | authorize (k : GatewayCall)
  | metrics

/-- A process. For each stage, `earlier` are the samples that earlier lifespans had recorded when
they were last scraped, and `scraped` those the current one had. -/
structure Process (V : Type*) where
  service : Service V := {}
  earlier : String → List ℚ := fun _ => []
  scraped : String → List ℚ := fun _ => []

/-- The exception of an endpoint. -/
def exceptionOf {α : Type*} : Except PyError α → Option PyError
  | .error e => some e
  | .ok _ => none

namespace Service

variable {V : Type*}

/-- A scrape leaves the samples alone. -/
theorem samples_metrics (s : Service V) : s.metrics.2.samples = s.samples := by
  unfold Service.samples Service.metrics
  cases hg : s.gateway with
  | none => simp [hg]
  | some g => rfl

theorem gateway_metrics (s : Service V) : s.metrics.2.gateway = s.gateway := by
  unfold Service.metrics
  cases hg : s.gateway with
  | none => simp [hg]
  | some g => rfl

end Service

namespace Process

variable {V : Type*}

/-- The samples that are to be exported after a scrape. -/
def due (p : Process V) (stage : String) : List ℚ := p.earlier stage ++ p.scraped stage

/-- **Every sample is exported exactly once**: the histogram of every stage has the total and the
counts of one that observed the samples due. -/
def ExportedOnce (p : Process V) : Prop :=
  ∀ g ∈ p.service.gateway, ∀ stage ∈ g.budget.stages.map Prod.fst,
    ∃ h, p.service.registry.histograms.get? (stageMetric stage) = some h ∧
      h.total = (p.due stage).length ∧
      h.counts = ((Histogram.make ("Latency for stage " ++ stage)).observeAll (p.due stage)).counts

/-- The scrape finds, for every stage, that no earlier lifespan had exported a sample of it, or that
nothing was recorded for it since the last scrape of the current one. -/
def Aligned (p : Process V) : ServiceAction V → Prop
  | .metrics => ∀ g ∈ p.service.gateway, ∀ stage ∈ g.budget.stages.map Prod.fst,
    p.earlier stage = [] ∨ p.service.samples stage = p.scraped stage
  | .startup _ _ _ _ | .shutdown | .authorize _ => True

/-- Every histogram has observed what is due, and the samples of the last scrape begin those of the
lifespan. -/
structure Exporting (p : Process V) : Prop where
  observed : ∀ stage, stageHistogram p.service.registry stage =
    (Histogram.make ("Latency for stage " ++ stage)).observeAll (p.due stage)
  growing : ∀ stage, p.scraped stage <+: p.service.samples stage
  stages : ∀ g ∈ p.service.gateway, (g.budget.stages.map Prod.fst).Nodup

/-- **What a scrape does to the histogram of a stage.** -/
theorem stageHistogram_metrics {p : Process V} (hp : p.Exporting) (stage : String) :
    stageHistogram p.service.metrics.2.registry stage =
      (stageHistogram p.service.registry stage).observeAll
        ((p.service.samples stage).drop (stageHistogram p.service.registry stage).total) := by
  unfold Service.metrics Service.samples
  cases hg : p.service.gateway with
  | none =>
    dsimp only
    rw [List.drop_nil]
    rfl
  | some g =>
    dsimp only
    cases hs : g.budget.stages.get? stage with
    | none =>
      rw [Budget.samples, hs, Option.getD_none, List.drop_nil, stageHistogram,
        Service.get?_foldl_exportStage_of_notMem (Dict.get?_eq_none.mp hs)]
      rfl
    | some samples =>
      rw [Budget.samples, hs, Option.getD_some, stageHistogram,
        Service.get?_foldl_exportStage (hp.stages g hg) _ hs]
      rfl

theorem exporting_empty : ({} : Process V).Exporting where
  observed stage := rfl
  growing stage := List.prefix_rfl
  stages g hg := by cases hg

section Due

variable {p : Process V}

/-- Where nothing of an earlier lifespan was exported, or nothing is new, the samples that are not
passed over are those that are new. -/
theorem due_append_drop {stage : String} (hg : p.scraped stage <+: p.service.samples stage)
    (h : p.earlier stage = [] ∨ p.service.samples stage = p.scraped stage) :
    p.due stage ++ (p.service.samples stage).drop (p.due stage).length =
      p.earlier stage ++ p.service.samples stage := by
  obtain ⟨new, hnew⟩ := hg
  rw [due]
  rcases h with h | h
  · rw [h, List.nil_append, List.nil_append, ← hnew, List.drop_left]
  · rw [h, List.drop_of_length_le (by rw [List.length_append]; omega), List.append_nil]

/-- Otherwise too few are exported. -/
theorem length_due_append_drop {stage : String} (hg : p.scraped stage <+: p.service.samples stage)
    (h : ¬ (p.earlier stage = [] ∨ p.service.samples stage = p.scraped stage)) :
    (p.due stage ++ (p.service.samples stage).drop (p.due stage).length).length <
      (p.earlier stage ++ p.service.samples stage).length := by
  obtain ⟨hearlier, hnew⟩ := not_or.mp h
  have hpos := List.length_pos_iff.mpr hearlier
  have hlt : (p.scraped stage).length < (p.service.samples stage).length := by
    refine lt_of_le_of_ne hg.length_le fun e => hnew ?_
    exact (hg.eq_of_length e).symm
  simp only [due, List.length_append, List.length_drop]
  omega

/-- An aligned scrape is aligned at every stage: a stage without a histogram has no samples. -/
theorem Aligned.stage (h : p.Aligned .metrics) (hp : p.Exporting) (stage : String) :
    p.earlier stage = [] ∨ p.service.samples stage = p.scraped stage := by
  have hempty (he : p.service.samples stage = []) :
      p.service.samples stage = p.scraped stage := by
    have hg := hp.growing stage
    rw [he, List.prefix_nil] at hg
    rw [he, hg]
  cases hg : p.service.gateway with
  | none =>
    refine .inr (hempty ?_)
    rw [Service.samples, hg]
  | some g =>
    by_cases hs : stage ∈ g.budget.stages.map Prod.fst
    · exact h g hg stage hs
    · refine .inr (hempty ?_)
      rw [Service.samples, hg]
      dsimp only
      rw [Budget.samples, Dict.get?_eq_none.mpr hs, Option.getD_none]

end Due

variable [VelocityCounter V]

/-- The process answers an action with the exception it raises. -/
def step (p : Process V) : ServiceAction V → Option PyError × Process V
  | .startup velocity config now file =>
    (none, {
      service := p.service.startup velocity config now file
      earlier := fun stage => p.earlier stage ++ p.scraped stage })
  | .shutdown =>
    (none, {
      service := p.service.shutdown
      earlier := fun stage => p.earlier stage ++ p.scraped stage })
  | .authorize k =>
    (exceptionOf (p.service.authorize k).1, { p with service := (p.service.authorize k).2 })
  | .metrics =>
    (exceptionOf p.service.metrics.1, { p with
      service := p.service.metrics.2
      scraped := p.service.samples })

/-! ## Steps -/

section Authorize

variable (s : Service V) (k : GatewayCall)

/-- The gateway after a request, and the histograms of the stages. -/
theorem authorize_gateway :
    (∀ g ∈ (s.authorize k).2.gateway, ∃ g₀ ∈ s.gateway, g.budget = (g₀.step k).2.budget) ∧
      ((s.authorize k).2.gateway = none ↔ s.gateway = none) := by
  unfold Service.authorize
  cases hg : s.gateway with
  | none => simp [hg]
  | some g₀ =>
    dsimp only
    cases (g₀.step k).2.audit.recover with
    | error e => simp
    | ok p => simp

theorem stageHistogram_authorize (stage : String) :
    stageHistogram (s.authorize k).2.registry stage = stageHistogram s.registry stage := by
  have hcount (d : Decision) (a : DurableAuditLog) :
      (Service.countDecision d a s.registry).histograms.get? (stageMetric stage) =
        s.registry.histograms.get? (stageMetric stage) :=
    Dict.get?_update_of_ne (stageMetric_ne stage)
  have herror (d : Decision) (r : Registry) :
      (Service.countVelocityError d r).histograms = r.histograms := by
    unfold Service.countVelocityError
    split <;> rfl
  unfold stageHistogram Service.authorize
  cases hg : s.gateway with
  | none => rfl
  | some g₀ =>
    dsimp only
    cases (g₀.step k).2.audit.recover with
    -- `recover` raises, after the decision is counted
    | error e =>
      exact congrArg (fun h : Option Histogram => h.getD _)
        (hcount (g₀.step k).1 (g₀.step k).2.audit)
    | ok p =>
      dsimp only
      rw [herror]
      exact congrArg (fun h : Option Histogram => h.getD _)
        (hcount (g₀.step k).1 (g₀.step k).2.audit)

/-- A request adds samples. -/
theorem samples_authorize_grows (stage : String) :
    s.samples stage <+: (s.authorize k).2.samples stage := by
  obtain ⟨hsome, hnone⟩ := authorize_gateway s k
  unfold Service.samples
  cases hg : s.gateway with
  | none => exact List.nil_prefix
  | some g₀ =>
    cases hg' : (s.authorize k).2.gateway with
    | none =>
      rw [hnone.mp hg'] at hg
      cases hg
    | some g =>
      obtain ⟨g₁, hg₁, hb⟩ := hsome g hg'
      rw [hg] at hg₁
      cases hg₁
      dsimp only
      rw [hb, Gateway.budget_step]
      exact Gateway.samples_recordAll_grows _ _ _ _

end Authorize

theorem nodup_authorize {s : Service V} {k : GatewayCall}
    (h : ∀ g ∈ s.gateway, (g.budget.stages.map Prod.fst).Nodup) :
    ∀ g ∈ (s.authorize k).2.gateway, (g.budget.stages.map Prod.fst).Nodup := by
  intro g hg
  obtain ⟨g₀, hg₀, hb⟩ := (authorize_gateway s k).1 g hg
  rw [hb, Gateway.budget_step]
  exact Gateway.nodup_recordAll _ _ (h g₀ hg₀)

section Step

variable {p : Process V}

theorem exporting_startup (hp : p.Exporting) (velocity : V) (config : WalConfig) (now : ℚ)
    (file : Bytes) : (p.step (.startup velocity config now file)).2.Exporting where
  observed stage := by
    have h := hp.observed stage
    rw [due, ← List.append_nil (p.earlier stage ++ p.scraped stage)] at h
    exact h
  growing stage := List.nil_prefix
  stages g hg := by
    cases hg
    change ((Budget.make budgetMs).stages.map Prod.fst).Nodup
    decide

theorem exporting_shutdown (hp : p.Exporting) : (p.step .shutdown).2.Exporting where
  observed stage := by
    have h := hp.observed stage
    rw [due, ← List.append_nil (p.earlier stage ++ p.scraped stage)] at h
    exact h
  growing stage := List.nil_prefix
  stages g hg := by cases hg

theorem exporting_authorize (hp : p.Exporting) (k : GatewayCall) :
    (p.step (.authorize k)).2.Exporting where
  observed stage := (stageHistogram_authorize p.service k stage).trans (hp.observed stage)
  growing stage := (hp.growing stage).trans (samples_authorize_grows p.service k stage)
  stages := nodup_authorize hp.stages

/-- What the histogram of a stage has observed after a scrape. -/
theorem observed_metrics (hp : p.Exporting) (stage : String) :
    stageHistogram (p.step .metrics).2.service.registry stage =
      (Histogram.make ("Latency for stage " ++ stage)).observeAll
        (p.due stage ++ (p.service.samples stage).drop (p.due stage).length) := by
  have htotal : (stageHistogram p.service.registry stage).total = (p.due stage).length := by
    rw [hp.observed, Histogram.total_observeAll]
    exact Nat.zero_add _
  have h := stageHistogram_metrics hp stage
  rw [htotal, hp.observed, ← Histogram.observeAll_append] at h
  exact h

/-- What is due after a scrape. -/
theorem due_metrics (stage : String) :
    (p.step .metrics).2.due stage = p.earlier stage ++ p.service.samples stage := rfl

/-- **A scrape exports every sample exactly once when it is aligned**, and only then. -/
theorem exportedOnce_metrics_iff (hp : p.Exporting) :
    (p.step .metrics).2.ExportedOnce ↔ p.Aligned .metrics := by
  have hgateway : (p.step .metrics).2.service.gateway = p.service.gateway :=
    Service.gateway_metrics p.service
  have hstage (stage : String) (g : Gateway V DurableAuditLog) (hg : g ∈ p.service.gateway)
      (hs : stage ∈ g.budget.stages.map Prod.fst) :
      (p.step .metrics).2.service.registry.histograms.get? (stageMetric stage) =
        some (stageHistogram (p.step .metrics).2.service.registry stage) := by
    obtain ⟨samples, hs⟩ := Option.ne_none_iff_exists'.mp fun h => Dict.get?_eq_none.mp h hs
    have hget : ∃ h,
        (p.step .metrics).2.service.registry.histograms.get? (stageMetric stage) = some h := by
      change ∃ h, p.service.metrics.2.registry.histograms.get? (stageMetric stage) = some h
      unfold Service.metrics
      rw [Option.mem_def.mp hg]
      exact ⟨_, Service.get?_foldl_exportStage (hp.stages g hg) _ hs⟩
    obtain ⟨h, hget⟩ := hget
    rw [stageHistogram, hget, Option.getD_some]
  unfold ExportedOnce Aligned
  rw [hgateway]
  refine forall₄_congr fun g hg stage hs => ?_
  rw [hstage stage g hg hs, due_metrics, observed_metrics hp]
  by_cases h : p.earlier stage = [] ∨ p.service.samples stage = p.scraped stage
  · rw [due_append_drop (hp.growing stage) h]
    refine iff_of_true ⟨_, rfl, ?_, rfl⟩ h
    rw [Histogram.total_observeAll]
    exact Nat.zero_add _
  · refine iff_of_false ?_ h
    -- every sample exported in an earlier lifespan passes one over, so the total is too small
    rintro ⟨_, ⟨⟩, htotal, -⟩
    have hlt := length_due_append_drop (hp.growing stage) h
    rw [Histogram.total_observeAll] at htotal
    have hzero : (Histogram.make ("Latency for stage " ++ stage)).total = 0 := rfl
    omega

theorem exporting_metrics (hp : p.Exporting) (h : p.Aligned .metrics) :
    (p.step .metrics).2.Exporting where
  observed stage := by
    rw [observed_metrics hp, due_metrics, due_append_drop (hp.growing stage) (h.stage hp stage)]
  growing stage := by
    change p.service.samples stage <+: p.service.metrics.2.samples stage
    rw [Service.samples_metrics]
  stages g hg := by
    have hg' : g ∈ p.service.metrics.2.gateway := hg
    rw [Service.gateway_metrics] at hg'
    exact hp.stages g hg'

/-- Every step but a scrape that is not aligned keeps the invariant. -/
theorem exporting_step (hp : p.Exporting) (a : ServiceAction V) (h : p.Aligned a) :
    (p.step a).2.Exporting := by
  cases a with
  | startup velocity config now file => exact exporting_startup hp velocity config now file
  | shutdown => exact exporting_shutdown hp
  | authorize k => exact exporting_authorize hp k
  | metrics => exact exporting_metrics hp h

end Step

/-- **When every scrape exports every sample exactly once**: exactly when, at every scrape, no
earlier lifespan had exported a sample of the stage, or nothing was recorded for it since the last
scrape. -/
theorem exported_once_iff (as : List (ServiceAction V)) :
    (∀ pre post, as = pre ++ .metrics :: post →
        (Machine.after step {} (pre ++ [.metrics])).ExportedOnce) ↔
      Machine.Along step Aligned {} as := by
  have hiff : ∀ (p : Process V) (a : ServiceAction V), p.Exporting →
      ((a = .metrics → (p.step a).2.ExportedOnce) ↔ p.Aligned a) := by
    intro p a hp
    cases a with
    | metrics =>
      rw [← exportedOnce_metrics_iff hp]
      exact ⟨fun h => h rfl, fun h _ => h⟩
    | startup | shutdown | authorize =>
      refine iff_of_true (fun h => ?_) trivial
      cases h
  rw [← Machine.along_congr hiff (fun p a hp h => exporting_step hp a h) exporting_empty]
  constructor
  · rintro h pre a post hp rfl
    have := h pre post hp
    rwa [Machine.after_concat] at this
  · intro h pre post hp
    rw [Machine.after_concat]
    exact h pre .metrics post hp rfl

/-- One request and one scrape, and after a restart the same. -/
def restartRun : List (ServiceAction SafeCounter) :=
  [.startup {} {} 0 [], .authorize Service.emptyCacheCall, .metrics, .shutdown,
    .startup {} {} 0 [], .authorize Service.emptyCacheCall, .metrics]

/-- The sample of the second lifespan is not exported. -/
theorem not_exported_after_restart : ¬ ∀ pre post, restartRun = pre ++ .metrics :: post →
    (Machine.after step {} (pre ++ [.metrics])).ExportedOnce := by
  intro h
  have hlast := h (restartRun.take 6) [] rfl
  have hstate : ∃ p : Process SafeCounter,
      Machine.after step {} (restartRun.take 6 ++ [.metrics]) = p ∧
      ∃ g ∈ p.service.gateway, "parse_validate" ∈ g.budget.stages.map Prod.fst ∧
        (p.due "parse_validate").length = 2 ∧
        (p.service.registry.histograms.get? (stageMetric "parse_validate")).map (·.total) =
          some 1 := by
    refine ⟨_, rfl, ?_⟩
    decide +kernel
  obtain ⟨p, hp, g, hg, hs, hdue, hone⟩ := hstate
  rw [hp] at hlast
  obtain ⟨x, hx, htotal, -⟩ := hlast g hg "parse_validate" hs
  rw [hx, Option.map_some, htotal, hdue] at hone
  cases hone

end Process
