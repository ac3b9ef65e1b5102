import PreauthGateway.Gateway.EveryRequest

/-!
# The funnel of the stages

A decision records the latency of every stage it went through, and one source. Neither store knows
of the other, but a request leaves the funnel of the stages exactly where its source says, so the
samples of the stages and the counts of the sources determine each other.

## Main definitions

* `Gateway.reached`, `Gateway.counted`: the samples of a stage, and the count of a source
* `Gateway.Balanced`: the two agree

## Main results

* `stages_of_source`: where a request leaves the funnel
* `Gateway.funnel`: **over every run the samples of each stage are those of the next one and the
  requests that left between them**
-/

/-- The sources of the tiers, with features or without. -/
def tierSources (noFeatures : Bool) : List Source :=
  [.degraded .failOpen noFeatures, .degraded .rulesOnly noFeatures, .degraded .failClosed noFeatures]

theorem Source.text_injective : Function.Injective Source.text := by
  have h : ∀ s ∈ [Source.hotRule, .rules, .model] ++ tierSources false ++ tierSources true,
      ∀ t ∈ [Source.hotRule, .rules, .model] ++ tierSources false ++ tierSources true,
        s.text = t.text → s = t := by decide +kernel
  have hall : ∀ s : Source,
      s ∈ [Source.hotRule, .rules, .model] ++ tierSources false ++ tierSources true := by
    rintro (_ | _ | _ | ⟨_ | _ | _, _ | _⟩) <;> decide
  exact fun s t => h s (hall s) t (hall t)

theorem Stage.name_injective : Function.Injective Stage.name := by
  intro s t
  cases s <;> cases t <;> decide

/-- **Where a request leaves the funnel.** -/
theorem stages_of_source (req : Request) (modelThreshold : PyFloat) (a : Answers) :
    (stagesReached req a).count .parseValidate = 1 ∧ (stagesReached req a).count .decideLog = 0 ∧
      (stagesReached req a).count .velocity ≤ (stagesReached req a).count .hotRules ∧
      (stagesReached req a).count .hotRules ≤ 1 ∧
      (stagesReached req a).count .velocity +
        [Source.hotRule].count (ruling req modelThreshold a).source = 1 ∧
      (stagesReached req a).count .features +
        [Source.rules].count (ruling req modelThreshold a).source =
          (stagesReached req a).count .velocity ∧
      (stagesReached req a).count .model +
        (tierSources true).count (ruling req modelThreshold a).source =
          (stagesReached req a).count .features ∧
      [Source.model].count (ruling req modelThreshold a).source +
        (tierSources false).count (ruling req modelThreshold a).source =
          (stagesReached req a).count .model := by
  have htier (tier : Tier) (b b' : Bool) :
      (tierSources b).count (.degraded tier b') = if b = b' then 1 else 0 := by
    cases tier <;> cases b <;> cases b' <;> decide
  unfold stagesReached ruling
  by_cases hv : ¬ req.Valid
  · rw [if_pos hv, if_pos hv]
    decide
  rw [if_neg hv, if_neg hv]
  by_cases hb : req.Blocklisted
  · rw [if_pos hb, if_pos hb]
    decide
  rw [if_neg hb, if_neg hb]
  by_cases he : exceeds 12 a.count
  · rw [if_pos he, if_pos he]
    simp [tierSources]
  rw [if_neg he, if_neg he]
  by_cases hu : ¬ a.features.usable
  · rw [if_pos hu, if_pos hu]
    simp [htier]
  rw [if_neg hu, if_neg hu]
  cases a.scored with
  | none => simp [htier]
  | some x => simp [tierSources]

namespace Gateway

variable {V A : Type*}

/-- The samples of a stage. -/
def reached (g : Gateway V A) (s : Stage) : ℕ := (g.budget.samples s.name).length

/-- The count of a source. -/
def counted (g : Gateway V A) (s : Source) : ℕ := (g.sourceCounts.get? s.text).getD 0

/-- The stages and the sources agree. -/
structure Balanced (g : Gateway V A) : Prop where
  parsed : g.reached .parseValidate = g.budget.total.length
  logged : g.reached .decideLog = g.budget.total.length
  ordered : g.reached .velocity ≤ g.reached .hotRules ∧ g.reached .hotRules ≤ g.budget.total.length
  hotRule : g.reached .velocity + g.counted .hotRule = g.budget.total.length
  rules : g.reached .features + g.counted .rules = g.reached .velocity
  noFeatures : g.reached .model + ((tierSources true).map g.counted).sum = g.reached .features
  model : g.counted .model + ((tierSources false).map g.counted).sum = g.reached .model

theorem balanced_of_empty {g : Gateway V A} (hreached : ∀ s, g.reached s = 0)
    (hcounted : ∀ s, g.counted s = 0) (htotal : g.budget.total = []) : g.Balanced := by
  constructor <;> simp [hreached, hcounted, htotal, tierSources]

section Step

variable [VelocityCounter V] [AuditSink A]

theorem reached_recordAll (c : Circumstances) (stages : List Stage) (b : Budget) (s : Stage) :
    ((recordAll c stages b).samples s.name).length = (b.samples s.name).length + stages.count s := by
  induction stages generalizing b with
  | nil => rfl
  | cons stage stages ih =>
    have hcons : recordAll c (stage :: stages) b =
        recordAll c stages (b.record stage.name (c.elapsed stage)) := rfl
    rw [hcons, ih, List.count_cons]
    by_cases h : stage = s
    · subst h
      rw [Budget.samples_record_self, List.length_append, List.length_singleton]
      simp
      omega
    · rw [Budget.samples_record_of_ne fun e => h (Stage.name_injective e).symm]
      simp [h]

variable (g : Gateway V A) (k : GatewayCall)

/-- A request adds one sample to each stage it goes through. -/
theorem reached_step (s : Stage) : (g.step k).2.reached s =
    g.reached s + (stagesReached k.request (g.answersTo k) ++ [Stage.decideLog]).count s := by
  have hsamples (b : Budget) (ms : ℚ) : (b.recordTotal ms).samples s.name = b.samples s.name := rfl
  rw [reached, budget_step, hsamples, reached_recordAll]
  rfl

/-- And one to its source. -/
theorem counted_step (s : Source) :
    (g.step k).2.counted s = g.counted s + [s].count (g.rule k).source := by
  rw [counted, sourceCounts_step]
  by_cases h : s = (g.rule k).source
  · rw [h, Dict.get?_update_self]
    simp [counted]
  · have hne : s.text ≠ (g.rule k).source.text := fun e => h (Source.text_injective e)
    rw [Dict.get?_update_of_ne hne]
    simp [counted, h]

theorem sum_counted_step (ss : List Source) :
    (ss.map (g.step k).2.counted).sum = (ss.map g.counted).sum + ss.count (g.rule k).source := by
  induction ss with
  | nil => rfl
  | cons s ss ih =>
    rw [List.map_cons, List.sum_cons, ih, counted_step, List.map_cons, List.sum_cons,
      ← List.singleton_append (l := ss), List.count_append]
    omega

theorem total_step :
    (g.step k).2.budget.total.length = g.budget.total.length + 1 := by
  rw [budget_step, Budget.total_recordTotal, total_recordAll, List.length_append,
    List.length_singleton]

variable {g k}

/-- **A decision keeps the balance.** -/
theorem Balanced.step (h : g.Balanced) : (g.step k).2.Balanced := by
  obtain ⟨hparse, hlog, hvel, hhot, hsource, hrules, hno, hmodel⟩ :=
    stages_of_source k.request k.surroundings.modelThreshold (g.answersTo k)
  change _ + [Source.hotRule].count (g.rule k).source = _ at hsource
  change _ + [Source.rules].count (g.rule k).source = _ at hrules
  change _ + (tierSources true).count (g.rule k).source = _ at hno
  change [Source.model].count (g.rule k).source +
    (tierSources false).count (g.rule k).source = _ at hmodel
  have hother (s : Stage) (hs : s ≠ .decideLog) : (g.step k).2.reached s =
      g.reached s + (stagesReached k.request (g.answersTo k)).count s := by
    rw [reached_step, List.count_append, List.count_eq_zero.mpr fun h => hs (List.mem_singleton.mp h)]
    rfl
  have hfinish : (g.step k).2.reached .decideLog = g.reached .decideLog + 1 := by
    rw [reached_step, List.count_append, hlog]
    rfl
  have hp := hother .parseValidate (by decide)
  have hh := hother .hotRules (by decide)
  have hv := hother .velocity (by decide)
  have hf := hother .features (by decide)
  have hm := hother .model (by decide)
  have ht := total_step g k
  obtain ⟨b₁, b₂, ⟨b₃, b₄⟩, b₅, b₆, b₇, b₈⟩ := h
  constructor
  · omega
  · omega
  · omega
  · rw [counted_step]
    omega
  · rw [counted_step]
    omega
  · rw [sum_counted_step]
    omega
  · rw [counted_step, sum_counted_step]
    omega

theorem samples_make (budget : Dict String ℚ) (s : String) : (Budget.make budget).samples s = [] := by
  unfold Budget.samples
  cases h : (Budget.make budget).stages.get? s with
  | none => rfl
  | some xs =>
    obtain ⟨p, -, hp⟩ := List.mem_map.mp (Dict.mem_of_get? h)
    cases hp
    rfl

/-- **The funnel.** After every run of a gateway with a new budget and no counts, of the requests
each stage saw, the next one saw those that did not leave with the source in between: an invalid
request or a blocklisted card, the velocity limit, unusable features, the model or its absence. -/
theorem funnel (budget : Dict String ℚ) (g : Gateway V A) (ks : List GatewayCall) :
    (Machine.after Gateway.step { g with budget := .make budget, sourceCounts := [] } ks).Balanced ∧
      (Machine.after Gateway.step { g with budget := .make budget, sourceCounts := [] } ks
        ).budget.total.length = ks.length := by
  have hstart : Balanced { g with budget := .make budget, sourceCounts := [] } :=
    balanced_of_empty (fun s => congrArg List.length (samples_make budget s.name)) (fun _ => rfl) rfl
  constructor
  · exact Machine.invariant (P := fun _ _ => True) (fun a q ha _ => ha.step) hstart
      fun _ _ _ _ => trivial
  · induction ks using List.reverseRecOn with
    | nil => rfl
    | append_singleton ks k ih =>
      rw [Machine.after_concat, total_step, ih, List.length_append, List.length_singleton]

end Step

end Gateway
