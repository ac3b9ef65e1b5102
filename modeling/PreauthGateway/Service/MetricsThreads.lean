import PreauthGateway.Program.LostUpdate
import PreauthGateway.Service.Quantile
import PreauthGateway.Service.VelocityErrors

/-!
# The counts of the service under threads

The endpoints run in threads, and nothing guards `source_counts`, the histogram of the latencies and
the counters: each `+= 1` reads a number and later writes the next one. The lock of the registry
guards only the making of a metric.

## Main definitions

* `Series`, `Series.value`: the numbers that a decision moves, and where they are kept
* `updates`: those a decision moves, in the order of the code
* `served`: the events of threads that serve decisions

## Main results

* `Service.value_authorize`: what one call of `authorize` alone does to every series
* `series_le_decisions`: **no series ever counts a decision that is not one of its own, and when all
  threads have ended it counts them all exactly when no read of it was overtaken by a write**
-/

open Metrics

/-- The numbers a decision moves. -/
inductive Series
  | source (text : String)
  | latencyTotal
  | latencyBucket (le : ℚ)
  | decisions (labels : List (String × String))
  | velocityErrors (labels : List (String × String))
deriving DecidableEq

/-- `"gateway_decision_latency_ms"`. -/
def decisionLatencyMs : String := "gateway_decision_latency_ms"

/-- The labels of a decision. -/
def decisionLabels (d : Decision) : List (String × String) :=
  ([("decision", d.decision.text), ("source", d.source.text)] : Dict String String).insertionSort
    fun a b => a.1 ≤ b.1

/-- The labels of a velocity error. -/
def errorLabels (d : Decision) : List (String × String) :=
  ([("source", d.source.text)] : Dict String String).insertionSort fun a b => a.1 ≤ b.1

namespace Series

/-- Where the numbers are kept: in `source_counts` and in the registry. -/
def value (sourceCounts : Dict String ℕ) (r : Registry) : Series → ℕ
  | source text => (sourceCounts.get? text).getD 0
  | latencyTotal => ((r.histograms.get? decisionLatencyMs).map Histogram.total).getD 0
  | latencyBucket le =>
    ((r.histograms.get? decisionLatencyMs).bind fun h => h.counts.get? le).getD 0
  | decisions labels => r.counterValue "gateway_decisions_total" labels
  | velocityErrors labels => r.counterValue velocityErrorsTotal labels

end Series

/-- The series a decision moves: `_finish`, `observe`, and the counters of `authorize`. -/
def updates (d : Decision) : List Series :=
  [.source d.source.text, .latencyTotal] ++
    (latencyBucketsMs.filter fun b => d.latencyMs ≤ b).map .latencyBucket ++
    [.decisions (decisionLabels d)] ++
    if d.source.isDegraded then [.velocityErrors (errorLabels d)] else []

/-- The histogram of the latencies, if there is one, has the buckets it was made with. -/
def KeepsBuckets (r : Registry) : Prop :=
  ∀ h, r.histograms.get? decisionLatencyMs = some h → h.buckets = latencyBucketsMs ∧
    ∀ b ∈ latencyBucketsMs, ∃ n, h.counts.get? b = some n

/-- The registry after `authorize` has counted a decision and shown the number of unshipped
records. -/
def counted (d : Decision) (a : DurableAuditLog) (unshipped : ℕ) (r : Registry) : Registry :=
  Service.countVelocityError d (Service.onUnshipped (·.set unshipped)
    (Service.onUnshipped id (Service.countDecision d a r)))

section OneDecision

variable (d : Decision) (a : DurableAuditLog) (n : ℕ) {r : Registry}

theorem histogram_counted : (counted d a n r).histograms.get? decisionLatencyMs =
    some (((r.histograms.get? decisionLatencyMs).getD
      (.make "End-to-end decision latency")).observe d.latencyMs) := by
  have h : (counted d a n r).histograms = (r.onHistogram decisionLatencyMs
      "End-to-end decision latency" (·.observe d.latencyMs)).histograms := by
    unfold counted Service.countVelocityError
    split <;> rfl
  rw [h]
  exact Dict.get?_update_self _ _ _ _

theorem decisions_counted (l : List (String × String)) :
    (counted d a n r).counterValue "gateway_decisions_total" l =
      r.counterValue "gateway_decisions_total" l + if l = decisionLabels d then 1 else 0 := by
  have h : (counted d a n r).counterValue "gateway_decisions_total" l =
      (r.onCounter "gateway_decisions_total" "Decisions by outcome and source" (·.inc
        [("decision", d.decision.text), ("source", d.source.text)] 1)).counterValue
          "gateway_decisions_total" l := by
    unfold counted Service.countVelocityError
    split
    · exact Registry.counterValue_onCounter_of_ne (by decide) _ _ _ _
    · rfl
  rw [h, Registry.counterValue_inc_self]
  rfl

theorem velocityErrors_counted (l : List (String × String)) :
    (counted d a n r).counterValue velocityErrorsTotal l = r.counterValue velocityErrorsTotal l +
      if d.source.isDegraded = true ∧ l = errorLabels d then 1 else 0 := by
  have h : (Service.onUnshipped (·.set n) (Service.onUnshipped id
      (Service.countDecision d a r))).counterValue velocityErrorsTotal l =
        r.counterValue velocityErrorsTotal l :=
    Registry.counterValue_onCounter_of_ne (by decide) _ _ _ _
  rw [← h, counted, Service.countVelocityError]
  by_cases hd : d.source.isDegraded = true
  · rw [if_pos hd, Registry.counterValue_inc_self]
    simp only [hd, true_and]
    rfl
  · rw [if_neg hd, if_neg fun h => hd h.1, Nat.add_zero]

theorem nodup_latencyBucketsMs : latencyBucketsMs.Nodup := by decide +kernel

/-- The histogram of the latencies, a new one when there is none. -/
def latencies (r : Registry) : Histogram :=
  (r.histograms.get? decisionLatencyMs).getD (.make "End-to-end decision latency")

theorem keepsBuckets_latencies (hr : KeepsBuckets r) : (latencies r).buckets = latencyBucketsMs ∧
    ∀ b ∈ latencyBucketsMs, ∃ n, (latencies r).counts.get? b = some n := by
  unfold latencies
  cases hh : r.histograms.get? decisionLatencyMs with
  | none => exact ⟨rfl, fun b hb => ⟨0, Histogram.get?_zeros hb⟩⟩
  | some h => exact hr h hh

theorem value_latencyBucket (sourceCounts : Dict String ℕ) (b : ℚ) :
    (Series.latencyBucket b).value sourceCounts r = ((latencies r).counts.get? b).getD 0 := by
  unfold Series.value latencies
  cases r.histograms.get? decisionLatencyMs with
  | some h => rfl
  | none =>
    by_cases hb : b ∈ latencyBucketsMs
    · exact (congrArg (Option.getD · 0) (Histogram.get?_zeros hb)).symm
    · have hkeys : (Histogram.make "End-to-end decision latency").counts.map Prod.fst =
          latencyBucketsMs := (List.map_map ..).trans (List.map_id _)
      have hnone : (Histogram.make "End-to-end decision latency").counts.get? b = none :=
        Dict.get?_eq_none.mpr (by rwa [hkeys])
      exact (congrArg (Option.getD · 0) hnone).symm

/-- A counted decision adds one to each of its series, and leaves the others. -/
theorem value_counted (hr : KeepsBuckets r) (sourceCounts : Dict String ℕ) (s : Series) :
    s.value (sourceCounts.update d.source.text 0 (· + 1)) (counted d a n r) =
      s.value sourceCounts r + if s ∈ updates d then 1 else 0 := by
  cases s with
  | source text =>
    by_cases h : text = d.source.text
    · subst h
      simp [Series.value, updates]
    · have hmem : Series.source text ∉ updates d := by
        simp only [updates]
        split <;> simp [h]
      rw [if_neg hmem, Nat.add_zero, Series.value, Series.value, Dict.get?_update_of_ne h]
  | latencyTotal =>
    have hmem : Series.latencyTotal ∈ updates d := by simp [updates]
    rw [if_pos hmem, Series.value, Series.value, histogram_counted]
    cases r.histograms.get? decisionLatencyMs with
    | none => rfl
    | some h => rfl
  | latencyBucket b =>
    have hmem : Series.latencyBucket b ∈ updates d ↔ b ∈ latencyBucketsMs ∧ d.latencyMs ≤ b := by
      simp only [updates]
      split <;> simp
    obtain ⟨hbuckets, hcounts⟩ := keepsBuckets_latencies hr
    have hafter : latencies (counted d a n r) = (latencies r).observe d.latencyMs := by
      rw [latencies, histogram_counted, Option.getD_some, latencies]
    rw [value_latencyBucket, value_latencyBucket, hafter, Histogram.observe, hbuckets]
    by_cases hb : b ∈ latencyBucketsMs
    · obtain ⟨m, hm⟩ := hcounts b hb
      simp only [Histogram.get?_bump nodup_latencyBucketsMs hb hm, hm, Option.getD_some, hmem, hb,
        true_and]
    · rw [if_neg fun h => hb (hmem.mp h).1, Histogram.get?_bump_of_notMem hb, Nat.add_zero]
  | decisions l =>
    have hmem : Series.decisions l ∈ updates d ↔ l = decisionLabels d := by
      simp only [updates]
      split <;> simp
    simp only [Series.value, hmem, decisions_counted]
  | velocityErrors l =>
    have hmem : Series.velocityErrors l ∈ updates d ↔
        d.source.isDegraded = true ∧ l = errorLabels d := by
      simp only [updates]
      split <;> simp [*]
    simp only [Series.value, hmem, velocityErrors_counted]

end OneDecision

/-- **What one call of `authorize` does alone**, when it can read the log: it adds one to each
series of its decision, and leaves the others. -/
theorem Service.value_authorize {V : Type*} [VelocityCounter V] {s : Service V} {k : GatewayCall}
    {g : Gateway V DurableAuditLog} (hg : s.gateway = some g) {out : List Json}
    {audit : DurableAuditLog} (hrec : (g.step k).2.audit.recover = .ok (out, audit))
    (hr : KeepsBuckets s.registry) (x : Series) :
    x.value (g.step k).2.sourceCounts (s.authorize k).2.registry =
      x.value g.sourceCounts s.registry + if x ∈ updates (g.step k).1 then 1 else 0 := by
  have hregistry : (s.authorize k).2.registry =
      counted (g.step k).1 (g.step k).2.audit out.length s.registry := by
    unfold authorize
    rw [hg]
    dsimp only
    rw [hrec]
    rfl
  have hsource : (g.step k).1.source = (g.rule k).source := by rw [Gateway.step_fst]
  rw [hregistry, Gateway.sourceCounts_step, ← hsource]
  exact value_counted _ _ _ hr _ x

/-! ## Decisions in threads -/

/-- A thread that serves a decision starts with the updates of its series. -/
def served (es : List (Pool.Event Decision Unit)) : List (Pool.Event (List (Series × Unit)) Unit) :=
  es.map (Pool.Event.mapCall fun d => (updates d).map fun s => (s, ()))

/-- The threads that share the series; every update reads a number and writes the next. -/
abbrev SeriesPool := Pool (Series → ℕ) (LostUpdate.Thread Series Unit ℕ) (LostUpdate.Access Series ℕ)

/-- The pool after an event. -/
abbrev SeriesPool.next : SeriesPool → Pool.Event (List (Series × Unit)) Unit → Option SeriesPool :=
  LostUpdate.next fun _ n => n + 1

theorem nodup_updates (d : Decision) : (updates d).Nodup := by
  have hbuckets : ((latencyBucketsMs.filter fun b => d.latencyMs ≤ b).map
      Series.latencyBucket).Nodup :=
    (nodup_latencyBucketsMs.filter _).map fun a b h => by
      cases h
      rfl
  simp only [updates]
  split <;> simp [List.nodup_append, hbuckets] <;> (rintro _ b - - rfl; simp)

/-- The updates of a series that the threads were asked for are its decisions. -/
theorem asked_served {es : List (Pool.Event Decision Unit)} {values : Series → ℕ} {c : SeriesPool}
    (h : Runs.run SeriesPool.next { shared := values } (served es) = some c) (s : Series) :
    LostUpdate.asked s c = (Pool.starts es).countP fun d => s ∈ updates d := by
  rw [LostUpdate.asked_run h, LostUpdate.asked, List.map_nil, List.sum_nil, Nat.zero_add, served,
    Pool.starts_map, List.map_map]
  have hone : ∀ d, LostUpdate.onCell s ((updates d).map fun s => (s, ())) =
      if s ∈ updates d then 1 else 0 := by
    intro d
    rw [LostUpdate.onCell, List.countP_map]
    by_cases hs : s ∈ updates d
    · rw [if_pos hs, ← List.count_eq_one_of_mem (nodup_updates d) hs, List.count]
      rfl
    · rw [if_neg hs, List.countP_eq_zero]
      rintro t ht hts
      rw [Function.comp_apply, decide_eq_true_eq] at hts
      exact hs (hts ▸ ht)
  induction Pool.starts es with
  | nil => rfl
  | cons d ds ih =>
    rw [List.map_cons, List.sum_cons, ih, Function.comp_apply, hone, List.countP_cons]
    simp only [decide_eq_true_eq]
    exact Nat.add_comm _ _

/-- **No series ever counts more than its own decisions**, while threads are running and after; when
all have ended it counts them all exactly when every write to it was made on a number that no other
thread had written since it was read. -/
theorem series_le_decisions (sourceCounts : Dict String ℕ) (r : Registry)
    {es : List (Pool.Event Decision Unit)} {c : SeriesPool}
    (h : Runs.run SeriesPool.next { shared := Series.value sourceCounts r } (served es) = some c)
    (s : Series) :
    c.shared s ≤ s.value sourceCounts r + (Pool.starts es).countP (fun d => s ∈ updates d) ∧
      ((∀ p ∈ c.threads, p.rest = []) →
        (c.shared s = s.value sourceCounts r + (Pool.starts es).countP (fun d => s ∈ updates d) ↔
          LostUpdate.Undisturbed s c.journal)) := by
  have hgrow : ∀ (_ : Unit) (n : ℕ), True → True → True ∧ id (n + 1) = id n + 1 :=
    fun _ _ _ _ => ⟨trivial, rfl⟩
  rw [← asked_served h s]
  constructor
  · exact LostUpdate.size_le_asked hgrow trivial (fun _ _ _ _ => trivial) h
  · exact LostUpdate.size_eq_asked_iff hgrow trivial (fun _ _ _ _ => trivial) h

/-- Two declines that are counted at once: both threads read every number before either writes
it. -/
def twoDeclines : List (Pool.Event Decision Unit) :=
  let d : Decision := ⟨⟨[], by decide⟩, .decline, .hotRule, none, [.invalidRequest], 2000, ""⟩
  [.start d, .start d] ++ (List.range 6).flatMap fun _ => [.step 0 (), .step 1 ()]

theorem series_le_decisions_two : ∃ c,
    Runs.run SeriesPool.next { shared := Series.value [] {} } (served twoDeclines) = some c ∧
      c.shared (.source "hot_rule") = 1 ∧
      (Pool.starts twoDeclines).countP (fun d => .source "hot_rule" ∈ updates d) = 2 ∧
      ∀ s, c.shared s ≤ s.value [] {} + (Pool.starts twoDeclines).countP (fun d => s ∈ updates d) ∧
        ((∀ p ∈ c.threads, p.rest = []) →
          (c.shared s = s.value [] {} + (Pool.starts twoDeclines).countP (fun d => s ∈ updates d) ↔
            LostUpdate.Undisturbed s c.journal)) := by
  have h : (Runs.run SeriesPool.next { shared := Series.value [] {} } (served twoDeclines)).map
      (fun c => c.shared (.source "hot_rule")) = some 1 := by decide +kernel
  obtain ⟨c, hrun, hone⟩ := Option.map_eq_some_iff.mp h
  exact ⟨c, hrun, hone, by decide +kernel, series_le_decisions [] {} hrun⟩
