import PreauthGateway.Gateway.Ruling
import PreauthGateway.Program.Machine

/-!
# Every request is decided and logged once

## Main definitions

* `Gateway.VelocityRaises`: the velocity call of a request raises

## Main results

* `ruling_score_iff`: a score comes with the source `model`, and only with it
* `velocityStoreDown_mem_ruling`: the store is reported exactly when the velocity call raised
* `Gateway.every_request_logged`: over every run, one record, one source and one latency a request
-/

/-- A text that does not begin with `s` is no text that does. -/
theorem String.append_ne {s t u : String} (h : s.toList.isPrefixOf u.toList = false) :
    s ++ t ≠ u := by
  rintro rfl
  rw [String.toList_append, List.isPrefixOf_iff_prefix.mpr (List.prefix_append _ _)] at h
  cases h

/-- No other reason has the text of this one. -/
theorem Reason.text_eq_velocityStoreDown {r : Reason} :
    r.text = "velocity_store_down" ↔ r = .velocityStoreDown := by
  constructor
  · intro h
    cases r with
    | velocityStoreDown => rfl
    | missingHardFeature f => exact absurd h (String.append_ne (by decide))
    | staleSoftFeature f => exact absurd h (String.append_ne (by decide))
    | confidenceDiscountedBy d => exact absurd h (String.append_ne (by decide))
    | invalidRequest | cardBlocklisted | velocityExceeded | featureCacheDown | featuresPartial
    | modelUnavailable | circuitOpen | confidenceDiscounted => exact absurd h (by decide)
  · rintro rfl
    rfl

section Ruling

variable (req : Request) (modelThreshold : PyFloat) (a : Answers)

/-- **A score comes with the source `model`, and only with it.** -/
theorem ruling_score_iff :
    (ruling req modelThreshold a).score ≠ none ↔
      (ruling req modelThreshold a).source = .model := by
  unfold ruling
  split
  · simp
  split
  · simp
  split
  · simp
  split
  · simp
  split <;> simp

/-- The reasons of the features are about the features. -/
theorem velocityStoreDown_notMem_bundle (b : FeatureBundle) :
    Reason.velocityStoreDown ∉ b.reasons := by
  simp [FeatureBundle.reasons]

/-- **The store is reported exactly when the velocity call raised.** -/
theorem velocityStoreDown_mem_ruling (hf : Reason.velocityStoreDown ∉ a.features.reasons) :
    Reason.velocityStoreDown ∈ (ruling req modelThreshold a).reasons ↔
      req.Admitted ∧ a.count = none := by
  have hv : Reason.velocityStoreDown ∈ a.velocityReasons ↔ a.count = none := by
    unfold Answers.velocityReasons
    split <;> simp [*]
  have ht : Reason.velocityStoreDown ∉ (effectiveThreshold modelThreshold a.features).2 := by
    unfold effectiveThreshold
    split
    · simp
    · split <;> simp
  unfold ruling
  split
  · rename_i h
    simp [Request.Admitted, h]
  split
  · rename_i h
    simp [Request.Admitted, h]
  rename_i hvalid hblocked
  have hadm : req.Admitted := ⟨not_not.mp hvalid, hblocked⟩
  split
  · simp [hv, hadm]
  split
  · simp [hv, hf, hadm]
  split
  · have hc : Reason.velocityStoreDown ≠ if a.isOpen then .circuitOpen else .modelUnavailable := by
      split <;> simp
    simp [hv, hf, hadm, hc]
  · simp [hv, hf, hadm, ht]

end Ruling

namespace Gateway

variable {V A : Type*}

theorem velocityStoreDown_notMem_features (g : Gateway V A) (c : Circumstances) (req : Request) :
    Reason.velocityStoreDown ∉ (g.assembleFeatures c req).1.reasons := by
  unfold assembleFeatures
  split
  · exact velocityStoreDown_notMem_bundle _
  · split <;> simp

variable [VelocityCounter V] [AuditSink A]

/-- The velocity call of a request raises: the request reaches it, and the store is unavailable. -/
def VelocityRaises (g : Gateway V A) (req : Request) : Prop :=
  req.Admitted ∧ (VelocityCounter.incrAndCount (PyStr.ofString "card:" ++ req.cardId) req.nowMs
    g.velocity).1 = none

instance (g : Gateway V A) (req : Request) : Decidable (g.VelocityRaises req) :=
  inferInstanceAs (Decidable (_ ∧ _))

/-- What one call writes. -/
theorem records_step (g : Gateway V A) (k : GatewayCall) :
    ∃ r, AuditSink.records (g.step k).2.audit = AuditSink.records g.audit ++ [r] ∧
      Logs r (g.step k).1 := by
  refine ⟨auditRecord k.request (g.rule k).decision (g.rule k).source (g.rule k).score
    (g.rule k).reasons, ?_, ?_⟩
  · rw [audit_step, AuditSink.records_write]
  · rw [step_fst]
    exact logs_auditRecord _ _ _ _ _ _ _

/-- What a run writes. -/
theorem records_after (g : Gateway V A) (ks : List GatewayCall) :
    ∃ rs, AuditSink.records (Machine.after step g ks).audit = AuditSink.records g.audit ++ rs ∧
      List.Forall₂ Logs rs (Machine.replies step g ks) := by
  induction ks generalizing g with
  | nil => exact ⟨[], (List.append_nil _).symm, .nil⟩
  | cons k ks ih =>
    obtain ⟨r, hr, hlogs⟩ := records_step g k
    obtain ⟨rs, hrs, hall⟩ := ih (g.step k).2
    refine ⟨r :: rs, ?_, .cons hlogs hall⟩
    rw [Machine.after_cons, hrs, hr, List.append_assoc]
    rfl

/-- The sources counted and the latencies recorded by a run. -/
theorem counts_after (g : Gateway V A) (ks : List GatewayCall) :
    ((Machine.after step g ks).sourceCounts.map Prod.snd).sum =
        (g.sourceCounts.map Prod.snd).sum + ks.length ∧
      (Machine.after step g ks).budget.total.length = g.budget.total.length + ks.length := by
  induction ks generalizing g with
  | nil => exact ⟨rfl, rfl⟩
  | cons k ks ih =>
    obtain ⟨hs, ht⟩ := ih (g.step k).2
    rw [Machine.after_cons, hs, ht, sourceCounts_step, Dict.sum_update, budget_step]
    simp only [Budget.total_recordTotal, total_recordAll, List.length_append, List.length_cons,
      List.length_nil]
    exact ⟨by omega, by omega⟩

/-- **Every request is decided, and logged exactly once as decided.** Over every run: the verdicts
are the three of the contract; the records written are, one by one, those of the decisions returned;
a score comes with the source `model` and only with it; the velocity store is reported exactly when
the velocity call raised; and records, sources counted and latencies grow by the number of calls. -/
theorem every_request_logged (g : Gateway V A) (ks : List GatewayCall) :
    (∀ d ∈ Machine.replies step g ks, d.decision.text ∈ ["approve", "decline", "review"]) ∧
      (∃ rs, AuditSink.records (Machine.after step g ks).audit =
          AuditSink.records g.audit ++ rs ∧
        rs.length = ks.length ∧ List.Forall₂ Logs rs (Machine.replies step g ks)) ∧
      (∀ d ∈ Machine.replies step g ks, d.score ≠ none ↔ d.source = .model) ∧
      (∀ pre k post, ks = pre ++ k :: post →
        ("velocity_store_down" ∈ ((Machine.after step g pre).step k).1.reasons.map Reason.text ↔
          (Machine.after step g pre).VelocityRaises k.request)) ∧
      ((Machine.after step g ks).sourceCounts.map Prod.snd).sum =
        (g.sourceCounts.map Prod.snd).sum + ks.length ∧
      (Machine.after step g ks).budget.total.length = g.budget.total.length + ks.length := by
  obtain ⟨rs, hrs, hall⟩ := records_after g ks
  have hlen : rs.length = ks.length := by
    rw [hall.length_eq, Machine.length_replies]
  refine ⟨fun d _ => ?_, ⟨rs, hrs, hlen, hall⟩, ?_, ?_, counts_after g ks⟩
  · cases d.decision <;> decide
  · intro d hd
    obtain ⟨pre, k, post, -, rfl⟩ := Machine.exists_of_mem_replies step hd
    rw [step_fst]
    exact ruling_score_iff _ _ _
  · intro pre k post _
    generalize Machine.after step g pre = g'
    -- only one of the reasons has this text
    have ht : "velocity_store_down" ∈ (g'.step k).1.reasons.map Reason.text ↔
        Reason.velocityStoreDown ∈ (g'.step k).1.reasons := by
      simp [List.mem_map, Reason.text_eq_velocityStoreDown]
    rw [ht, step_fst]
    exact velocityStoreDown_mem_ruling _ _ _ (velocityStoreDown_notMem_features _ _ _)

end Gateway
