import PreauthGateway.Gateway.EveryRequest
import PreauthGateway.Gateway.VelocityPolicy

/-!
# Exposure without a score, and without a counter

Without a score the amount bounds what is approved. Without a counter it does not: a score below the
review band, or an amount of the middle tier, is approved above the ceiling of the policy for a
blind counter.

## Main definitions

* `Answers.obtained`: the score a request gets
* `KeepsCeiling`: the requests that are not approved above the blind ceiling

## Main results

* `Gateway.approve_without_score`: **what is approved without a score**
* `Gateway.blind_ceiling_iff`: **when a blind gateway keeps the ceiling of the policy**
-/

/-- The score a request gets: none when the features are unusable. -/
def Answers.obtained (a : Answers) : Option Score := if a.features.usable then a.scored else none

/-- The score is neither above the threshold nor in the review band. -/
def Clears (threshold score : PyFloat) : Prop :=
  ¬ threshold.Le score ∧ ¬ ((threshold.mul (.ofRat (4 / 5))).Le score ∧ score.Lt threshold)

instance (threshold score : PyFloat) : Decidable (Clears threshold score) :=
  inferInstanceAs (Decidable (_ ∧ _))

theorem judge_eq_approve {threshold score : PyFloat} :
    judge threshold score = .approve ↔ Clears threshold score := by
  unfold judge Clears
  dsimp only
  split
  · simp [*]
  · split <;> simp [*]

section Ruling

variable {req : Request} {modelThreshold : PyFloat} {a : Answers}

/-- A request that is approved has passed the first three stages. -/
theorem ruling_approve (h : (ruling req modelThreshold a).decision = .approve) :
    req.Admitted ∧ ¬ exceeds 12 a.count := by
  unfold ruling at h
  split at h
  · cases h
  split at h
  · cases h
  split at h
  · cases h
  · exact ⟨⟨by simpa using ‹¬ ¬ req.Valid›, ‹_›⟩, ‹_›⟩

/-- What an admitted request gets. -/
theorem ruling_admitted (modelThreshold : PyFloat) (hadm : req.Admitted) (he : ¬ exceeds 12 a.count) :
    (ruling req modelThreshold a).score = a.obtained ∧
      (ruling req modelThreshold a).decision =
        match a.obtained with
        | none => (degrade req.amountMinor a.count).1
        | some x => judge (effectiveThreshold modelThreshold a.features).1 x.value := by
  rw [ruling, if_neg (not_not.mpr hadm.1), if_neg hadm.2, if_neg he, Answers.obtained]
  by_cases hu : a.features.usable = true
  · rw [if_neg (not_not.mpr hu), if_pos hu]
    cases a.scored with
    | none => exact ⟨rfl, rfl⟩
    | some x => exact ⟨rfl, rfl⟩
  · rw [if_pos hu, if_neg hu]
    exact ⟨rfl, rfl⟩

/-- What the tiers approve. -/
theorem degrade_approve {amountMinor : ℤ} {count : Option ℕ} :
    (degrade amountMinor count).1 = .approve ↔
      amountMinor < 50000 ∧ (5000 ≤ amountMinor → ¬ exceeds 6 count) := by
  rw [degrade_eq]
  by_cases h₁ : amountMinor < 5000
  · rw [if_pos h₁]
    exact iff_of_true rfl ⟨by omega, fun h => by omega⟩
  rw [if_neg h₁]
  by_cases h₂ : amountMinor < 50000
  · rw [if_pos h₂]
    by_cases he : exceeds 6 count
    · rw [if_pos he]
      exact iff_of_false (by simp) fun h => h.2 (by omega) he
    · rw [if_neg he]
      exact iff_of_true rfl ⟨h₂, fun _ => he⟩
  · rw [if_neg h₂]
    exact iff_of_false (by simp) fun h => h₂ h.1

end Ruling

namespace Gateway

variable {V A : Type*} [VelocityCounter V] [AuditSink A] (g : Gateway V A) (k : GatewayCall)

/-- **Fail closed on exposure.** Whatever the state of the gateway and of its breaker, and whatever
the dependencies answer, what is approved without a score is a valid request of a card that is not
blocklisted, of less than `50000`; and from `5000` on the counter was unavailable, or returned at
most `6`. -/
theorem approve_without_score (h : (g.step k).1.decision = .approve)
    (hs : (g.step k).1.score = none) :
    k.request.amountMinor < 50000 ∧ k.request.cardId ∉ blocklist ∧ k.request.Valid ∧
      (5000 ≤ k.request.amountMinor →
        (g.answersTo k).count = none ∨ ∃ n, (g.answersTo k).count = some n ∧ n ≤ 6) := by
  rw [step_fst] at h hs
  obtain ⟨hadm, he⟩ := ruling_approve h
  obtain ⟨hscore, hdecision⟩ := ruling_admitted k.surroundings.modelThreshold hadm he
  have hnone : (g.answersTo k).obtained = none := hscore.symm.trans hs
  rw [hnone] at hdecision
  obtain ⟨hamount, hcount⟩ := degrade_approve.mp (hdecision.symm.trans h)
  refine ⟨hamount, hadm.2, hadm.1, fun h5 => ?_⟩
  have h6 : ¬ exceeds 6 (g.answersTo k).count := hcount h5
  cases hc : (g.answersTo k).count with
  | none => exact .inl rfl
  | some n =>
    refine .inr ⟨n, rfl, ?_⟩
    by_contra hn
    exact h6 ⟨n, hc, by omega⟩

/-- A call at rest: no cache, and a model that raises. -/
def idleCall (cardId : PyStr) (amountMinor nowMs : ℤ) : GatewayCall where
  surroundings := ⟨true, none, .ofRat (3 / 4)⟩
  circumstances := ⟨fun _ => 0, 0, fun _ => ⟨0, false⟩, 0, 0, fun _ => none, ⟨0, 0, 0, 0⟩⟩
  request := ⟨⟨[], List.isChain_nil⟩, cardId, [], [], amountMinor, PyStr.ofString "USD", nowMs⟩

/-- A gateway over a counter, with a log in memory. -/
def inProcess (velocity : SafeCounter) : Gateway SafeCounter AuditLog where
  velocity
  audit := {}
  budget := .make budgetMs

/-- An amount of the middle tier, with the model down. -/
theorem approve_without_score_middle :
    (7000 : ℤ) < 50000 ∧ [] ∉ blocklist ∧ (idleCall [] 7000 1).request.Valid ∧
      ((5000 : ℤ) ≤ 7000 → ((inProcess {}).answersTo (idleCall [] 7000 1)).count = none ∨
        ∃ n, ((inProcess {}).answersTo (idleCall [] 7000 1)).count = some n ∧ n ≤ 6) :=
  approve_without_score (inProcess {}) (idleCall [] 7000 1) (by decide +kernel) (by decide +kernel)

/-! ## A blind gateway -/

/-- While the counter cannot be seen, the gateway approves the call only if the policy for a blind
counter, on the same counter and with its default ceiling, approves it. -/
def DefersToPolicy : Prop :=
  (g.step k).1.decision = .approve → ∀ c : GateCircumstances,
    ((VelocityGate.decide c (PyStr.ofString "card:" ++ k.request.cardId) k.request.amountMinor
      k.request.nowMs { counter := g.velocity }).1.approved = true)

/-- The requests of a blind gateway that are not approved above the ceiling: those of at most the
ceiling, those without a score that fail closed, and those whose score reaches the review band. -/
def KeepsCeiling : Prop :=
  k.request.amountMinor ≤ defaultBlindApproveCeilingMinor ∨
    match (g.answersTo k).obtained with
    | none => 50000 ≤ k.request.amountMinor
    | some x => ¬ Clears
      (effectiveThreshold k.surroundings.modelThreshold (g.answersTo k).features).1 x.value

instance : Decidable (g.KeepsCeiling k) := by
  unfold KeepsCeiling
  cases (g.answersTo k).obtained <;> infer_instance

/-- **When a blind gateway keeps the ceiling of the policy.** -/
theorem blind_ceiling_iff (hraise : g.VelocityRaises k.request) :
    g.DefersToPolicy k ↔ g.KeepsCeiling k := by
  obtain ⟨hadm, hcount⟩ := hraise
  have hpolicy : (∀ c : GateCircumstances,
      (VelocityGate.decide c (PyStr.ofString "card:" ++ k.request.cardId) k.request.amountMinor
        k.request.nowMs { counter := g.velocity }).1.approved = true) ↔
      k.request.amountMinor ≤ defaultBlindApproveCeilingMinor := by
    constructor
    · exact fun h => (VelocityGate.decide_blind _ _ hcount).1.mp (h ⟨0, ""⟩)
    · exact fun h c => (VelocityGate.decide_blind c _ hcount).1.mpr h
  have hnone : (g.answersTo k).count = none := hcount
  have he (limit : ℕ) : ¬ exceeds limit (g.answersTo k).count := by
    rintro ⟨n, hn, -⟩
    rw [hnone] at hn
    cases hn
  have hdecision := (ruling_admitted k.surroundings.modelThreshold hadm (he 12)).2
  unfold DefersToPolicy KeepsCeiling
  rw [hpolicy, step_fst]
  change ((g.rule k).decision = .approve → _) ↔ _
  rw [show (g.rule k).decision = _ from hdecision]
  cases (g.answersTo k).obtained with
  | none =>
    dsimp only
    rw [degrade_approve]
    constructor
    · intro h
      by_contra hn
      obtain ⟨h₁, h₂⟩ := not_or.mp hn
      exact h₁ (h ⟨by omega, fun _ => he 6⟩)
    · rintro (h | h) ⟨hlt, -⟩
      · exact h
      · omega
  | some x =>
    dsimp only
    rw [judge_eq_approve]
    tauto

/-- With the counter and the model down, an amount of the middle tier is approved above the
ceiling. -/
theorem blind_approval :
    ¬ (inProcess { available := false }).DefersToPolicy (idleCall [] 20000 1) := by
  intro h
  have ha := h (by decide +kernel) ⟨0, ""⟩
  exact absurd ha (by decide +kernel)

/-- At the ceiling the policy agrees. -/
theorem blind_ceiling_iff_at_ceiling :
    (inProcess { available := false }).DefersToPolicy (idleCall [] 10000 1) ↔
      (inProcess { available := false }).KeepsCeiling (idleCall [] 10000 1) :=
  blind_ceiling_iff _ _ (by decide +kernel)

end Gateway
