import PreauthGateway.Gateway.RateLimit

/-!
# What a card is approved without a score

Without a score the amount decides, and from the second tier on the count of the card. So while the
counter of the process is available, the two limits of the policy bound together what one card can
be approved in a window when the model cannot be asked: twelve approvals, six of them of the second
tier.

## Main definitions

* `UnscoredApproval`: an approval of the card in a window, without a score
* `unscoredAmount`: the amount of these approvals in a run

## Main results

* `Gateway.unscored_exposure`: **no window of a card approves more than 329988 minor units without a
  score**
-/

/-- An approval of the card without a score, at a time in `(T, T + W]`. -/
def UnscoredApproval (W : ℕ) (card : PyStr) (T : ℚ) (p : GatewayCall × Decision) : Prop :=
  p.1.request.cardId = card ∧ T < p.1.request.nowMs ∧ p.1.request.nowMs ≤ T + W ∧
    p.2.decision = .approve ∧ p.2.score = none

instance (W : ℕ) (card : PyStr) (T : ℚ) (p : GatewayCall × Decision) :
    Decidable (UnscoredApproval W card T p) :=
  inferInstanceAs (Decidable (_ ∧ _))

/-- What the card was approved without a score in the window, in minor units. -/
def unscoredAmount (W : ℕ) (card : PyStr) (T : ℚ) (ps : List (GatewayCall × Decision)) : ℤ :=
  ((ps.filter (UnscoredApproval W card T)).map fun p => p.1.request.amountMinor).sum

namespace Gateway

variable {A : Type*} [AuditSink A]

section Approvals

variable {V : Type*} [VelocityCounter V] {g : Gateway V A} {k : GatewayCall}

/-- What is approved without a score has passed the first stages, and a tier approves it. -/
theorem unscored_approve (h : (g.step k).1.decision = .approve) (hs : (g.step k).1.score = none) :
    k.request.Admitted ∧ ¬ exceeds 12 (g.answersTo k).count ∧ k.request.amountMinor < 50000 ∧
      (5000 ≤ k.request.amountMinor → ¬ exceeds 6 (g.answersTo k).count) := by
  rw [step_fst] at h hs
  obtain ⟨hadm, he⟩ := ruling_approve h
  obtain ⟨hscore, hdecision⟩ := ruling_admitted k.surroundings.modelThreshold hadm he
  have hnone : (g.answersTo k).obtained = none := hscore.symm.trans hs
  rw [hnone] at hdecision
  exact ⟨hadm, he, degrade_approve.mp (hdecision.symm.trans h)⟩

end Approvals

/-- A sum of amounts of the first two tiers. -/
theorem sum_amounts_le {ps : List (GatewayCall × Decision)}
    (h : ∀ p ∈ ps, p.1.request.amountMinor < 50000) :
    (ps.map fun p => p.1.request.amountMinor).sum ≤
      4999 * ps.length + 45000 * ps.countP fun p => 5000 ≤ p.1.request.amountMinor := by
  induction ps with
  | nil => simp
  | cons p ps ih =>
    have hp := h p List.mem_cons_self
    have hrest := ih fun q hq => h q (List.mem_cons_of_mem p hq)
    rw [List.map_cons, List.sum_cons, List.length_cons, List.countP_cons]
    simp only [decide_eq_true_eq]
    split_ifs <;> push_cast <;> omega

/-- **The exposure of a card without a score.** In every run whose timestamps do not decrease within
a card, the requests of a card that are approved without a score in a window `(T, T + W]` are at
most twelve, at most six of them are of 5000 minor units or more, and together they are of at most
329988. -/
theorem unscored_exposure (W : ℕ) (g : Gateway SafeCounter A) (hv : g.velocity = { windowMs := W })
    (ks : List GatewayCall) (hord : OrderedPerCard ks) (card : PyStr) (T : ℚ) :
    (ks.zip (Machine.replies step g ks)).countP (UnscoredApproval W card T) ≤ 12 ∧
      (ks.zip (Machine.replies step g ks)).countP (fun p =>
        UnscoredApproval W card T p ∧ 5000 ≤ p.1.request.amountMinor) ≤ 6 ∧
      unscoredAmount W card T (ks.zip (Machine.replies step g ks)) ≤ 329988 := by
  have hall : (ks.zip (Machine.replies step g ks)).countP (UnscoredApproval W card T) ≤ 12 := by
    refine at_most_limit hv card T (fun g k h => ?_) hord
    obtain ⟨hcard, hlo, hhi, hd, hs⟩ := h
    obtain ⟨hadm, hcount, -⟩ := unscored_approve hd hs
    exact ⟨hcard, hadm, hlo, hhi, hcount⟩
  have hlarge : (ks.zip (Machine.replies step g ks)).countP (fun p =>
      UnscoredApproval W card T p ∧ 5000 ≤ p.1.request.amountMinor) ≤ 6 := by
    refine at_most_limit hv card T (fun g k h => ?_) hord
    obtain ⟨⟨hcard, hlo, hhi, hd, hs⟩, hlarge⟩ := h
    obtain ⟨hadm, -, -, hcount⟩ := unscored_approve hd hs
    exact ⟨hcard, hadm, hlo, hhi, hcount hlarge⟩
  refine ⟨hall, hlarge, ?_⟩
  have hsum : unscoredAmount W card T (ks.zip (Machine.replies step g ks)) ≤ _ :=
    sum_amounts_le fun p hp => by
      obtain ⟨hmem, hp⟩ := List.mem_filter.mp hp
      obtain ⟨pre, hpre⟩ := Machine.exists_of_mem_zip_replies step hmem
      have happroved : UnscoredApproval W card T (p.1, ((Machine.after step g pre).step p.1).1) := by
        rw [hpre]
        exact of_decide_eq_true hp
      exact (unscored_approve happroved.2.2.2.1 happroved.2.2.2.2).2.2.1
  rw [← List.countP_eq_length_filter, List.countP_filter] at hsum
  have hsame : (ks.zip (Machine.replies step g ks)).countP (fun p =>
      Decidable.decide (5000 ≤ p.1.request.amountMinor) &&
        Decidable.decide (UnscoredApproval W card T p)) =
      (ks.zip (Machine.replies step g ks)).countP (fun p =>
        UnscoredApproval W card T p ∧ 5000 ≤ p.1.request.amountMinor) :=
    List.countP_congr fun p _ => by
      rw [Bool.and_eq_true, decide_eq_true_eq, decide_eq_true_eq, decide_eq_true_eq, and_comm]
  rw [hsame] at hsum
  -- the largest sum is reached with six approvals of each tier
  omega

/-- Six requests of the second tier and seven of the first, none of them scored. -/
theorem unscored_exposure_burst :
    ((List.replicate 6 (idleCall [] 49999 1) ++ List.replicate 7 (idleCall [] 4999 1)).zip
      (Machine.replies step (inProcess { windowMs := 1000 })
        (List.replicate 6 (idleCall [] 49999 1) ++ List.replicate 7 (idleCall [] 4999 1)))).countP
          (UnscoredApproval 1000 [] 0) ≤ 12 :=
  (unscored_exposure 1000 (inProcess { windowMs := 1000 }) rfl _ (by
    intro card
    rw [List.filter_append, List.filter_replicate, List.filter_replicate]
    split_ifs <;> simp [idleCall]) [] 0).1

end Gateway
