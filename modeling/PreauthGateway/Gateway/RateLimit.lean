import PreauthGateway.Gateway.Exposure

/-!
# The velocity limit

A gateway over the counter of its process declines a card after twelve requests in a window. Every
request that reaches the counter is counted, whatever becomes of it, so no window of the same
length, wherever it begins, holds more than twelve that were let through.

## Main definitions

* `counterOps`: the calls of the counter that a run makes
* `Passed`: a request of a card in a window that was let through

## Main results

* `Gateway.velocity_after`: the counter of a gateway is the counter after these calls
* `Gateway.at_most_limit`: at most as many requests of a window are counted up to a limit
* `Gateway.at_most_twelve`: **the limit, in every window of every run**
-/

/-- The key of a card. -/
def cardKey (card : PyStr) : PyStr := PyStr.ofString "card:" ++ card

theorem cardKey_injective : Function.Injective cardKey := fun _ _ h => List.append_cancel_left h

/-- The calls of the counter that a run makes. -/
def counterOps (ks : List GatewayCall) : List CounterOp :=
  (ks.filter fun k => k.request.Admitted).map fun k =>
    .incrAndCount (cardKey k.request.cardId) k.request.nowMs

section CounterOps

variable {ks : List GatewayCall} {k : GatewayCall} {card : PyStr}

theorem counterOps_append (ks ks' : List GatewayCall) :
    counterOps (ks ++ ks') = counterOps ks ++ counterOps ks' := by
  simp [counterOps]

theorem counterOps_admitted (h : k.request.Admitted) :
    counterOps [k] = [.incrAndCount (cardKey k.request.cardId) k.request.nowMs] := by
  simp [counterOps, h]

theorem counterOps_of_not_admitted (h : ¬ k.request.Admitted) : counterOps [k] = [] := by
  simp [counterOps, h]

/-- The timestamps a run adds under the key of a card. -/
theorem events_counterOps (card : PyStr) (ks : List GatewayCall) :
    events (cardKey card) (counterOps ks) =
      (ks.filter fun k => k.request.Admitted ∧ k.request.cardId = card).map
        fun k => k.request.nowMs := by
  induction ks with
  | nil => rfl
  | cons k ks ih =>
    rw [← List.singleton_append, counterOps_append, events_append, ih, List.filter_append,
      List.map_append]
    congr 1
    by_cases hadm : k.request.Admitted
    · rw [counterOps_admitted hadm]
      by_cases hcard : k.request.cardId = card
      · simp [events, hadm, hcard]
      · simp [events, hadm, hcard, cardKey_injective.ne hcard]
    · rw [counterOps_of_not_admitted hadm]
      simp [events, hadm]

/-- All calls of the counter add, so its timestamps are those added. -/
theorem stamps_counterOps (key : PyStr) (ks : List GatewayCall) :
    stamps key (counterOps ks) = events key (counterOps ks) := by
  unfold counterOps
  induction ks.filter fun k => k.request.Admitted with
  | nil => rfl
  | cons k ks ih =>
    rw [List.map_cons, ← List.singleton_append, stamps_append, events_append, ih]
    congr 1
    by_cases h : cardKey k.request.cardId = key <;>
      simp [stamps, events, CounterOp.key, CounterOp.nowMs, h]

end CounterOps

/-- The timestamps of each card do not decrease. -/
def OrderedPerCard (ks : List GatewayCall) : Prop :=
  ∀ card, ((ks.filter fun k => k.request.cardId = card).map fun k => k.request.nowMs).Pairwise
    (· ≤ ·)

theorem OrderedPerCard.stamps {ks : List GatewayCall} (h : OrderedPerCard ks) (card : PyStr) :
    (stamps (cardKey card) (counterOps ks)).Pairwise (· ≤ ·) := by
  rw [stamps_counterOps, events_counterOps]
  refine (h card).sublist ?_
  refine List.Sublist.map _ (List.monotone_filter_right _ fun k hk => ?_)
  simp only [decide_eq_true_eq] at hk ⊢
  exact hk.2

namespace Gateway

variable {A : Type*} [AuditSink A]

/-- The counter of a gateway is the counter after the calls of the run. -/
theorem velocity_after (g : Gateway SafeCounter A) (ks : List GatewayCall) :
    (Machine.after step g ks).velocity =
      Machine.after SafeCounter.step g.velocity (counterOps ks) := by
  induction ks generalizing g with
  | nil => rfl
  | cons k ks ih =>
    rw [Machine.after_cons, ih, velocity_step, ← List.singleton_append (l := ks), counterOps_append,
      Machine.after_append]
    by_cases hadm : k.request.Admitted
    · rw [if_pos hadm, counterOps_admitted hadm]
      rfl
    · rw [if_neg hadm, counterOps_of_not_admitted hadm]
      rfl

end Gateway

/-- A request of the card, valid and not blocklisted, at a time in `(T, T + W]`, that receives
another outcome than the decline with the reason `velocity_exceeded`. -/
def Passed (W : ℕ) (card : PyStr) (T : ℚ) (p : GatewayCall × Decision) : Prop :=
  p.1.request.cardId = card ∧ p.1.request.Admitted ∧ T < p.1.request.nowMs ∧
    p.1.request.nowMs ≤ T + W ∧
    ¬ (p.2.decision = .decline ∧ Reason.velocityExceeded ∈ p.2.reasons)

instance (W : ℕ) (card : PyStr) (T : ℚ) (p : GatewayCall × Decision) :
    Decidable (Passed W card T p) :=
  inferInstanceAs (Decidable (_ ∧ _))

namespace Gateway

variable {A : Type*} [AuditSink A]

/-- What the counter answers an admitted request. -/
theorem count_after {W : ℕ} (hW : 0 < W) {g : Gateway SafeCounter A}
    (hv : g.velocity = { windowMs := W }) {ks : List GatewayCall} {k : GatewayCall}
    (hadm : k.request.Admitted) (hord : OrderedPerCard (ks ++ [k])) :
    ((Machine.after step g ks).answersTo k).count =
      some (((events (cardKey k.request.cardId) (counterOps ks)).filter
        fun t => k.request.nowMs - W < t).length + 1) := by
  have hs := hord.stamps k.request.cardId
  rw [counterOps_append, stamps_append, counterOps_admitted hadm] at hs
  have hself : stamps (cardKey k.request.cardId)
      [.incrAndCount (cardKey k.request.cardId) k.request.nowMs] = [k.request.nowMs] :=
    stamps_self _
  rw [hself] at hs
  have havail : (Machine.after SafeCounter.step { windowMs := W } (counterOps ks)).available = true :=
    SafeCounter.available_after _ _
  have hpop := SafeCounter.popExpired_after hW hs
  change ((Machine.after step g ks).velocity.incrAndCount (cardKey k.request.cardId)
    k.request.nowMs).1 = _
  rw [velocity_after, hv, SafeCounter.incrAndCount_fst havail, hpop]

/-- Only the velocity limit declines a request for it. -/
theorem exceeds_of_passed {W : ℕ} {card : PyStr} {T : ℚ} {g : Gateway SafeCounter A} {k : GatewayCall}
    (h : Passed W card T (k, (g.step k).1)) : ¬ exceeds 12 (g.answersTo k).count := by
  obtain ⟨-, hadm, -, -, hnot⟩ := h
  intro he
  apply hnot
  rw [step_fst]
  have hr : g.rule k = ⟨.decline, .rules, none,
      (g.answersTo k).velocityReasons ++ [.velocityExceeded]⟩ := by
    rw [rule, ruling, if_neg (not_not.mpr hadm.1), if_neg hadm.2, if_pos he]
  rw [hr]
  exact ⟨rfl, List.mem_append_right _ (List.mem_singleton_self _)⟩

/-- **Requests of a card in a window whose count is up to a limit are at most as many.** -/
theorem at_most_limit {W : ℕ} {g : Gateway SafeCounter A} (hv : g.velocity = { windowMs := W })
    (card : PyStr) (T : ℚ) {L : ℕ} {P : GatewayCall × Decision → Prop} [DecidablePred P]
    (hP : ∀ (g : Gateway SafeCounter A) (k : GatewayCall), P (k, (g.step k).1) →
      k.request.cardId = card ∧ k.request.Admitted ∧ T < k.request.nowMs ∧
        k.request.nowMs ≤ T + W ∧ ¬ exceeds L (g.answersTo k).count)
    {ks : List GatewayCall} (hord : OrderedPerCard ks) :
    (ks.zip (Machine.replies step g ks)).countP P ≤ L := by
  induction ks using List.reverseRecOn with
  | nil => simp
  | append_singleton ks k ih =>
    have hlen : ks.length = (Machine.replies step g ks).length := (Machine.length_replies _ _ _).symm
    rw [Machine.replies_append, List.zip_append hlen, List.countP_append]
    have hks : OrderedPerCard ks := by
      intro c
      refine (hord c).sublist ?_
      rw [List.filter_append, List.map_append]
      exact List.sublist_append_left _ _
    by_cases hp : P (k, ((Machine.after step g ks).step k).1)
    swap
    · have hz : List.countP (fun p => P p)
          ([k].zip (Machine.replies step (Machine.after step g ks) [k])) = 0 := by
        simp [hp]
      rw [hz]
      exact ih hks
    obtain ⟨hcard, hadm, hlo, hhi, hcount⟩ := hP _ _ hp
    have hW : 0 < W := by
      rcases Nat.eq_zero_or_pos W with rfl | h
      · push_cast at hhi
        linarith
      · exact h
    rw [count_after hW hv hadm hord, events_counterOps, hcard] at hcount
    have hle : ((((ks.filter fun k => k.request.Admitted ∧ k.request.cardId = card).map
        fun k => k.request.nowMs)).filter fun t => k.request.nowMs - W < t).length + 1 ≤ L := by
      by_contra hgt
      exact hcount ⟨_, rfl, not_le.mp hgt⟩
    have hsub : (ks.zip (Machine.replies step g ks)).countP P ≤
        ((((ks.filter fun k => k.request.Admitted ∧ k.request.cardId = card).map
          fun k => k.request.nowMs)).filter fun t => k.request.nowMs - W < t).length := by
      rw [← List.countP_eq_length_filter, List.countP_map, List.countP_filter]
      refine Machine.countP_zip_replies_le step fun p hmem hp => ?_
      obtain ⟨pre, hpre⟩ := Machine.exists_of_mem_zip_replies step hmem
      obtain ⟨hc, ha, h₁, -, -⟩ := hP (Machine.after step g pre) p.1 (by
        rw [hpre]
        exact of_decide_eq_true hp)
      -- its window begins no earlier than that of the last request
      have hlt : k.request.nowMs - W < p.1.request.nowMs := by
        have : (k.request.nowMs : ℚ) - W < p.1.request.nowMs := by linarith
        exact_mod_cast this
      simp [hc, ha, hlt]
    have hone : List.countP (fun p => P p)
        ([k].zip (Machine.replies step (Machine.after step g ks) [k])) ≤ 1 :=
      List.countP_le_length
    omega

/-- **The velocity limit.** In every run whose timestamps do not decrease within a card, of the
requests of a card in any window `(T, T + W]` at most twelve are let through. -/
theorem at_most_twelve (W : ℕ) (g : Gateway SafeCounter A) (hv : g.velocity = { windowMs := W })
    (ks : List GatewayCall) (hord : OrderedPerCard ks) (card : PyStr) (T : ℚ) :
    (ks.zip (Machine.replies step g ks)).countP (Passed W card T) ≤ 12 :=
  at_most_limit hv card T
    (fun _ _ h => ⟨h.1, h.2.1, h.2.2.1, h.2.2.2.1, exceeds_of_passed h⟩) hord

/-- Fourteen requests of one card at one time, the last two over the limit. -/
theorem at_most_twelve_burst :
    (((List.replicate 14 (idleCall [] 100 1)).zip
      (Machine.replies step (inProcess { windowMs := 1000 })
        (List.replicate 14 (idleCall [] 100 1)))).countP (Passed 1000 [] 0)) ≤ 12 :=
  at_most_twelve 1000 (inProcess { windowMs := 1000 }) rfl _ (by
    intro card
    rw [List.filter_replicate]
    split
    · rw [List.map_replicate]
      exact List.pairwise_replicate.mpr (.inr le_rfl)
    · exact List.Pairwise.nil) [] 0

end Gateway
