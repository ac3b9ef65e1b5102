import PreauthGateway.Gateway.Probe

/-!
# The model in an outage

While the model fails, the breaker lets it be called until the threshold is reached, and again after
each cooldown. `is_open` forgets the failures when it half-opens the breaker, so each cooldown costs
as many calls as the first time, and no more: the load on a model that is down does not grow with
the traffic.

## Main definitions

* `Gateway.modelCalls`: the requests of a run that call the model
* `CircuitBreaker.room`: how often the model may still be called in a window
* `InClockOrder`: the clock does not go back

## Main results

* `Gateway.calls_le_room`: what is left of a window
* `Gateway.outage_calls`: **in `n` cooldowns of an outage, the model is called at most `n` times the
  threshold**
-/

/-- The readings of the clock do not go back, neither within a request nor from one to the next. -/
def InClockOrder (ks : List GatewayCall) : Prop :=
  (ks.Pairwise fun k k' => k.attempt.failureNow ≤ k'.attempt.now) ∧
    ∀ k ∈ ks, k.attempt.now ≤ k.attempt.failureNow

theorem InClockOrder.tail {k : GatewayCall} {ks : List GatewayCall} (h : InClockOrder (k :: ks)) :
    InClockOrder ks ∧ k.attempt.now ≤ k.attempt.failureNow ∧
      ∀ k' ∈ ks, k.attempt.failureNow ≤ k'.attempt.now :=
  ⟨⟨(List.pairwise_cons.mp h.1).2, fun k' hk' => h.2 k' (List.mem_cons_of_mem k hk')⟩,
    h.2 k List.mem_cons_self, (List.pairwise_cons.mp h.1).1⟩

/-- How often the model may be called in the window of a cooldown from `T` on, if every call
fails. -/
def CircuitBreaker.room (T : ℚ) (b : CircuitBreaker) : ℤ :=
  match b.openedAt with
  | none => max 1 (b.threshold - b.failures)
  | some t => if T ≤ t then 0 else max 1 b.threshold

theorem CircuitBreaker.room_le (T : ℚ) (b : CircuitBreaker) : b.room T ≤ max 1 b.threshold := by
  unfold room
  split
  · omega
  · split <;> omega

namespace Gateway

variable {V A : Type*} [VelocityCounter V] [AuditSink A]

/-- The request calls the model. -/
def Calls (g : Gateway V A) (k : GatewayCall) : Prop := g.Reaches k ∧ g.CallsModel k

instance (g : Gateway V A) (k : GatewayCall) : Decidable (g.Calls k) :=
  inferInstanceAs (Decidable (_ ∧ (g.breaker.attempt k.attempt).1 = true))

/-- The requests of a run that call the model. -/
def modelCalls : Gateway V A → List GatewayCall → List GatewayCall
  | _, [] => []
  | g, k :: ks =>
    if g.Calls k then k :: modelCalls (g.step k).2 ks else modelCalls (g.step k).2 ks

section Outage

variable {g : Gateway V A} {k : GatewayCall} {ks : List GatewayCall} {T : ℚ}

theorem modelCalls_sublist (g : Gateway V A) (ks : List GatewayCall) :
    (g.modelCalls ks).Sublist ks := by
  induction ks generalizing g with
  | nil => exact List.Sublist.slnil
  | cons k ks ih =>
    rw [modelCalls]
    split
    · exact (ih _).cons_cons k
    · exact (ih _).cons k

/-- A request that does not call the model leaves the breaker as it is. -/
theorem breaker_of_not_calls (h : ¬ g.Calls k) : (g.step k).2.breaker = g.breaker := by
  by_cases hreach : g.Reaches k
  · have hblocked : ¬ g.CallsModel k := fun hc => h ⟨hreach, hc⟩
    rw [CallsModel, CircuitBreaker.attempt_called, not_or] at hblocked
    rw [breaker_step_of_reaches hreach, CircuitBreaker.attempt_open hblocked.1 hblocked.2]
  · rw [breaker_step]
    exact if_neg hreach

/-- The number of calls in the window `(T, T + W]`. -/
def callsIn (T W : ℚ) (ks : List GatewayCall) : ℕ :=
  ks.countP fun k => T < k.attempt.now ∧ k.attempt.now ≤ T + W

theorem callsIn_cons (T W : ℚ) (k : GatewayCall) (ks : List GatewayCall) :
    callsIn T W (k :: ks) =
      callsIn T W ks + if T < k.attempt.now ∧ k.attempt.now ≤ T + W then 1 else 0 := by
  rw [callsIn, List.countP_cons]
  simp only [decide_eq_true_eq]
  rfl

/-- A window in two parts. -/
theorem callsIn_add_le (T W W' : ℚ) (ks : List GatewayCall) :
    callsIn T (W + W') ks ≤ callsIn T W ks + callsIn (T + W) W' ks := by
  induction ks with
  | nil => exact Nat.zero_le _
  | cons k ks ih =>
    rw [callsIn_cons, callsIn_cons, callsIn_cons]
    by_cases h : T < k.attempt.now ∧ k.attempt.now ≤ T + (W + W')
    · rw [if_pos h]
      by_cases hW : k.attempt.now ≤ T + W
      · rw [if_pos ⟨h.1, hW⟩]
        omega
      · have hlast : T + W < k.attempt.now ∧ k.attempt.now ≤ T + W + W' :=
          ⟨not_le.mp hW, by linarith [h.2]⟩
        rw [if_pos hlast]
        omega
    · rw [if_neg h]
      omega

/-- Nothing that comes after the window is in it. -/
theorem callsIn_eq_zero {W : ℚ} (h : ∀ k ∈ ks, T + W < k.attempt.now) (g : Gateway V A) :
    callsIn T W (g.modelCalls ks) = 0 := by
  rw [callsIn, List.countP_eq_zero]
  intro k hk
  have := h k ((modelCalls_sublist g ks).subset hk)
  simp only [decide_eq_true_eq, not_and]
  exact fun _ => not_le.mpr this

/-- A failed call of a breaker that is closed or half-opened leaves one place less. -/
theorem room_recordFailure {b : CircuitBreaker} (hb : b.openedAt = none) {now : ℚ} (hT : T ≤ now) :
    (b.recordFailure now).room T + 1 ≤ max 1 (b.threshold - b.failures) := by
  have hset := (CircuitBreaker.settings_recordFailure (b := b) now).1
  have hfailures : (b.recordFailure now).failures = b.failures + 1 := by
    unfold CircuitBreaker.recordFailure
    dsimp only
    split <;> rfl
  rw [CircuitBreaker.room, CircuitBreaker.openedAt_recordFailure hb, hset, hfailures]
  by_cases hθ : b.threshold ≤ (b.failures : ℤ) + 1
  · rw [if_pos hθ]
    dsimp only
    rw [if_pos hT]
    omega
  · rw [if_neg hθ]
    dsimp only
    push_cast
    omega

/-- **What is left of a window.** From a moment after `T` on, the calls of the model within a
cooldown of `T` are at most the room of the breaker, if they all fail. -/
theorem calls_le_room (hclock : InClockOrder ks) (hlater : ∀ k ∈ ks, T < k.attempt.now)
    (hout : ∀ k ∈ g.modelCalls ks, k.attempt.ok = false) :
    (callsIn T g.breaker.cooldownS (g.modelCalls ks) : ℤ) ≤ g.breaker.room T := by
  induction ks generalizing g with
  | nil =>
    unfold CircuitBreaker.room
    split
    · exact le_max_of_le_left Int.one_nonneg
    · split
      · exact le_rfl
      · exact le_max_of_le_left Int.one_nonneg
  | cons k ks ih =>
    obtain ⟨htail, hself, hnext⟩ := hclock.tail
    have hlater' := fun k' hk' => hlater k' (List.mem_cons_of_mem k hk')
    by_cases hcalls : g.Calls k
    swap
    · have hsame := breaker_of_not_calls hcalls
      rw [modelCalls, if_neg hcalls] at hout ⊢
      rw [← hsame]
      exact ih htail hlater' hout
    rw [modelCalls, if_pos hcalls] at hout ⊢
    have hfail : k.attempt.ok = false := hout k List.mem_cons_self
    have hT : T ≤ k.attempt.failureNow := (hlater k List.mem_cons_self).le.trans hself
    -- the rest of the run, from the breaker `b` that counts this failure
    have hrest (b : CircuitBreaker) (hb : b.openedAt = none)
        (hcool : b.cooldownS = g.breaker.cooldownS)
        (hstep : (g.step k).2.breaker = b.recordFailure k.attempt.failureNow) :
        (callsIn T g.breaker.cooldownS (k :: modelCalls (g.step k).2 ks) : ℤ) ≤
          max 1 (b.threshold - b.failures) := by
      have hle := ih htail hlater' fun k' hk' => hout k' (List.mem_cons_of_mem k hk')
      rw [hstep, (CircuitBreaker.settings_recordFailure _).2, hcool] at hle
      have hroom := room_recordFailure hb hT
      rw [callsIn_cons]
      split <;> push_cast <;> omega
    have hbreaker := breaker_step_of_reaches hcalls.1
    rcases CircuitBreaker.attempt_called.mp hcalls.2 with hclosed | hcooled
    · rw [CircuitBreaker.attempt_closed hclosed, hfail] at hbreaker
      refine (hrest g.breaker hclosed rfl hbreaker).trans_eq ?_
      rw [CircuitBreaker.room, hclosed]
    · obtain ⟨t, ht, hlt⟩ := hcooled
      rw [CircuitBreaker.attempt_halfOpen ⟨t, ht, hlt⟩, hfail] at hbreaker
      rw [CircuitBreaker.room, Option.mem_def.mp ht]
      dsimp only
      split
      · -- the breaker opened in the window, which is over
        rename_i htT
        have hover : T + g.breaker.cooldownS < k.attempt.now := by linarith
        rw [callsIn_cons, if_neg (fun h => absurd h.2 (not_le.mpr hover)), callsIn_eq_zero]
        · rfl
        · exact fun k' hk' => hover.trans_le (hself.trans (hnext k' hk'))
      · refine (hrest { g.breaker with openedAt := none, failures := 0 } rfl rfl hbreaker).trans_eq ?_
        rw [Nat.cast_zero, sub_zero]

/-- One window of an outage. -/
theorem outage_window (hclock : InClockOrder ks)
    (hout : ∀ k ∈ g.modelCalls ks, k.attempt.ok = false) (T : ℚ) :
    (callsIn T g.breaker.cooldownS (g.modelCalls ks) : ℤ) ≤ max 1 g.breaker.threshold := by
  induction ks generalizing g with
  | nil => exact le_max_of_le_left Int.one_nonneg
  | cons k ks ih =>
    obtain ⟨htail, hself, hnext⟩ := hclock.tail
    by_cases hk : T < k.attempt.now
    · refine (calls_le_room hclock (fun k' hk' => ?_) hout).trans (CircuitBreaker.room_le T _)
      rcases List.mem_cons.mp hk' with rfl | hk'
      · exact hk
      · exact hk.trans_le (hself.trans (hnext k' hk'))
    · obtain ⟨hθ, hcool⟩ := settings_after g [k]
      have hθ : (g.step k).2.breaker.threshold = g.breaker.threshold := hθ
      have hcool : (g.step k).2.breaker.cooldownS = g.breaker.cooldownS := hcool
      have htail' (h : ∀ k' ∈ modelCalls (g.step k).2 ks, k'.attempt.ok = false) :
          (callsIn T g.breaker.cooldownS (modelCalls (g.step k).2 ks) : ℤ) ≤
            max 1 g.breaker.threshold := by
        rw [← hθ, ← hcool]
        exact ih htail h
      rw [modelCalls] at hout ⊢
      split_ifs at hout ⊢
      · rw [callsIn_cons, if_neg fun h => hk h.1, Nat.add_zero]
        exact htail' fun k' hk' => hout k' (List.mem_cons_of_mem k hk')
      · exact htail' hout

/-- **The model in an outage.** From any state, in a run of any length in which every call of the
model fails, the calls within `n` cooldowns are at most `n` times the threshold, or `n` if that is
below one. -/
theorem outage_calls (g : Gateway V A) (ks : List GatewayCall) (hclock : InClockOrder ks)
    (hout : ∀ k ∈ g.modelCalls ks, k.attempt.ok = false) (T : ℚ) (n : ℕ) :
    (callsIn T (n * g.breaker.cooldownS) (g.modelCalls ks) : ℤ) ≤ n * max 1 g.breaker.threshold := by
  induction n with
  | zero =>
    have hnone : callsIn T ((0 : ℕ) * g.breaker.cooldownS) (g.modelCalls ks) = 0 := by
      rw [callsIn, List.countP_eq_zero]
      intro k _
      simp
    rw [hnone]
    simp
  | succ n ih =>
    -- the last cooldown is a window of its own
    have hsplit := callsIn_add_le T (n * g.breaker.cooldownS) g.breaker.cooldownS (g.modelCalls ks)
    have hwindow := outage_window hclock hout (T + n * g.breaker.cooldownS)
    have hwidth : ((n + 1 : ℕ) : ℚ) * g.breaker.cooldownS =
        n * g.breaker.cooldownS + g.breaker.cooldownS := by
      push_cast
      ring
    rw [hwidth]
    calc (callsIn T (n * g.breaker.cooldownS + g.breaker.cooldownS) (g.modelCalls ks) : ℤ)
        ≤ callsIn T (n * g.breaker.cooldownS) (g.modelCalls ks) +
            callsIn (T + n * g.breaker.cooldownS) g.breaker.cooldownS (g.modelCalls ks) := by
          exact_mod_cast hsplit
      _ ≤ n * max 1 g.breaker.threshold + max 1 g.breaker.threshold := add_le_add ih hwindow
      _ = ((n + 1 : ℕ) : ℤ) * max 1 g.breaker.threshold := by
          push_cast
          ring

end Outage

/-- Five failures open the breaker, and two more come after the cooldown. -/
theorem outage_calls_afterCooldown :
    ((callsIn (-1) ((2 : ℕ) * 2) ((inProcess {}).modelCalls afterCooldown) : ℕ) : ℤ) ≤
      (2 : ℕ) * max 1 5 :=
  outage_calls (inProcess {}) afterCooldown ⟨by decide +kernel, by decide +kernel⟩
    (fun k hk => (by decide +kernel : ∀ k ∈ afterCooldown, k.attempt.ok = false) k
      ((modelCalls_sublist _ _).subset hk)) (-1) 2

end Gateway
