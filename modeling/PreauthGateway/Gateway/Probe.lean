import PreauthGateway.Gateway.Exposure

/-!
# The probe of a half-open breaker

After the cooldown one request may probe the model. `is_open` forgets the failures when it
half-opens the breaker, so a failed probe counts as the first failure: with a threshold above one
the breaker stays closed, and the next request calls the model again.

## Main definitions

* `GatewayCall.attempt`: a call as the breaker sees it
* `Gateway.Tripped`: the breaker has opened, and no call of the model has succeeded since
* `Gateway.SingleProbe`: while it is tripped, the model is called once per cooldown
* `Gateway.FailedProbesLast`: no request follows a failed probe

## Main results

* `Gateway.single_probe_iff`: **when half-open allows a single probe**
-/

/-- A call as the breaker sees it. -/
def GatewayCall.attempt (k : GatewayCall) : Attempt where
  now := k.circumstances.breakerNow
  failureNow := k.circumstances.failureNow
  ok := (k.circumstances.score k.request).isSome

namespace Gateway

variable {V A : Type*} [VelocityCounter V] [AuditSink A]

/-- The call reaches the model stage. -/
def Reaches (g : Gateway V A) (k : GatewayCall) : Prop :=
  k.request.Admitted ∧ (g.answersTo k).Asks

/-- The call, if it reaches the model stage, calls the model. -/
def CallsModel (g : Gateway V A) (k : GatewayCall) : Prop := (g.breaker.attempt k.attempt).1 = true

/-- After the calls `ks` the breaker has opened, and no call of the model has succeeded since. -/
def Tripped (g : Gateway V A) (ks : List GatewayCall) : Prop :=
  ∃ before since, ks = before ++ since ∧ (Machine.after step g before).breaker.openedAt ≠ none ∧
    ∀ pre k post, since = pre ++ k :: post →
      CallsModel (Machine.after step g (before ++ pre)) k → k.attempt.ok = false

/-- **Half-open allows a single probe.** Of two successive calls of the model while the breaker is
tripped, the first opens the breaker again, and the second comes more than the cooldown later. -/
def SingleProbe (g : Gateway V A) (ks : List GatewayCall) : Prop :=
  ∀ pre k mid k' post, ks = pre ++ k :: (mid ++ k' :: post) → g.Tripped pre →
    CallsModel (Machine.after step g pre) k → k.attempt.ok = false →
    (∀ as j bs, mid = as ++ j :: bs → ¬ CallsModel (Machine.after step g (pre ++ k :: as)) j) →
    CallsModel (Machine.after step g (pre ++ k :: mid)) k' →
    (Machine.after step g (pre ++ [k])).breaker.openedAt ≠ none ∧
      g.breaker.cooldownS < k'.attempt.now - k.attempt.now

/-- A probe that fails is the last of the requests. -/
def FailedProbesLast (g : Gateway V A) (ks : List GatewayCall) : Prop :=
  ∀ pre k post, ks = pre ++ k :: post →
    (Machine.after step g pre).breaker.CooledDown k.attempt.now → k.attempt.ok = false → post = []

section Runs

variable {g : Gateway V A} {ks : List GatewayCall}

/-- The breaker after a call that reaches the model stage. -/
theorem breaker_step_of_reaches {k : GatewayCall} (h : g.Reaches k) :
    (g.step k).2.breaker = (g.breaker.attempt k.attempt).2 := by
  obtain ⟨hadm, hasks⟩ := h
  rw [breaker_step, if_pos ⟨hadm, hasks⟩]
  rfl

/-- A run leaves the settings of the breaker alone. -/
theorem settings_after (g : Gateway V A) (ks : List GatewayCall) :
    (Machine.after step g ks).breaker.threshold = g.breaker.threshold ∧
      (Machine.after step g ks).breaker.cooldownS = g.breaker.cooldownS := by
  induction ks generalizing g with
  | nil => exact ⟨rfl, rfl⟩
  | cons k ks ih =>
    obtain ⟨h₁, h₂⟩ := ih (g.step k).2
    have hk : (g.step k).2.breaker.threshold = g.breaker.threshold ∧
        (g.step k).2.breaker.cooldownS = g.breaker.cooldownS := by
      rw [breaker_step]
      split
      · exact CircuitBreaker.settings_attempt
      · exact ⟨rfl, rfl⟩
    exact ⟨h₁.trans hk.1, h₂.trans hk.2⟩

/-- One step of a run that reaches the model stage throughout. -/
theorem breaker_after_concat {pre post : List GatewayCall} {k : GatewayCall}
    (h : Machine.Along step Reaches g ks) (hk : ks = pre ++ k :: post) :
    (Machine.after step g (pre ++ [k])).breaker =
      ((Machine.after step g pre).breaker.attempt k.attempt).2 := by
  rw [Machine.after_concat]
  exact breaker_step_of_reaches (h pre k post hk)

/-- Calls that do not call the model leave the breaker as it is. -/
theorem breaker_after_blocked (h : Machine.Along step Reaches g ks) {pre mid post : List GatewayCall}
    (hk : ks = pre ++ (mid ++ post))
    (hmid : ∀ as j bs, mid = as ++ j :: bs → ¬ CallsModel (Machine.after step g (pre ++ as)) j) :
    (Machine.after step g (pre ++ mid)).breaker = (Machine.after step g pre).breaker := by
  induction mid using List.reverseRecOn generalizing post with
  | nil => rw [List.append_nil]
  | append_singleton mid j ih =>
    have hks : ks = pre ++ (mid ++ j :: post) := by
      rw [hk]
      simp
    have hj : ks = (pre ++ mid) ++ j :: post := by
      rw [hks]
      simp
    have hpre : (Machine.after step g (pre ++ mid)).breaker = (Machine.after step g pre).breaker := by
      refine ih hks fun as i bs hi => ?_
      exact hmid as i (bs ++ [j]) (by rw [hi]; simp)
    have hblocked : ¬ CallsModel (Machine.after step g (pre ++ mid)) j := hmid mid j [] rfl
    rw [CallsModel, CircuitBreaker.attempt_called, not_or] at hblocked
    rw [← List.append_assoc, breaker_after_concat h hj,
      CircuitBreaker.attempt_open hblocked.1 hblocked.2, hpre]

/-- When no request follows a failed probe, a tripped breaker is open. -/
theorem opened_of_tripped (h : Machine.Along step Reaches g ks) (hlast : g.FailedProbesLast ks)
    {pre : List GatewayCall} {k : GatewayCall} {post : List GatewayCall}
    (hk : ks = pre ++ k :: post) (ht : g.Tripped pre) :
    (Machine.after step g pre).breaker.openedAt ≠ none := by
  obtain ⟨before, since, rfl, hopen, hfail⟩ := ht
  -- induction on the requests since the breaker opened
  induction since using List.reverseRecOn generalizing k post with
  | nil =>
    rw [List.append_nil]
    exact hopen
  | append_singleton since j ih =>
    have hks : ks = (before ++ since) ++ j :: k :: post := by
      rw [hk]
      simp
    have hprev := ih hks fun as i bs hi => hfail as i (bs ++ [j]) (by rw [hi]; simp)
    rw [← List.append_assoc, breaker_after_concat h hks]
    by_cases hc : (Machine.after step g (before ++ since)).breaker.CooledDown j.attempt.now
    · -- a probe since then would have failed, with a request after it
      have hcalled : CallsModel (Machine.after step g (before ++ since)) j :=
        CircuitBreaker.attempt_called.mpr (.inr hc)
      exact absurd (hlast _ j _ hks hc (hfail since j [] rfl hcalled)) (List.cons_ne_nil _ _)
    · rw [CircuitBreaker.attempt_open hprev hc]
      exact hprev

end Runs

/-- **When half-open allows a single probe.** In a run whose requests all reach the model stage, the
clock not going back within a request, it does exactly when the threshold is one, or no request
follows a failed probe. -/
theorem single_probe_iff (g : Gateway V A) (ks : List GatewayCall)
    (hreach : Machine.Along step Reaches g ks)
    (hclock : ∀ k ∈ ks, k.attempt.now ≤ k.attempt.failureNow) :
    g.SingleProbe ks ↔ g.breaker.threshold ≤ 1 ∨ g.FailedProbesLast ks := by
  constructor
  · intro hsingle
    by_cases hθ : g.breaker.threshold ≤ 1
    · exact .inl hθ
    refine .inr fun pre k post hk hcool hfail => ?_
    have hclosed : (Machine.after step g (pre ++ [k])).breaker.openedAt = none := by
      rw [breaker_after_concat hreach hk, CircuitBreaker.attempt_halfOpen hcool]
      simp only [hfail, Bool.false_eq_true, if_false]
      rw [CircuitBreaker.openedAt_recordFailure rfl, if_neg]
      have := (settings_after g pre).1
      simp only at this ⊢
      push_cast
      omega
    cases post with
    | nil => rfl
    | cons k' post =>
      have hopen : (Machine.after step g pre).breaker.openedAt ≠ none := by
        obtain ⟨t, ht, -⟩ := hcool
        rw [Option.mem_def.mp ht]
        exact Option.some_ne_none t
      have htripped : g.Tripped pre := by
        refine ⟨pre, [], (List.append_nil pre).symm, hopen, fun as j bs h => ?_⟩
        cases as <;> cases h
      refine absurd hclosed (hsingle pre k [] k' post hk htripped ?_ hfail ?_ ?_).1
      · exact CircuitBreaker.attempt_called.mpr (.inr hcool)
      · intro as j bs h
        cases as <;> cases h
      · exact CircuitBreaker.attempt_called.mpr (.inl hclosed)
  · intro h pre k mid k' post hk htripped hcalled hfail hmid hcalled'
    have hks : ks = (pre ++ [k]) ++ (mid ++ k' :: post) := by
      rw [hk]
      simp
    have hreopen : (Machine.after step g (pre ++ [k])).breaker.openedAt =
        some k.attempt.failureNow := by
      rcases h with hθ | hlast
      · rw [breaker_after_concat hreach hk]
        have hset := (settings_after g pre).1
        have hone (b : CircuitBreaker) (hb : b.openedAt = none)
            (hb' : b.threshold = g.breaker.threshold) :
            (b.recordFailure k.attempt.failureNow).openedAt = some k.attempt.failureNow := by
          rw [CircuitBreaker.openedAt_recordFailure hb, if_pos]
          omega
        by_cases hopen : (Machine.after step g pre).breaker.openedAt = none
        · rw [CircuitBreaker.attempt_closed hopen]
          simp only [hfail, Bool.false_eq_true, if_false]
          exact hone _ hopen hset
        · have hcool := (CircuitBreaker.attempt_called.mp hcalled).resolve_left hopen
          rw [CircuitBreaker.attempt_halfOpen hcool]
          simp only [hfail, Bool.false_eq_true, if_false]
          exact hone _ rfl hset
      · -- a tripped breaker is open, so the call is a probe, and a request follows it
        have hopen := opened_of_tripped hreach hlast hk htripped
        have hcool := (CircuitBreaker.attempt_called.mp hcalled).resolve_left hopen
        exact absurd (hlast pre k _ hk hcool hfail) (by simp)
    refine ⟨by rw [hreopen]; exact Option.some_ne_none _, ?_⟩
    -- nothing changes until the next call of the model, so that one waited for the cooldown
    have hsame := breaker_after_blocked hreach hks fun as j bs hj => by
      have := hmid as j bs hj
      simpa using this
    have hnow : (Machine.after step g (pre ++ k :: mid)).breaker =
        (Machine.after step g (pre ++ [k])).breaker := by
      rw [← hsame]
      simp
    rw [CallsModel, hnow, CircuitBreaker.attempt_called, hreopen] at hcalled'
    obtain ⟨t, ht, hlt⟩ := hcalled'.resolve_left (Option.some_ne_none _)
    rw [hreopen] at ht
    cases ht
    have hk' : k ∈ ks := by
      rw [hk]
      simp
    have := hclock k hk'
    rw [(settings_after g (pre ++ [k])).2] at hlt
    linarith

/-- A call at the time `t`, with the model down. -/
def modelDownAt (t : ℚ) : GatewayCall :=
  { idleCall [] 100 1 with
    circumstances := { (idleCall [] 100 1).circumstances with breakerNow := t, failureNow := t } }

/-- Five failures open the breaker; the cooldown passes, and two more requests come. -/
def afterCooldown : List GatewayCall := [0, 0, 0, 0, 0, 3, 3].map modelDownAt

instance (g : Gateway V A) (k : GatewayCall) : Decidable (g.Reaches k) :=
  inferInstanceAs (Decidable (_ ∧ _))

theorem reaches_afterCooldown : Machine.Along step Reaches (inProcess {}) afterCooldown := by
  simp only [afterCooldown, List.map_cons, List.map_nil, Machine.along_cons]
  refine ⟨by decide +kernel, by decide +kernel, by decide +kernel, by decide +kernel,
    by decide +kernel, by decide +kernel, by decide +kernel, Machine.along_nil _ _⟩

/-- After a failed probe the model is called again at once. -/
theorem second_probe : ¬ (inProcess {}).SingleProbe afterCooldown := by
  intro h
  have hopen : (Machine.after step (inProcess {}) ([0, 0, 0, 0, 0].map modelDownAt)).breaker.openedAt =
      some 0 := by decide +kernel
  have hclosed : (Machine.after step (inProcess {})
      ([0, 0, 0, 0, 0, 3].map modelDownAt)).breaker.openedAt = none := by decide +kernel
  refine (h ([0, 0, 0, 0, 0].map modelDownAt) (modelDownAt 3) [] (modelDownAt 3) [] rfl ?_ ?_ rfl ?_
    ?_).1 hclosed
  · refine ⟨_, [], (List.append_nil _).symm, by rw [hopen]; exact Option.some_ne_none 0, ?_⟩
    intro as j bs hj
    cases as <;> cases hj
  · exact CircuitBreaker.attempt_called.mpr (.inr ⟨0, hopen, by decide +kernel⟩)
  · intro as j bs hj
    cases as <;> cases hj
  · exact CircuitBreaker.attempt_called.mpr (.inl hclosed)

/-- The run of the failed probe, under the equivalence. -/
theorem single_probe_iff_afterCooldown : (inProcess {}).SingleProbe afterCooldown ↔
    (inProcess {}).breaker.threshold ≤ 1 ∨ (inProcess {}).FailedProbesLast afterCooldown :=
  single_probe_iff _ _ reaches_afterCooldown (by decide +kernel)

end Gateway
