import PreauthGateway.Gateway.ModelApproval
import PreauthGateway.Gateway.UnscoredExposure
import PreauthGateway.Transport.RemoteModel

/-!
# What a card is approved with a stand-in model

A stand-in for the scoring service, in the process of the gateway or behind the binary transport,
gives a score from the amount over 200000, more for some devices, and noise; so a large amount has a
high score, whatever the noise. With the threshold the gateway is built with, and whatever the state
of the cache, the breaker and the model itself, no request above 120000 is approved. With the
velocity limit this bounds what a card is approved in a window.

## Main definitions

* `ModelService.score`: the score in the process, from what `random()` returned
* `StubScored`, `RemoteScored`: a call of a gateway over one of the two models
* `Approval`, `approvedAmount`: an approval of the card in a window, and the amount of these in a
  run

## Main results

* `ModelService.le_of_score`, `RemoteModelService.le_of_score`: the score of a large amount is not
  below the review floor
* `Gateway.approved_amount_le`: **no request above 120000 is approved**
* `Gateway.stub_exposure`: **no window of a card approves more than twelve requests, or more than
  1440000 minor units**
-/

/-- `score` of a `ModelService` that is up, where `random()` returned `u`; `none` is an
`OverflowError` of the division. -/
def ModelService.score (u : ℚ) (req : Request) : Option PyFloat :=
  match PyFloat.ofRat (req.amountMinor / 200000) with
  | .num (some (some q)) =>
    let z := ((PyFloat.finite q).add (deviceTerm req.deviceId)).add
      ((PyFloat.ofRat u).mul (.ofRat (3 / 10)))
    some ((PyFloat.ofRat (999 / 1000)).min z)
  | _ => none

/-! ## Scores of large amounts -/

/-- The review floor of the gateway's own threshold, `0.75 * 0.8` as a double. -/
def stubFloor : ℚ := 5404319552844596 / 9007199254740992

theorem fits_stubFloor : Double.Fits stubFloor :=
  ⟨5404319552844596, -53, by norm_num, by norm_num, by norm_num [stubFloor]⟩

theorem abs_stubFloor_lt : |stubFloor| < 2 ^ 1024 := by
  rw [abs_of_nonneg (by norm_num [stubFloor])]
  have h1 : stubFloor < 1 := by norm_num [stubFloor]
  exact h1.trans (one_lt_pow₀ (by norm_num) (by norm_num))

/-- The device and the noise only add to a quotient. -/
theorem stubFloor_le_add {q : PyFloat} (hq : (PyFloat.finite stubFloor).Le q) (device : PyStr)
    {u w : ℚ} (hu : 0 ≤ u) (hu' : u ≤ 1) (hw : 0 ≤ w) (hw' : w ≤ 1) :
    (PyFloat.finite stubFloor).Le
      ((q.add (deviceTerm device)).add ((PyFloat.ofRat u).mul (.ofRat w))) := by
  have hdevice : (PyFloat.finite 0).Le (deviceTerm device) := by
    unfold deviceTerm
    split <;> decide +kernel
  have hnoise := PyFloat.zero_le_mul hu hu' hw hw'
  exact PyFloat.le_add fits_stubFloor abs_stubFloor_lt
    (PyFloat.le_add fits_stubFloor abs_stubFloor_lt hq hdevice) hnoise

/-- The floor is not above the cap of a score. -/
theorem stubFloor_le_cap : (PyFloat.finite stubFloor).Le (.ofRat (999 / 1000)) := by decide +kernel

theorem stubFloor_le_div {a : ℤ} (h : 120000 < a) : stubFloor ≤ a / 200000 := by
  have hle : (120001 : ℚ) ≤ a := by exact_mod_cast h
  have hfloor : stubFloor ≤ 120001 / 200000 := by norm_num [stubFloor]
  linarith

/-- **The score of a large amount is not below the review floor**, whatever the noise. -/
theorem ModelService.le_of_score {req : Request} {u : ℚ} (hu : 0 ≤ u) (hu' : u ≤ 1)
    (hamount : 120000 < req.amountMinor) {x : PyFloat} (hx : score u req = some x) :
    (PyFloat.finite stubFloor).Le x := by
  have hquotient : (PyFloat.finite stubFloor).Le (.ofRat (req.amountMinor / 200000)) :=
    Double.le_ofRat fits_stubFloor abs_stubFloor_lt (stubFloor_le_div hamount)
  unfold score at hx
  split at hx
  · rename_i q hq
    rw [hq] at hquotient
    cases hx
    exact PyFloat.le_min stubFloor_le_cap
      (stubFloor_le_add hquotient req.deviceId hu hu' (by norm_num) (by norm_num))
  · cases hx

/-- **So is the score of the server**, which rounds the amount first. -/
theorem RemoteModelService.le_of_score {ofText : PyStr → Option PyFloat} {req : Request} {u : ℚ}
    (hu : 0 ≤ u) (hu' : u ≤ 1) (hamount : 120000 < req.amountMinor) {x : PyFloat}
    (hx : score ofText u req = some x) : (PyFloat.finite stubFloor).Le x := by
  obtain ⟨amount, ha, rfl⟩ := Option.map_eq_some_iff.mp hx
  obtain ⟨q, hq, rfl⟩ := Option.map_eq_some_iff.mp ha
  -- 120001 is a double, so rounding does not pass it
  have hround : (120001 : ℚ) ≤ q := by
    rw [← (Double.round_eq_some hq).1]
    refine Double.le_nearest (Double.fits_int (n := 120001) (by norm_num)) ?_
    exact_mod_cast hamount
  have hquotient : (PyFloat.finite stubFloor).Le ((PyFloat.finite q).divBy 200000) :=
    PyFloat.le_divBy fits_stubFloor abs_stubFloor_lt (p := 120001) (by norm_num)
      (by norm_num [stubFloor]) (PyFloat.finite_le.mpr hround)
  have hzero : (PyFloat.ofInt 0).Le (PyFloat.finite stubFloor) := by decide +kernel
  exact PyFloat.le_min stubFloor_le_cap (PyFloat.le_max hzero
    (stubFloor_le_add hquotient req.deviceId hu hu' (by norm_num) (by norm_num)))

/-! ## The floor of a call -/

/-- With the gateway's own threshold, no review floor is above that of the threshold itself: the
discounts only lower it. -/
theorem floor_le {n : ℕ} (hn : n ≤ 4) (complete : Bool) :
    thresholdIn (.ofRat (3 / 4)) (discountIn PyFloat n) complete ≠ .nan ∧
      ((thresholdIn (.ofRat (3 / 4)) (discountIn PyFloat n) complete).mul (.ofRat (4 / 5))).Le
        (.finite stubFloor) := by
  have hall : ∀ (n : Fin 5) (complete : Bool),
      thresholdIn (.ofRat (3 / 4)) (discountIn PyFloat n.val) complete ≠ .nan ∧
        ((thresholdIn (.ofRat (3 / 4)) (discountIn PyFloat n.val) complete).mul (.ofRat (4 / 5))).Le
          (.finite stubFloor) := by decide +kernel
  exact hall ⟨n, by omega⟩ complete

/-- A score that is not below the floor is not approved. -/
theorem judge_ne_approve {n : ℕ} (hn : n ≤ 4) (complete : Bool) {x : PyFloat}
    (hx : (PyFloat.finite stubFloor).Le x) :
    judge (thresholdIn (.ofRat (3 / 4)) (discountIn PyFloat n) complete) x ≠ .approve := by
  obtain ⟨hnumber, hfloor⟩ := floor_le hn complete
  intro happrove
  exact PyFloat.not_lt_of_le hfloor hx
    (judge_approve_iff.mpr ⟨PyFloat.ne_nan_of_le hx, hnumber⟩ happrove)

namespace Gateway

variable {V A : Type*} [VelocityCounter V]

/-- Usable features have the discount of at most four stale ones. -/
theorem discount_of_usable {g : Gateway V A} {c : Circumstances} {req : Request}
    (h : (g.answers c req).features.usable = true) :
    ∃ n ≤ 4, (g.answers c req).features.discount = discountIn PyFloat n := by
  cases hcache : g.featureCache with
  | some cache =>
    rw [features_of_cache hcache] at h ⊢
    change FeatureBundle.usableForModel _ = true at h
    simp only [FeatureBundle.usableForModel, Bool.and_eq_true, Bool.not_eq_true'] at h
    have hlen : (assemble req.cardId c.cacheReads [] cache).1.staleSoft.length ≤ 4 := by
      have hdown := h.2
      unfold assemble at hdown ⊢
      rw [assembleLoop_staleSoft _ hdown, List.nil_append, List.length_map]
      exact List.length_filter_le _ _
    exact ⟨_, hlen, confidenceDiscount_eq _⟩
  | none =>
    have hzero : PyFloat.ofInt 0 = discountIn PyFloat 0 := by decide +kernel
    refine ⟨0, by omega, ?_⟩
    change (g.assembleFeatures c req).1.discount = _
    unfold assembleFeatures
    rw [hcache]
    cases g.featureCacheUp <;> exact hzero

end Gateway

/-! ## Calls over the models -/

/-- A call of a gateway over a `ModelService`, with the threshold `__init__` sets: whatever score
the model returns is the one of the request, for some `random()` in `[0, 1)`. -/
def StubScored (k : GatewayCall) : Prop :=
  k.surroundings.modelThreshold = .ofRat (3 / 4) ∧
    ∀ x, k.circumstances.score k.request = some x →
      ∃ u : ℚ, 0 ≤ u ∧ u < 1 ∧ ModelService.score u k.request = some x.value

/-- A call of a gateway over a `RemoteModelService` and the binary transport, with that threshold:
the texts of the request were read from JSON, and whatever score there is was returned for the
request. -/
def RemoteScored (ofText : PyStr → Option PyFloat) (textOf : Json → PyStr) (k : GatewayCall) : Prop :=
  k.surroundings.modelThreshold = .ofRat (3 / 4) ∧
    k.request.deviceId.Unicode ∧ k.request.cardId.Unicode ∧
    ∀ x, k.circumstances.score k.request = some x →
      RemoteModelService.Returns ofText textOf k.request x.value

/-- A call with the gateway's own threshold whose score, if there is one, is not below the review
floor when the amount is above 120000. -/
def ScoresLarge (k : GatewayCall) : Prop :=
  k.surroundings.modelThreshold = .ofRat (3 / 4) ∧
    ∀ x, k.circumstances.score k.request = some x → 120000 < k.request.amountMinor →
      (PyFloat.finite stubFloor).Le x.value

theorem StubScored.scoresLarge {k : GatewayCall} (h : StubScored k) : ScoresLarge k := by
  obtain ⟨hthreshold, hmodel⟩ := h
  refine ⟨hthreshold, fun x hx hamount => ?_⟩
  obtain ⟨u, hu, hu', hscore⟩ := hmodel x hx
  exact ModelService.le_of_score hu hu'.le hamount hscore

theorem RemoteScored.scoresLarge {ofText : PyStr → Option PyFloat} {textOf : Json → PyStr}
    {k : GatewayCall} (h : RemoteScored ofText textOf k) : ScoresLarge k := by
  obtain ⟨hthreshold, hdevice, hcard, hmodel⟩ := h
  refine ⟨hthreshold, fun x hx hamount => ?_⟩
  obtain ⟨u, hu, hu', hscore⟩ := (hmodel x hx).own_score hdevice hcard
  exact RemoteModelService.le_of_score hu hu'.le hamount hscore

/-- An approval of the card at a time in `(T, T + W]`. -/
def Approval (W : ℕ) (card : PyStr) (T : ℚ) (p : GatewayCall × Decision) : Prop :=
  p.1.request.cardId = card ∧ T < p.1.request.nowMs ∧ p.1.request.nowMs ≤ T + W ∧
    p.2.decision = .approve

instance (W : ℕ) (card : PyStr) (T : ℚ) (p : GatewayCall × Decision) :
    Decidable (Approval W card T p) :=
  inferInstanceAs (Decidable (_ ∧ _))

/-- What the card was approved in the window, in minor units. -/
def approvedAmount (W : ℕ) (card : PyStr) (T : ℚ) (ps : List (GatewayCall × Decision)) : ℤ :=
  ((ps.filter (Approval W card T)).map fun p => p.1.request.amountMinor).sum

namespace Gateway

variable {V A : Type*} [VelocityCounter V] [AuditSink A]

/-- **No request above 120000 is approved**, whatever the state of the gateway and of its breaker,
and whether or not the model answers. -/
theorem approved_amount_le (g : Gateway V A) (k : GatewayCall) (hlarge : ScoresLarge k)
    (h : (g.step k).1.decision = .approve) : k.request.amountMinor ≤ 120000 := by
  cases hs : (g.step k).1.score with
  | none =>
    have hlt := (unscored_approve h hs).2.2.1
    omega
  | some x =>
    by_contra hamount
    rw [step_fst] at h hs
    obtain ⟨hadm, he⟩ := ruling_approve h
    obtain ⟨hscore, hdecision⟩ := ruling_admitted k.surroundings.modelThreshold hadm he
    have hobtained : (g.answersTo k).obtained = some x := hscore.symm.trans hs
    rw [hobtained] at hdecision
    have husable : (g.answersTo k).features.usable = true := by
      by_contra hu
      rw [Answers.obtained, if_neg hu] at hobtained
      cases hobtained
    have hreturned : k.circumstances.score k.request = some x := by
      rw [Answers.obtained, if_pos husable, Answers.scored] at hobtained
      split at hobtained
      · cases hobtained
      · exact hobtained
    obtain ⟨hthreshold, hfloor⟩ := hlarge
    obtain ⟨n, hn, hdiscount⟩ := discount_of_usable husable
    have happrove : judge (effectiveThreshold k.surroundings.modelThreshold
        (g.answersTo k).features).1 x.value = .approve := hdecision.symm.trans h
    rw [effectiveThreshold_fst, hthreshold] at happrove
    rw [show (g.answersTo k).features.discount = _ from hdiscount] at happrove
    exact judge_ne_approve hn _ (hfloor x hreturned (not_le.mp hamount)) happrove

/-- **The exposure of a card with a stand-in model.** In every run whose timestamps do not decrease
within a card, each call scored in the process or over the binary transport, with the counter of the
process available and whatever else fails: the requests of a card that are approved in a window
`(T, T + W]` are at most twelve, and together of at most 1440000 minor units. -/
theorem stub_exposure (ofText : PyStr → Option PyFloat) (textOf : Json → PyStr) (W : ℕ)
    (g : Gateway SafeCounter A) (hv : g.velocity = { windowMs := W }) (ks : List GatewayCall)
    (hord : OrderedPerCard ks) (hstub : ∀ k ∈ ks, StubScored k ∨ RemoteScored ofText textOf k)
    (card : PyStr) (T : ℚ) :
    (ks.zip (Machine.replies step g ks)).countP (Approval W card T) ≤ 12 ∧
      approvedAmount W card T (ks.zip (Machine.replies step g ks)) ≤ 1440000 := by
  have hcount : (ks.zip (Machine.replies step g ks)).countP (Approval W card T) ≤ 12 := by
    refine at_most_limit hv card T (fun g k h => ?_) hord
    obtain ⟨hcard, hlo, hhi, hd⟩ := h
    dsimp only at hd
    rw [step_fst] at hd
    obtain ⟨hadm, he⟩ := ruling_approve hd
    exact ⟨hcard, hadm, hlo, hhi, he⟩
  refine ⟨hcount, ?_⟩
  have hsum : approvedAmount W card T (ks.zip (Machine.replies step g ks)) ≤ _ :=
    List.sum_le_card_nsmul _ 120000 fun a ha => by
      obtain ⟨p, hp, rfl⟩ := List.mem_map.mp ha
      obtain ⟨hmem, hp⟩ := List.mem_filter.mp hp
      obtain ⟨pre, hpre⟩ := Machine.exists_of_mem_zip_replies step hmem
      have hlarge : ScoresLarge p.1 := (hstub _ (List.of_mem_zip hmem).1).elim
        StubScored.scoresLarge RemoteScored.scoresLarge
      refine approved_amount_le (Machine.after step g pre) p.1 hlarge ?_
      rw [hpre]
      exact (of_decide_eq_true hp : Approval W card T p).2.2.2
  rw [List.length_map, ← List.countP_eq_length_filter, nsmul_eq_mul] at hsum
  have hle : ((ks.zip (Machine.replies step g ks)).countP (Approval W card T) : ℤ) ≤ 12 := by
    exact_mod_cast hcount
  linarith

/-- The score of a request of 120000 minor units without noise. -/
def restScore : Score := ⟨"0.6".toList, by decide +kernel⟩

/-- A call of this amount, scored by the model. -/
def restCall : GatewayCall :=
  { idleCall [] 120000 1 with
    circumstances := { (idleCall [] 120000 1).circumstances with score := fun _ => some restScore } }

example : StubScored restCall := by
  refine ⟨rfl, fun x hx => ⟨0, le_rfl, one_pos, ?_⟩⟩
  cases hx
  decide +kernel

/-- The request crosses a new connection, is scored there, and the reply is read. -/
def restRun : List BinaryTransport.Action :=
  [.score (RemoteModelService.features restCall.request), .connected, .sent 60,
    .handler 0 (.received 4), .handler 0 (.received 56), .handler 0 (.computed (some restScore)),
    .handler 0 (.sent 58), .received 4, .received 54]

theorem remoteScored_restCall : RemoteScored (fun _ => none) (fun _ => []) restCall := by
  have hrun : (Runs.run (BinaryTransport.step fun _ => none) {} restRun).map
      (fun t => (t.returned.map fun r => (r.features, r.value),
        t.scored.map fun s => (s.features, s.score))) =
      some ([(RemoteModelService.features restCall.request, restScore.value)],
        [(RemoteModelService.features restCall.request, restScore)]) := by decide +kernel
  obtain ⟨t, ht, hhistory⟩ := Option.map_eq_some_iff.mp hrun
  obtain ⟨hreturned, hscored⟩ := Prod.mk.inj hhistory
  refine ⟨rfl, by decide +kernel, by decide +kernel, fun x hx => ?_⟩
  cases hx
  refine ⟨restRun, t, ht, fun s hs => ⟨0, le_rfl, one_pos, ?_⟩, ?_⟩
  · have hmem := List.mem_map_of_mem (f := fun s : BinaryTransport.Scored => (s.features, s.score)) hs
    rw [hscored, List.mem_singleton] at hmem
    obtain ⟨hfeatures, hscore⟩ := Prod.mk.inj hmem
    rw [hfeatures, hscore]
    decide +kernel
  · have hmem : (RemoteModelService.features restCall.request, restScore.value) ∈
        t.returned.map fun r => (r.features, r.value) := by
      rw [hreturned]
      exact List.mem_singleton_self _
    obtain ⟨r, hr, heq⟩ := List.mem_map.mp hmem
    exact ⟨r, hr, (Prod.mk.inj heq).1, (Prod.mk.inj heq).2⟩

/-- Thirteen of them, of one card and at one time: the largest sum is reached. -/
theorem stub_exposure_rest :
    (((List.replicate 13 restCall).zip (Machine.replies step (inProcess { windowMs := 1000 })
      (List.replicate 13 restCall))).countP (Approval 1000 [] 0) ≤ 12 ∧
      approvedAmount 1000 [] 0 ((List.replicate 13 restCall).zip
        (Machine.replies step (inProcess { windowMs := 1000 }) (List.replicate 13 restCall))) ≤
          1440000) ∧
    1440000 ≤ approvedAmount 1000 [] 0 ((List.replicate 13 restCall).zip
      (Machine.replies step (inProcess { windowMs := 1000 }) (List.replicate 13 restCall))) :=
  ⟨stub_exposure (fun _ => none) (fun _ => []) 1000 (inProcess { windowMs := 1000 }) rfl _ (by
    intro card
    rw [List.filter_replicate]
    split_ifs <;> simp [restCall, idleCall]) (by
    intro k hk
    rw [List.eq_of_mem_replicate hk]
    exact .inr remoteScored_restCall) [] 0, by decide +kernel⟩

end Gateway
