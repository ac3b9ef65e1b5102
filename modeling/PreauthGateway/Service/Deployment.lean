import PreauthGateway.Gateway.Percentile
import PreauthGateway.Service.Exports

/-!
# The service as it is deployed

The application starts with an empty feature cache, and no endpoint puts a feature into it. So the
hard feature of every card is missing, whatever the operators switch on or off with `chaos`: no
request is ever scored. The rules and the amount decide alone, and the breaker never opens.

A request has passed the schema before `authorize` sees it.

## Main definitions

* `AuthRequest`: a request that passed the schema
* `VelocityStore`: a counter that can be switched off and on
* `App`, `App.step`: the application, and its endpoints
* `coldRuling`: what is decided without features

## Main results

* `assemble_cold`: an empty cache gives no features that the model could use
* `App.never_asks_model`: **over every run of the application no request is scored**, each is
  decided by `coldRuling`, and `health` never shows an open breaker
-/

/-- `AuthRequest`: the fields, and the bounds of the schema. -/
structure AuthRequest extends Request where
  amount_pos : 0 < amountMinor
  currency_length : currency.length = 3
  now_pos : 0 < nowMs

theorem AuthRequest.valid (req : AuthRequest) : req.toRequest.Valid :=
  ⟨req.amount_pos, req.currency_length⟩

/-- A counter with the switch `available`. -/
class VelocityStore (V : Type*) extends VelocityCounter V where
  available : V → Bool
  setAvailable : Bool → V → V

instance : VelocityStore SafeCounter where
  available c := c.available
  setAvailable up c := { c with available := up }

/-- The answer of `health`. -/
structure Health where
  status : String
  modelUp : Bool
  velocityUp : Bool
  circuitOpen : Bool
  sloP99Ms : ℚ

/-- The application: the service, and `up` of the model of its gateway. -/
structure App (V : Type*) where
  service : Service V := {}
  modelUp : Bool := true

/-- What happens to the application. A startup makes the counter, and the log on a file; a request
of an endpoint has the readings and answers that it meets. -/
inductive AppRequest (V : Type*)
  | startup (velocity : V) (config : WalConfig) (now : ℚ) (file : Bytes)
  | shutdown
  | health (now : ℚ)
  | authorize (req : AuthRequest) (c : Circumstances)
  | metrics
  | chaos (dependency state : String)

/-- The answers; `done` is that of a startup or a shutdown. -/
inductive AppResponse
  | done
  | health (h : Except PyError Health)
  | authorize (r : Except PyError AuthResponse)
  | metrics (r : Except PyError Unit)
  | chaos (r : Except PyError (Except String (String × Bool)))

namespace Gateway

variable {V A : Type*}

/-- A call that leaves what the operators set as it is. -/
def ownCall (g : Gateway V A) (req : Request) (c : Circumstances) : GatewayCall where
  surroundings := ⟨g.featureCacheUp, g.featureCache, g.modelThreshold⟩
  circumstances := c
  request := req

theorem arrange_ownCall (g : Gateway V A) (req : Request) (c : Circumstances) :
    g.arrange (g.ownCall req c).surroundings = g := rfl

end Gateway

namespace App

variable {V : Type*} [VelocityStore V]

/-- The model is down, or answers. -/
def meet (a : App V) (c : Circumstances) : Circumstances :=
  { c with score := fun req => if a.modelUp then c.score req else none }

/-- `health`. -/
def health (now : ℚ) (a : App V) : Except PyError Health × App V :=
  match a.service.gateway with
  | none => (.error .keyError, a)
  | some g =>
    let (isOpen, breaker) := g.breaker.isOpen now
    (.ok ⟨"ok", a.modelUp, VelocityStore.available g.velocity, isOpen, sloP99Ms⟩,
      { a with service := { a.service with gateway := some { g with breaker } } })

/-- `authorize`. -/
def authorize (req : AuthRequest) (c : Circumstances) (a : App V) :
    Except PyError AuthResponse × App V :=
  match a.service.gateway with
  | none => (.error .keyError, a)
  | some g =>
    let (r, service) := a.service.authorize (g.ownCall req.toRequest (a.meet c))
    (r, { a with service })

/-- `chaos`. -/
def chaos (dependency state : String) (a : App V) :
    Except PyError (Except String (String × Bool)) × App V :=
  match a.service.gateway with
  | none => (.error .keyError, a)
  | some g =>
    let up : Bool := state = "up"
    if dependency = "model" then (.ok (.ok (dependency, up)), { a with modelUp := up })
    else if dependency = "velocity" then
      (.ok (.ok (dependency, up)), { a with service := { a.service with
        gateway := some { g with velocity := VelocityStore.setAvailable up g.velocity } } })
    else if dependency = "features" then
      (.ok (.ok (dependency, up)), { a with service := { a.service with
        gateway := some { g with
          featureCache := g.featureCache.map fun cache => { cache with available := up }
          featureCacheUp := up } } })
    else (.ok (.error ("unknown dependency " ++ dependency)), a)

/-- The application answers. -/
def step (a : App V) : AppRequest V → AppResponse × App V
  | .startup velocity config now file =>
    (.done, { service := a.service.startup velocity config now file })
  | .shutdown => (.done, { a with service := a.service.shutdown })
  | .health now => ((a.health now).1 |> .health, (a.health now).2)
  | .authorize req c => ((a.authorize req c).1 |> .authorize, (a.authorize req c).2)
  | .metrics => (.metrics a.service.metrics.1, { a with service := a.service.metrics.2 })
  | .chaos dependency state =>
    ((a.chaos dependency state).1 |> .chaos, (a.chaos dependency state).2)

end App

/-! ## An empty cache -/

section Cold

variable {cardId : PyStr} {reads : ℕ → CacheRead}

/-- A read of an empty cache finds nothing, and leaves it empty. -/
theorem get_of_empty {c : FeatureCache} (h : c.entries = []) {key : PyStr} {feature : String} {now : ℚ}
    {r : (Option PyFloat × Bool) × FeatureCache} (hr : c.get key feature now = some r) :
    r.1 = (none, false) ∧ r.2.entries = [] := by
  unfold FeatureCache.get at hr
  split at hr
  · rw [h] at hr
    cases hr
    exact ⟨rfl, rfl⟩
  · cases hr

/-- The bundle lacks the hard feature, or the cache was down. -/
def FeatureBundle.Blind (b : FeatureBundle) : Prop :=
  b.cacheDown = true ∨ "velocity_24h" ∈ b.missingHard

theorem FeatureBundle.Blind.usable {b : FeatureBundle} (h : b.Blind) :
    b.usableForModel = false := by
  rcases h with h | h
  · simp [usableForModel, h]
  · simp [usableForModel, List.ne_nil_of_mem h]

/-- A blind bundle says so. -/
theorem FeatureBundle.Blind.reasons {b : FeatureBundle} (h : b.Blind) :
    .featureCacheDown ∈ b.reasons ∨ .missingHardFeature "velocity_24h" ∈ b.reasons := by
  rcases h with h | h
  · left
    simp [FeatureBundle.reasons, h]
  · right
    refine List.mem_append_left _ (List.mem_append_right _ (List.mem_map.mpr ⟨_, h, rfl⟩))

/-- The loop over an empty cache keeps a blind bundle blind. -/
theorem assembleLoop_empty {n : ℕ} {fs : List String} {b : FeatureBundle} {c : FeatureCache}
    (h : c.entries = []) (hb : b.Blind) :
    (assembleLoop cardId reads n fs b c).1.Blind ∧
      (assembleLoop cardId reads n fs b c).2.entries = [] := by
  induction fs generalizing n b c with
  | nil => exact ⟨hb, h⟩
  | cons f fs ih =>
    rw [assembleLoop]
    cases hg : (c.meet (reads n)).get cardId f (reads n).now with
    | none => exact ⟨.inl rfl, h⟩
    | some r =>
      have hread := get_of_empty (show (c.meet (reads n)).entries = [] from h) hg
      obtain ⟨⟨value, stale⟩, c'⟩ := r
      obtain ⟨hval, hentries⟩ := hread
      cases hval
      refine ih hentries ?_
      rw [FeatureBundle.add]
      split
      · exact hb.imp id (List.mem_append_left _)
      · exact hb

/-- **An empty cache gives no features that the model could use**, and stays empty. -/
theorem assemble_cold {c : FeatureCache} (h : c.entries = []) :
    (assemble cardId reads [] c).1.Blind ∧ (assemble cardId reads [] c).2.entries = [] := by
  have hwanted : wantedOrAll [] =
      "velocity_24h" :: ["device_history", "card_tenure_days", "merchant_risk"] := rfl
  rw [assemble, hwanted, assembleLoop]
  cases hg : (c.meet (reads 0)).get cardId "velocity_24h" (reads 0).now with
  | none => exact ⟨.inl rfl, h⟩
  | some r =>
    have hread := get_of_empty (show (c.meet (reads 0)).entries = [] from h) hg
    obtain ⟨⟨value, stale⟩, c'⟩ := r
    obtain ⟨hval, hentries⟩ := hread
    cases hval
    exact assembleLoop_empty hentries (.inr (List.mem_singleton.mpr rfl))

end Cold

/-! ## What is decided without features -/

/-- The decision and the source, for a count of the card. -/
def coldRuling (req : Request) (count : Option ℕ) : Verdict × Source :=
  if req.Blocklisted then (.decline, .hotRule)
  else if exceeds 12 count then (.decline, .rules)
  else ((degrade req.amountMinor count).1, .degraded (degrade req.amountMinor count).2 true)

/-- A response that rests on the rules and the amount, and says what was missing. -/
structure ColdAnswer (req : Request) (count : Option ℕ) (r : AuthResponse) : Prop where
  score : r.score = none
  decision : r.decision = (coldRuling req count).1.text
  source : r.source = (coldRuling req count).2.text
  reported : ¬ req.Blocklisted → ¬ exceeds 12 count →
    Reason.featureCacheDown.text ∈ r.reasons ∨
      (Reason.missingHardFeature "velocity_24h").text ∈ r.reasons

/-- A gateway whose cache is empty and whose breaker has seen no request. -/
structure Gateway.Cold {V A : Type*} (g : Gateway V A) : Prop where
  cache : ∃ cache, g.featureCache = some cache ∧ cache.entries = []
  breaker : g.breaker = {}

namespace Gateway

section Cold

variable {V A : Type*} [VelocityCounter V] [AuditSink A] {g : Gateway V A}

/-- The entries of the cache are what they were. -/
theorem entries_decide (hcold : g.Cold) (c : Circumstances) (req : Request) :
    ∃ cache, (g.decide c req).2.featureCache = some cache ∧ cache.entries = [] := by
  obtain ⟨cache, hcache, hempty⟩ := hcold.cache
  have hassemble : ∀ g' : Gateway V A, g'.featureCache = g.featureCache →
      ∃ cache, (g'.assembleFeatures c req).2.featureCache = some cache ∧ cache.entries = [] := by
    intro g' hg'
    rw [assembleFeatures, hg', hcache]
    exact ⟨_, rfl, (assemble_cold hempty).2⟩
  unfold decide
  dsimp only
  split
  · exact ⟨cache, hcache, hempty⟩
  split
  · exact ⟨cache, hcache, hempty⟩
  split
  · exact ⟨cache, hcache, hempty⟩
  split
  · exact hassemble _ rfl
  · rw [askModel_gateway]
    split
    · exact hassemble _ rfl
    · exact hassemble _ rfl

/-- Whatever the model would say, it is not asked. -/
theorem decide_congr_score (hcold : g.Cold) (c : Circumstances) (req : Request)
    (score : Request → Option Score) : g.decide { c with score } req = g.decide c req := by
  obtain ⟨cache, hcache, hempty⟩ := hcold.cache
  have hunusable : ∀ (c : Circumstances) (g' : Gateway V A), g'.featureCache = g.featureCache →
      ¬ (g'.assembleFeatures c req).1.usable = true := by
    intro c g' hg' h
    rw [assembleFeatures, hg', hcache] at h
    exact absurd ((assemble_cold hempty).1.usable.symm.trans h) Bool.false_ne_true
  unfold decide
  dsimp only
  by_cases hv : req.amountMinor ≤ 0 ∨ req.currency.length ≠ 3
  · exact (if_pos hv).trans (if_pos hv).symm
  refine (if_neg hv).trans (Eq.trans ?_ (if_neg hv).symm)
  by_cases hb : req.Blocklisted
  · exact (if_pos hb).trans (if_pos hb).symm
  refine (if_neg hb).trans (Eq.trans ?_ (if_neg hb).symm)
  by_cases he : exceeds 12 (g.readVelocity req).1
  · exact (if_pos he).trans (if_pos he).symm
  refine (if_neg he).trans (Eq.trans ?_ (if_neg he).symm)
  refine (if_pos ?_).trans (if_pos ?_).symm
  · exact hunusable _ _ rfl
  · exact hunusable _ _ rfl

/-- What is decided on a valid request with features that the model could not use. -/
theorem ruling_unusable {req : Request} (hv : req.Valid) (thr : PyFloat) {a : Answers}
    (hu : a.features.usable = false) :
    (ruling req thr a).score = none ∧ (ruling req thr a).decision = (coldRuling req a.count).1 ∧
      (ruling req thr a).source = (coldRuling req a.count).2 ∧
      (¬ req.Blocklisted → ¬ exceeds 12 a.count →
        ∀ r ∈ a.features.reasons, r ∈ (ruling req thr a).reasons) := by
  rw [ruling, if_neg (not_not.mpr hv), coldRuling]
  by_cases hb : req.Blocklisted
  · rw [if_pos hb, if_pos hb]
    exact ⟨rfl, rfl, rfl, fun h => absurd hb h⟩
  rw [if_neg hb, if_neg hb]
  by_cases he : exceeds 12 a.count
  · rw [if_pos he, if_pos he]
    exact ⟨rfl, rfl, rfl, fun _ h => absurd he h⟩
  rw [if_neg he, if_neg he, if_pos (by rw [hu]; exact Bool.false_ne_true)]
  exact ⟨rfl, rfl, rfl, fun _ _ r hr => List.mem_append_right _ hr⟩

omit [AuditSink A] in
/-- The features of a cold gateway. -/
theorem features_cold (hcold : g.Cold) (c : Circumstances) (req : Request) :
    (g.answers c req).features.usable = false ∧
      (.featureCacheDown ∈ (g.answers c req).features.reasons ∨
        .missingHardFeature "velocity_24h" ∈ (g.answers c req).features.reasons) := by
  obtain ⟨cache, hcache, hempty⟩ := hcold.cache
  have hblind : (assemble req.cardId c.cacheReads [] cache).1.Blind := (assemble_cold hempty).1
  rw [answers, assembleFeatures, hcache]
  exact ⟨hblind.usable, hblind.reasons⟩

/-- A decision leaves a cold gateway cold. -/
theorem cold_step (hcold : g.Cold) (c : Circumstances) (req : Request) :
    (g.step (g.ownCall req c)).2.Cold where
  cache := entries_decide hcold c req
  breaker := by
    have hasks : ¬ (g.answersTo (g.ownCall req c)).Asks := fun h =>
      absurd ((features_cold hcold c req).1.symm.trans h.2) Bool.false_ne_true
    rw [breaker_step, if_neg fun h => hasks h.2]
    exact hcold.breaker

end Cold

end Gateway

namespace App

variable {V : Type*} [VelocityStore V]

/-- The gateway, if the application is up, is cold. -/
def Cold (a : App V) : Prop := ∀ g, a.service.gateway = some g → g.Cold

/-- How the application answers: `authorize` without the model, `health` with a closed breaker. -/
def Answered (a : App V) : AppRequest V → Prop
  | .authorize req c =>
    (∀ score, a.authorize req { c with score } = a.authorize req c) ∧
      ∀ r, (a.authorize req c).1 = .ok r → ∃ g, a.service.gateway = some g ∧
        ColdAnswer req.toRequest (g.readVelocity req.toRequest).1 r
  | .health now => ∀ h, (a.health now).1 = .ok h → h.circuitOpen = false
  | .startup _ _ _ _ | .shutdown | .metrics | .chaos _ _ => True

section Authorize

variable {a : App V} {g : Gateway V DurableAuditLog}

/-- Whatever the model would say, the application answers the same. -/
theorem authorize_congr_score (ha : a.Cold) (req : AuthRequest) (c : Circumstances)
    (score : Request → Option Score) : a.authorize req { c with score } = a.authorize req c := by
  unfold authorize
  cases hg : a.service.gateway with
  | none => rfl
  | some g =>
    have hstep : g.step (g.ownCall req.toRequest (a.meet { c with score })) =
        g.step (g.ownCall req.toRequest (a.meet c)) :=
      Gateway.decide_congr_score (ha g hg) (a.meet c) req.toRequest
        fun req => if a.modelUp then score req else none
    simp only [Service.authorize, hg, hstep]

/-- What a cold application answers, and what it becomes. -/
theorem authorize_cold (ha : a.Cold) (hg : a.service.gateway = some g) (req : AuthRequest)
    (c : Circumstances) :
    (∀ r, (a.authorize req c).1 = .ok r →
      ColdAnswer req.toRequest (g.readVelocity req.toRequest).1 r) ∧
      (a.authorize req c).2.Cold := by
  have hcold := ha g hg
  have hstep := Gateway.cold_step hcold (a.meet c) req.toRequest
  obtain ⟨hu, hwhy⟩ := Gateway.features_cold hcold (a.meet c) req.toRequest
  obtain ⟨hscore, hdecision, hsource, hreasons⟩ :=
    Gateway.ruling_unusable req.valid g.modelThreshold hu
  have hd := Gateway.step_fst g (g.ownCall req.toRequest (a.meet c))
  unfold authorize Service.authorize
  rw [hg]
  dsimp only
  cases hr : (g.step (g.ownCall req.toRequest (a.meet c))).2.audit.recover with
  | error e =>
    refine ⟨(by rintro r ⟨⟩), ?_⟩
    rintro g' ⟨⟩
    exact hstep
  | ok p =>
    refine ⟨?_, ?_⟩
    · rintro r ⟨⟩
      rw [hd]
      refine ⟨hscore, congrArg Verdict.text hdecision, congrArg Source.text hsource, ?_⟩
      intro hb he
      exact hwhy.imp (fun h => List.mem_map_of_mem (hreasons hb he _ h))
        fun h => List.mem_map_of_mem (hreasons hb he _ h)
    · rintro g' ⟨⟩
      exact ⟨hstep.cache, hstep.breaker⟩

end Authorize

/-- A cold application answers without the model, and stays cold. -/
theorem cold_step (a : App V) (q : AppRequest V) (ha : a.Cold) :
    a.Answered q ∧ (a.step q).2.Cold := by
  cases q with
  | startup velocity config now file =>
    refine ⟨trivial, ?_⟩
    rintro g ⟨⟩
    exact ⟨⟨_, rfl, rfl⟩, rfl⟩
  | shutdown =>
    refine ⟨trivial, ?_⟩
    rintro g ⟨⟩
  | metrics =>
    refine ⟨trivial, fun g hg => ha g ?_⟩
    rw [← hg]
    exact (Service.gateway_metrics a.service).symm
  | health now =>
    refine ⟨?_, ?_⟩
    · intro h hh
      rw [health] at hh
      cases hg : a.service.gateway with
      | none => rw [hg] at hh; cases hh
      | some g =>
        rw [hg] at hh
        dsimp only at hh
        rw [(ha g hg).breaker] at hh
        cases hh
        rfl
    · intro g' hg'
      unfold step health at hg'
      cases hg : a.service.gateway with
      | none => simp only [hg] at hg'; cases hg'
      | some g =>
        simp only [hg] at hg'
        cases hg'
        exact ⟨(ha g hg).cache, by rw [(ha g hg).breaker]; rfl⟩
  | authorize req c =>
    cases hg : a.service.gateway with
    | none =>
      have hnone : a.authorize req c = (.error .keyError, a) := by rw [authorize, hg]
      refine ⟨⟨authorize_congr_score ha req c, ?_⟩, ?_⟩
      · rw [hnone]
        rintro r ⟨⟩
      · rw [step, hnone]
        exact ha
    | some g =>
      obtain ⟨hanswer, hcold⟩ := authorize_cold ha hg req c
      exact ⟨⟨authorize_congr_score ha req c, fun r hr => ⟨g, hg, hanswer r hr⟩⟩, hcold⟩
  | chaos dependency state =>
    refine ⟨trivial, ?_⟩
    unfold step chaos
    cases hg : a.service.gateway with
    | none => exact ha
    | some g =>
      have hcold := ha g hg
      obtain ⟨cache, hcache, hempty⟩ := hcold.cache
      dsimp only
      split_ifs
      · exact ha
      · rintro g' ⟨⟩
        exact ⟨hcold.cache, hcold.breaker⟩
      · rintro g' ⟨⟩
        exact ⟨⟨_, congrArg (Option.map _) hcache, hempty⟩, hcold.breaker⟩
      · exact ha

/-- **Over every run of the application no request is scored**: whatever the operators do and the
dependencies answer, each is decided by the rules and the amount alone, as if there were no model,
and `health` never shows an open breaker. -/
theorem never_asks_model (qs : List (AppRequest V)) : Machine.Along step Answered ({} : App V) qs := by
  intro pre q post _
  have hcold : (Machine.after step ({} : App V) pre).Cold :=
    Machine.invariant (P := fun _ _ => True) (fun a q ha _ => (cold_step a q ha).2)
      (by rintro g ⟨⟩) fun _ _ _ _ => trivial
  exact (cold_step _ q hcold).1

end App
