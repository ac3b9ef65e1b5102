import PreauthGateway.Gateway.Freshness

/-!
# Knowing less, and leniency

Stale soft features tighten the threshold, but a soft feature that is gone does not. So the decision
on a score becomes stricter as entries go stale, and more lenient again as the stale ones are
evicted.

The decision policy is stated over any arithmetic. Over floats it is the policy of `decide`; here it
is taken over the rationals.

## Main definitions

* `PolicyArithmetic`, `discountIn`, `thresholdIn`, `judgeIn`: the decision policy
* `Verdict.strictness`: the order of decisions
* `FeatureCache.FadesTo`: soft entries age or are removed
* `FeatureCache.policyVerdict`: what the policy decides on a score

## Main results

* `Gateway.decide_policy`: over floats the policy is that of `decide`
* `strictness_judge`: the decision grows stricter exactly outside two bands of scores
* `Gateway.no_more_lenient_iff`: **when knowing less is no more lenient**
-/

/-! ## The decision policy in any arithmetic -/

/-- Numbers to compute a threshold with. -/
class PolicyArithmetic (F : Type*) where
  ofRat : ℚ → F
  mul : F → F → F
  sub : F → F → F
  le : F → F → Bool
  lt : F → F → Bool
  truthy : F → Bool

instance : PolicyArithmetic PyFloat where
  ofRat := PyFloat.ofRat
  mul := PyFloat.mul
  sub := PyFloat.sub
  le x y := x.Le y
  lt x y := x.Lt y
  truthy x := x.Truthy

/-- Exact arithmetic. -/
instance : PolicyArithmetic ℚ where
  ofRat q := q
  mul x y := x * y
  sub x y := x - y
  le x y := x ≤ y
  lt x y := x < y
  truthy x := x ≠ 0

section Policy

variable {F : Type*} [PolicyArithmetic F]

open PolicyArithmetic

/-- `confidence_discount` of a bundle with some stale soft features. -/
def discountIn (F : Type*) [PolicyArithmetic F] (staleSoft : ℕ) : F :=
  mul (ofRat (1 / 20)) (ofRat staleSoft)

/-- The threshold of a request. -/
def thresholdIn (modelThreshold discount : F) (complete : Bool) : F :=
  if truthy discount then sub modelThreshold (mul discount modelThreshold)
  else if complete then sub modelThreshold (mul discount modelThreshold)
  else mul modelThreshold (ofRat (4 / 5))

/-- The decision for a score. -/
def judgeIn (threshold score : F) : Verdict :=
  let reviewFloor := mul threshold (ofRat (4 / 5))
  let decision : Verdict := if le threshold score then .decline else .approve
  if le reviewFloor score ∧ lt score threshold then .review else decision

/-- What the policy decides on a score, with the features of a bundle. -/
def FeatureBundle.policyVerdict (b : FeatureBundle) (modelThreshold score : F) : Verdict :=
  judgeIn (thresholdIn modelThreshold (discountIn F b.staleSoft.length) b.complete) score

end Policy

theorem confidenceDiscount_eq (b : FeatureBundle) :
    b.confidenceDiscount = discountIn PyFloat b.staleSoft.length := by
  have hcast : ((b.staleSoft.length : ℤ) : ℚ) = (b.staleSoft.length : ℚ) := Int.cast_natCast _
  unfold FeatureBundle.confidenceDiscount PyFloat.ofInt Double.ofInt
  rw [hcast]
  rfl

theorem effectiveThreshold_fst (modelThreshold : PyFloat) (f : Features) :
    (effectiveThreshold modelThreshold f).1 = thresholdIn modelThreshold f.discount f.complete := by
  simp only [effectiveThreshold, thresholdIn, PolicyArithmetic.truthy, decide_eq_true_eq]
  split
  · rfl
  · split <;> rfl

theorem judge_eq (threshold score : PyFloat) : judge threshold score = judgeIn threshold score := by
  simp only [judge, judgeIn, PolicyArithmetic.le, PolicyArithmetic.lt, decide_eq_true_eq]
  rfl

namespace Gateway

variable {V A : Type*} [VelocityCounter V]

/-- **Over floats the policy is that of `decide`.** -/
theorem decide_policy [AuditSink A] {g : Gateway V A} {cache : FeatureCache}
    (hcache : g.featureCache = some cache) {c : Circumstances} {req : Request}
    (hasks : g.AsksModel c req) {x : Score} (hx : c.score req = some x) :
    (g.decide c req).1.source = .model ∧ (g.decide c req).1.score = some x ∧
      (g.decide c req).1.decision =
        (assemble req.cardId c.cacheReads [] cache).1.policyVerdict g.modelThreshold x.value := by
  obtain ⟨hsource, hscore, hdecision⟩ := decide_of_asks hasks hx
  refine ⟨hsource, hscore, ?_⟩
  rw [hdecision, effectiveThreshold_fst, features_of_cache hcache, judge_eq]
  unfold FeatureBundle.policyVerdict
  rw [← confidenceDiscount_eq]
  rfl

end Gateway

/-! ## The order of decisions -/

/-- `approve < review < decline`. -/
def Verdict.strictness : Verdict → ℕ
  | approve => 0
  | review => 1
  | decline => 2

/-- In exact arithmetic: approved below the review floor, declined from the threshold on. -/
theorem strictness_judgeIn {t q : ℚ} (ht : 0 ≤ t) : (judgeIn t q).strictness =
    (if t * (4 / 5) ≤ q then 1 else 0) + (if t ≤ q then 1 else 0) := by
  have hfloor : t * (4 / 5) ≤ t := by linarith
  simp only [judgeIn, PolicyArithmetic.le, PolicyArithmetic.lt, PolicyArithmetic.mul,
    PolicyArithmetic.ofRat, decide_eq_true_eq]
  by_cases h₁ : t ≤ q
  · simp [h₁, hfloor.trans h₁, not_lt.mpr h₁, Verdict.strictness]
  · by_cases h₂ : t * (4 / 5) ≤ q
    · simp [h₁, h₂, not_le.mp h₁, Verdict.strictness]
    · simp [h₁, h₂, Verdict.strictness]

/-- **A threshold is as strict on a score as another one** exactly when the score is in neither of
the bands in which the other is stricter. -/
theorem strictness_judge {s t q : ℚ} (hs : 0 ≤ s) (ht : 0 ≤ t) :
    (judgeIn s q).strictness ≤ (judgeIn t q).strictness ↔
      ¬ (s * (4 / 5) ≤ q ∧ q < t * (4 / 5)) ∧ ¬ (s ≤ q ∧ q < t) := by
  rw [strictness_judgeIn hs, strictness_judgeIn ht]
  by_cases h₁ : s * (4 / 5) ≤ q <;> by_cases h₂ : s ≤ q <;> by_cases h₃ : t * (4 / 5) ≤ q <;>
    by_cases h₄ : t ≤ q <;> simp [h₁, h₂, h₃, h₄] <;> linarith

/-! ## Features that fade -/

namespace FeatureCache

/-- The soft entries of a card age or are removed; the others stay. -/
def FadesTo (cardId : PyStr) (c c' : FeatureCache) : Prop :=
  c'.available = c.available ∧ ∀ f,
    if (policyOf f).freshness = .soft then
      ∀ e', c'.entries.get? (entryKey cardId f) = some e' →
        ∃ e, c.entries.get? (entryKey cardId f) = some e ∧ e'.value = e.value ∧
          e'.writtenAt ≤ e.writtenAt
    else c'.entries.get? (entryKey cardId f) = c.entries.get? (entryKey cardId f)

/-- The features read by `decide`, each with the number of its read. -/
def readsOfAll : List (String × ℕ) := (featurePolicy.map Prod.fst).zipIdx

variable (cardId : PyStr) (reads : ℕ → CacheRead) (c c' : FeatureCache)

/-- The number of stale soft features. -/
def staleSoft : ℕ := readsOfAll.countP (c.staleSoftAt cardId reads)

/-- The number of soft features that were stale and are gone. -/
def evicted : ℕ := readsOfAll.countP fun p =>
  c.staleSoftAt cardId reads p && (c'.look cardId p.1 (reads p.2).now).1 = none

/-- The number of soft features that were not stale and are now. -/
def turned : ℕ := readsOfAll.countP fun p =>
  !c.staleSoftAt cardId reads p && c'.staleSoftAt cardId reads p

variable {cardId reads c c'}

theorem staleSoft_le : c.staleSoft cardId reads ≤ 4 := List.countP_le_length

/-- A stale entry that fades is gone, or stays stale. -/
theorem look_of_fades (h : c.FadesTo cardId c') {p : String × ℕ}
    (hstale : c.staleSoftAt cardId reads p = true) :
    (c'.look cardId p.1 (reads p.2).now).1 = none ↔ c'.staleSoftAt cardId reads p = false := by
  simp only [staleSoftAt, decide_eq_true_eq] at hstale
  obtain ⟨hsoft, hstale⟩ := hstale
  have hf := h.2 p.1
  rw [if_pos hsoft] at hf
  simp only [staleSoftAt, hsoft, true_and, decide_eq_false_iff_not, Bool.not_eq_true]
  unfold look at hstale ⊢
  cases he' : c'.entries.get? (entryKey cardId p.1) with
  | none => simp
  | some e' =>
    obtain ⟨e, he, -, hle⟩ := hf e' he'
    rw [he] at hstale
    simp only [decide_eq_true_eq] at hstale
    have hlt : ((policyOf p.1).ttlS : ℚ) < (reads p.2).now - e'.writtenAt := by linarith [hstale.2]
    simp [hstale.1, hlt]

/-- **Fewer features are stale exactly when more stale ones are gone than turned stale.** -/
theorem staleSoft_le_iff (h : c.FadesTo cardId c') :
    c.staleSoft cardId reads ≤ c'.staleSoft cardId reads ↔
      c.evicted cardId reads c' ≤ c.turned cardId reads c' := by
  have hevicted : c.evicted cardId reads c' = readsOfAll.countP fun p =>
      c.staleSoftAt cardId reads p && !c'.staleSoftAt cardId reads p := by
    refine List.countP_congr fun p _ => ?_
    simp only [Bool.and_eq_true, decide_eq_true_eq, Bool.not_eq_true']
    exact and_congr_right fun hstale => look_of_fades h hstale
  have hsplit (P Q : String × ℕ → Bool) : readsOfAll.countP P =
      readsOfAll.countP (fun p => P p && Q p) + readsOfAll.countP (fun p => P p && !Q p) := by
    rw [List.countP_eq_countP_filter_add _ P Q, List.countP_filter, List.countP_filter]
  -- those that are stale in both caches count on both sides
  have h₁ := hsplit (c.staleSoftAt cardId reads) (c'.staleSoftAt cardId reads)
  have h₂ := hsplit (c'.staleSoftAt cardId reads) (c.staleSoftAt cardId reads)
  have hcomm : (readsOfAll.countP fun p =>
      c'.staleSoftAt cardId reads p && c.staleSoftAt cardId reads p) =
        readsOfAll.countP fun p => c.staleSoftAt cardId reads p && c'.staleSoftAt cardId reads p :=
    List.countP_congr fun p _ => by rw [Bool.and_comm]
  have hturned : c.turned cardId reads c' = readsOfAll.countP fun p =>
      c'.staleSoftAt cardId reads p && !c.staleSoftAt cardId reads p :=
    List.countP_congr fun p _ => by rw [Bool.and_comm]
  rw [hevicted, hturned]
  unfold staleSoft
  omega

end FeatureCache

/-! ## The decision with some features stale -/

/-- The threshold with some soft features stale, in exact arithmetic. -/
def softThreshold (modelThreshold : ℚ) (staleSoft : ℕ) : ℚ := modelThreshold * (1 - staleSoft / 20)

section Verdict

variable {modelThreshold q : ℚ} {k k' : ℕ}

theorem softThreshold_nonneg (h : 0 ≤ modelThreshold) (hk : k ≤ 4) :
    0 ≤ softThreshold modelThreshold k := by
  have hk' : (k : ℚ) ≤ 4 := by exact_mod_cast hk
  exact mul_nonneg h (by linarith)

/-- More stale features lower the threshold. -/
theorem softThreshold_anti (h : 0 ≤ modelThreshold) (hk : k ≤ k') :
    softThreshold modelThreshold k' ≤ softThreshold modelThreshold k := by
  have hk' : (k : ℚ) ≤ k' := by exact_mod_cast hk
  exact mul_le_mul_of_nonneg_left (by linarith) h

/-- What the policy decides with a usable bundle. -/
theorem policyVerdict_of_usable {b : FeatureBundle} (h : b.usableForModel = true) :
    b.policyVerdict modelThreshold q = judgeIn (softThreshold modelThreshold b.staleSoft.length) q := by
  have hthreshold : thresholdIn modelThreshold (discountIn ℚ b.staleSoft.length) b.complete =
      softThreshold modelThreshold b.staleSoft.length := by
    simp only [FeatureBundle.usableForModel, Bool.and_eq_true, Bool.not_eq_true'] at h
    simp only [thresholdIn, discountIn, softThreshold, PolicyArithmetic.truthy, PolicyArithmetic.sub,
      PolicyArithmetic.mul, PolicyArithmetic.ofRat, FeatureBundle.complete, h.1, h.2]
    cases b.staleSoft with
    | nil => simp
    | cons f fs =>
      have hpos : (0 : ℚ) < (f :: fs).length := by exact_mod_cast Nat.succ_pos fs.length
      have hne : (1 / 20 * ((f :: fs).length : ℚ)) ≠ 0 := by positivity
      rw [if_pos (by simpa using hne)]
      ring
  unfold FeatureBundle.policyVerdict
  rw [hthreshold]

end Verdict

namespace Gateway

variable {V A : Type*} [VelocityCounter V]

/-- The policy of a gateway that asks the model, in exact arithmetic. -/
theorem policyVerdict_of_asks {g : Gateway V A} {cache : FeatureCache}
    (hcache : g.featureCache = some cache) {c : Circumstances} {req : Request}
    (hasks : g.AsksModel c req) (modelThreshold q : ℚ) :
    (assemble req.cardId c.cacheReads [] cache).1.policyVerdict modelThreshold q =
      judgeIn (softThreshold modelThreshold (cache.staleSoft req.cardId c.cacheReads)) q := by
  have husable := hasks.2.1.2
  rw [features_of_cache hcache] at husable
  have hdown : (assemble req.cardId c.cacheReads [] cache).1.cacheDown = false := by
    simp only [FeatureBundle.toFeatures, FeatureBundle.usableForModel, Bool.and_eq_true,
      Bool.not_eq_true'] at husable
    exact husable.2
  rw [policyVerdict_of_usable husable]
  congr 2
  unfold assemble at hdown ⊢
  rw [assembleLoop_staleSoft _ hdown, List.nil_append, List.length_map, ← List.countP_eq_length_filter]
  rfl

/-- **When knowing less is no more lenient.** Two gateways that differ in their feature caches ask
the model and get the same score; the soft entries of the second cache are older or gone. In exact
arithmetic the second decision is at least as strict as the first exactly when no more stale entries
are gone than have turned stale, or when the score is in neither of the two bands between the lower
and the higher threshold, and between their review floors. -/
theorem no_more_lenient_iff (g : Gateway V A) {cache cache' : FeatureCache} {c : Circumstances}
    {req : Request} (hfades : cache.FadesTo req.cardId cache') {modelThreshold : ℚ}
    (hthreshold : 0 ≤ modelThreshold) (q : ℚ)
    (hasks : { g with featureCache := some cache }.AsksModel c req)
    (hasks' : { g with featureCache := some cache' }.AsksModel c req) :
    ((assemble req.cardId c.cacheReads [] cache).1.policyVerdict modelThreshold q).strictness ≤
        ((assemble req.cardId c.cacheReads [] cache').1.policyVerdict modelThreshold q).strictness ↔
      cache.evicted req.cardId c.cacheReads cache' ≤ cache.turned req.cardId c.cacheReads cache' ∨
        (let t := softThreshold modelThreshold (cache.staleSoft req.cardId c.cacheReads)
         let t' := softThreshold modelThreshold (cache'.staleSoft req.cardId c.cacheReads)
         ¬ (t * (4 / 5) ≤ q ∧ q < t' * (4 / 5)) ∧ ¬ (t ≤ q ∧ q < t')) := by
  have hpos (cache : FeatureCache) :
      0 ≤ softThreshold modelThreshold (cache.staleSoft req.cardId c.cacheReads) :=
    softThreshold_nonneg hthreshold FeatureCache.staleSoft_le
  rw [policyVerdict_of_asks rfl hasks, policyVerdict_of_asks rfl hasks',
    strictness_judge (hpos cache) (hpos cache')]
  refine (or_iff_right_of_imp fun hle => ?_).symm
  -- no fewer features are stale, so both bands are empty
  have hanti := softThreshold_anti hthreshold ((FeatureCache.staleSoft_le_iff hfades).mpr hle)
  constructor <;>
  · rintro ⟨h₁, h₂⟩
    linarith

/-! ### A stale entry that is evicted -/

/-- A cache with a fresh velocity and a stale tenure. -/
def staleTenureCache : FeatureCache where
  entries := [(FeatureCache.entryKey [] "velocity_24h", ⟨.ofInt 3, 0⟩),
    (FeatureCache.entryKey [] "card_tenure_days", ⟨.ofInt 900, -4000⟩)]

/-- Every read at time `10`. -/
def tenureCircumstances : Circumstances :=
  { (idleCall [] 100 1).circumstances with cacheReads := fun _ => { now := 10 } }

theorem asks_staleTenureCache : Gateway.AsksModel
    { inProcess {} with featureCache := some staleTenureCache } tenureCircumstances
    (idleCall [] 100 1).request :=
  ⟨by decide +kernel, by decide +kernel, by decide +kernel⟩

theorem asks_velocityCache : Gateway.AsksModel
    { inProcess {} with featureCache := some velocityCache } tenureCircumstances
    (idleCall [] 100 1).request :=
  ⟨by decide +kernel, by decide +kernel, by decide +kernel⟩

/-- The stale tenure is removed. -/
theorem fadesTo_velocityCache : staleTenureCache.FadesTo [] velocityCache := by
  refine ⟨rfl, fun f => ?_⟩
  split
  · intro e' he'
    refine ⟨e', ?_, rfl, le_rfl⟩
    simp only [velocityCache, Dict.get?] at he'
    split at he'
    · rename_i hkey
      simp only [staleTenureCache, Dict.get?]
      rw [if_pos hkey, he']
    · cases he'
  · rename_i hsoft
    rcases policyOf_cases f with hmem | hdefault
    · simp only [featurePolicy, List.mem_cons, Prod.mk.injEq, List.not_mem_nil, or_false] at hmem
      rcases hmem with ⟨rfl, -⟩ | ⟨rfl, -⟩ | ⟨rfl, -⟩ | ⟨rfl, -⟩
      · rfl
      · exact absurd rfl hsoft
      · exact absurd rfl hsoft
      · rfl
    · exact absurd (by rw [hdefault]) hsoft

/-- Without the stale tenure a score of `0.58` is approved, with it the request is reviewed. -/
theorem evicted_more_lenient :
    ¬ ∀ (g : Gateway SafeCounter AuditLog) (cache cache' : FeatureCache) (c : Circumstances)
      (req : Request) (modelThreshold q : ℚ), cache.FadesTo req.cardId cache' → 0 ≤ modelThreshold →
      { g with featureCache := some cache }.AsksModel c req →
      { g with featureCache := some cache' }.AsksModel c req →
      ((assemble req.cardId c.cacheReads [] cache).1.policyVerdict modelThreshold q).strictness ≤
        ((assemble req.cardId c.cacheReads [] cache').1.policyVerdict modelThreshold q).strictness := by
  intro h
  have hle := h (inProcess {}) staleTenureCache velocityCache tenureCircumstances
    (idleCall [] 100 1).request (3 / 4) (58 / 100) fadesTo_velocityCache (by norm_num)
    asks_staleTenureCache asks_velocityCache
  revert hle
  decide +kernel

/-- A score of `0.5` is in neither band. -/
theorem no_more_lenient_iff_low :
    ((assemble [] tenureCircumstances.cacheReads [] staleTenureCache).1.policyVerdict
        (3 / 4) (1 / 2 : ℚ)).strictness ≤
      ((assemble [] tenureCircumstances.cacheReads [] velocityCache).1.policyVerdict
        (3 / 4) (1 / 2 : ℚ)).strictness :=
  (no_more_lenient_iff (inProcess {}) fadesTo_velocityCache (by norm_num) (1 / 2)
    asks_staleTenureCache asks_velocityCache).mpr (.inr (by decide +kernel))

end Gateway
