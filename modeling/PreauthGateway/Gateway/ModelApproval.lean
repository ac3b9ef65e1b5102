import PreauthGateway.Gateway.Leniency

/-!
# Approvals by the model

A score comes from another process, through `float`, and may be not-a-number. Such a score is
neither at the threshold nor in the review band, and what is left is the default, an approval. The
same holds of a threshold that is not a number, as an infinite one less its discount.

## Main definitions

* `Gateway.reviewFloor`: the review floor of a call
* `Gateway.NumericThreshold`: the threshold of a call is a number

## Main results

* `judge_approve_iff`: an approved score is below the review floor, unless something is not a number
* `Gateway.threshold_ne_nan_iff`: when the threshold is a number
* `Gateway.approve_below_floor_iff`: **when an approval by the model has a score below the floor**
-/

/-- The double below one that four fifths are written as. -/
theorem ofRat_four_fifths :
    PyFloat.ofRat (4 / 5) = .num (Double.finite (3602879701896397 / 4503599627370496)) := by
  decide +kernel

namespace PyFloat

@[simp] theorem nan_mul (y : PyFloat) : nan.mul y = .nan := rfl

@[simp] theorem nan_sub (y : PyFloat) : nan.sub y = .nan := rfl

theorem sub_nan (x : PyFloat) : x.sub .nan = .nan := by cases x <;> rfl

/-- Four fifths of a number are a number. -/
theorem mul_four_fifths_eq_nan {x : PyFloat} : x.mul (.ofRat (4 / 5)) = .nan ↔ x = .nan := by
  rw [ofRat_four_fifths]
  match x with
  | .nan => simp
  | .num none => simp [mul, mulDouble, sign, Double.finite]
  | .num (some none) => simp [mul, mulDouble, sign, Double.finite]
  | .num (some (some q)) => simp [mul, mulDouble, ofRat, Double.finite]

end PyFloat

/-- **An approved score is below the review floor, unless something is not a number.** -/
theorem judge_approve_iff {t x : PyFloat} :
    (judge t x = .approve → x.Lt (t.mul (.ofRat (4 / 5)))) ↔ x ≠ .nan ∧ t ≠ .nan := by
  rw [judge_eq_approve]
  unfold Clears
  match x, t with
  | .nan, t =>
    refine iff_of_false (fun h => ?_) fun h => h.1 rfl
    have hlt := h ⟨by cases t <;> exact id, fun h => by cases t <;> exact h.2⟩
    revert hlt
    cases t.mul (.ofRat (4 / 5)) <;> exact id
  | .num x, .nan => exact iff_of_false (fun h => h ⟨id, fun h => h.2⟩) fun h => h.2 rfl
  | .num x, .num t =>
    refine iff_of_true (fun h => ?_) ⟨by simp, by simp⟩
    obtain ⟨hbelow, hband⟩ := h
    have hlt : x < t := not_le.mp hbelow
    cases hfloor : (PyFloat.num t).mul (.ofRat (4 / 5)) with
    | nan => exact absurd (PyFloat.mul_four_fifths_eq_nan.mp hfloor) (by simp)
    | num w =>
      rw [hfloor] at hband
      exact not_le.mp fun hle => hband ⟨hle, hlt⟩

/-! ## The threshold -/

/-- The value of a finite float. -/
def PyFloat.toRat? : PyFloat → Option ℚ
  | .num (some (some q)) => some q
  | _ => none

theorem PyFloat.eq_of_toRat? {x : PyFloat} {q : ℚ} (h : x.toRat? = some q) :
    x = .num (Double.finite q) := by
  unfold toRat? at h
  split at h
  · cases h
    rfl
  · cases h

/-- The discounts of at most four stale features are finite, and zero only without one. -/
theorem exists_discount {k : ℕ} (h : k ≤ 4) :
    ∃ d : ℚ, discountIn PyFloat k = .num (Double.finite d) ∧ 0 ≤ d ∧ (d = 0 ↔ k = 0) := by
  have hall : ∀ k : Fin 5, (discountIn PyFloat k.val).toRat?.any
      (fun d => 0 ≤ d ∧ (d = 0 ↔ k.val = 0)) = true := by decide +kernel
  obtain ⟨d, hd, hk⟩ := (Option.any_eq_true _ _).mp (hall ⟨k, by omega⟩)
  exact ⟨d, PyFloat.eq_of_toRat? hd, by simpa using hk⟩

/-- A discounted threshold is a number exactly when the threshold is finite. -/
theorem discounted_ne_nan {m : PyFloat} {d : ℚ} (hd : 0 ≤ d) :
    m.sub ((PyFloat.num (Double.finite d)).mul m) ≠ .nan ↔ ∃ q, m = .num (Double.finite q) := by
  match m with
  | .nan => simp
  | .num none =>
    -- the discount is not a number, or infinite like the threshold
    refine iff_of_false (fun h => h ?_) (by rintro ⟨q, h⟩; cases h)
    rcases hd.eq_or_lt with rfl | hpos
    · simp [PyFloat.mul, PyFloat.mulDouble, PyFloat.sign, Double.finite, PyFloat.sub_nan]
    · simp [PyFloat.mul, PyFloat.mulDouble, PyFloat.sign, Double.finite, hpos, hpos.ne']
      rfl
  | .num (some none) =>
    refine iff_of_false (fun h => h ?_) (by rintro ⟨q, h⟩; cases h)
    rcases hd.eq_or_lt with rfl | hpos
    · simp [PyFloat.mul, PyFloat.mulDouble, PyFloat.sign, Double.finite, PyFloat.sub_nan]
    · simp [PyFloat.mul, PyFloat.mulDouble, PyFloat.sign, Double.finite, hpos, hpos.ne']
      rfl
  | .num (some (some q)) =>
    refine iff_of_true ?_ ⟨q, rfl⟩
    change PyFloat.addDouble (some (some q)) (PyFloat.negDouble (Double.ofRat (d * q))) ≠ .nan
    rcases Double.ofRat (d * q) with _ | _ | r
    · exact PyFloat.noConfusion
    · exact PyFloat.noConfusion
    · exact PyFloat.noConfusion

theorem thresholdIn_discounted {m discount : PyFloat} {complete : Bool}
    (h : discount.Truthy ∨ complete = true) :
    thresholdIn m discount complete = m.sub (discount.mul m) := by
  unfold thresholdIn
  by_cases ht : discount.Truthy
  · simp [PolicyArithmetic.truthy, PolicyArithmetic.sub, PolicyArithmetic.mul, ht]
  · simp [PolicyArithmetic.truthy, PolicyArithmetic.sub, PolicyArithmetic.mul, h.resolve_left ht]

namespace Gateway

variable {V A : Type*}

/-- The threshold of a request is a number: it is finite, or not discounted at all. -/
def NumericThreshold (g : Gateway V A) : Prop :=
  (∃ q, g.modelThreshold = .num (Double.finite q)) ∨
    (g.modelThreshold ≠ .nan ∧ g.featureCache = none ∧ g.featureCacheUp = false)

variable [VelocityCounter V]

/-- The threshold of a call. -/
def threshold (g : Gateway V A) (c : Circumstances) (req : Request) : PyFloat :=
  (effectiveThreshold g.modelThreshold (g.answers c req).features).1

/-- `review_floor` of a call. -/
def reviewFloor (g : Gateway V A) (c : Circumstances) (req : Request) : PyFloat :=
  (g.threshold c req).mul (.ofRat (4 / 5))

/-- The discount of a usable bundle, and when there is one. -/
theorem exists_discount_of_usable {cardId : PyStr} {reads : ℕ → CacheRead} {cache : FeatureCache}
    (h : (assemble cardId reads [] cache).1.usableForModel = true) :
    ∃ d : ℚ, (assemble cardId reads [] cache).1.confidenceDiscount = .num (Double.finite d) ∧ 0 ≤ d ∧
      (d ≠ 0 ∨ (assemble cardId reads [] cache).1.complete = true) := by
  simp only [FeatureBundle.usableForModel, Bool.and_eq_true, Bool.not_eq_true'] at h
  obtain ⟨hmissing, hdown⟩ := h
  have hlen : (assemble cardId reads [] cache).1.staleSoft.length ≤ 4 := by
    unfold assemble at hdown ⊢
    rw [assembleLoop_staleSoft _ hdown, List.nil_append, List.length_map]
    exact List.length_filter_le _ _
  obtain ⟨d, hd, hpos, hzero⟩ := exists_discount hlen
  refine ⟨d, by rw [confidenceDiscount_eq, hd], hpos, ?_⟩
  by_cases h0 : d = 0
  · right
    simp [FeatureBundle.complete, hmissing, hdown, List.length_eq_zero_iff.mp (hzero.mp h0)]
  · exact .inl h0

/-- **When the threshold of a request is a number.** -/
theorem threshold_ne_nan_iff {g : Gateway V A} {c : Circumstances} {req : Request}
    (h : (g.answers c req).features.usable = true) :
    g.threshold c req ≠ .nan ↔ g.NumericThreshold := by
  have hzero : PyFloat.ofInt 0 = .num (Double.finite 0) := by decide +kernel
  unfold threshold NumericThreshold
  rw [effectiveThreshold_fst]
  cases hcache : g.featureCache with
  | some cache =>
    rw [features_of_cache hcache] at h ⊢
    obtain ⟨d, hd, hpos, hused⟩ := exists_discount_of_usable h
    have htruthy : (assemble req.cardId c.cacheReads [] cache).1.toFeatures.discount.Truthy ∨
        (assemble req.cardId c.cacheReads [] cache).1.toFeatures.complete = true := by
      refine hused.imp_left fun hne => ?_
      change FeatureBundle.confidenceDiscount _ ≠ _
      rw [hd]
      intro heq
      cases heq
      exact hne rfl
    rw [thresholdIn_discounted htruthy]
    change _ ≠ PyFloat.nan ↔ _
    have hdiscount : (assemble req.cardId c.cacheReads [] cache).1.toFeatures.discount =
        .num (Double.finite d) := hd
    rw [hdiscount, discounted_ne_nan hpos]
    simp
  | none =>
    have hfeatures : (g.answers c req).features =
        { reasons := if g.featureCacheUp then [] else [.featuresPartial], discount := .ofInt 0,
          usable := true, complete := g.featureCacheUp } := by
      change (g.assembleFeatures c req).1 = _
      unfold assembleFeatures
      rw [hcache]
      cases g.featureCacheUp <;> rfl
    rw [hfeatures]
    cases hup : g.featureCacheUp with
    | true =>
      rw [thresholdIn_discounted (.inr rfl), hzero, discounted_ne_nan le_rfl]
      simp
    | false =>
      have htightened : thresholdIn g.modelThreshold (PyFloat.ofInt 0) false =
          g.modelThreshold.mul (.ofRat (4 / 5)) := by
        rw [hzero]
        rfl
      rw [htightened, Ne, PyFloat.mul_four_fifths_eq_nan]
      constructor
      · exact fun hne => .inr ⟨hne, rfl, rfl⟩
      · rintro (⟨q, hq⟩ | ⟨hne, -⟩)
        · rw [hq]
          exact PyFloat.noConfusion
        · exact hne

end Gateway

namespace Gateway

variable {V A : Type*} [VelocityCounter V] [AuditSink A]

/-- **When an approval by the model has a score below the review floor**: unless the model is asked
and its score, or the threshold, is not a number. -/
theorem approve_below_floor_iff (g : Gateway V A) (c : Circumstances) (req : Request) :
    ((g.decide c req).1.decision = .approve → (g.decide c req).1.source = .model →
      ∃ x, (g.decide c req).1.score = some x ∧ x.value.Lt (g.reviewFloor c req)) ↔
    (g.AsksModel c req → ∀ x, c.score req = some x → x.value ≠ .nan ∧ g.NumericThreshold) := by
  by_cases hmodel : g.AsksModel c req ∧ ∃ x, c.score req = some x
  swap
  · refine iff_of_true (fun _ h => absurd (asks_of_source h) hmodel) fun hasks x hx => ?_
    exact absurd ⟨hasks, x, hx⟩ hmodel
  obtain ⟨hasks, x, hx⟩ := hmodel
  obtain ⟨hsource, hscore, hdecision⟩ := decide_of_asks hasks hx
  have happrove := judge_approve_iff (t := g.threshold c req) (x := x.value)
  rw [threshold_ne_nan_iff hasks.2.1.2] at happrove
  rw [hdecision, hsource, hscore, hx]
  constructor
  · intro h _ y hy
    cases hy
    refine happrove.mp fun ha => ?_
    obtain ⟨y, hy, hlt⟩ := h ha rfl
    cases hy
    exact hlt
  · intro h ha _
    exact ⟨x, rfl, happrove.mpr (h hasks x rfl) ha⟩

/-- A score that is not a number. -/
def nanScore : Score := ⟨"NaN".toList, by decide +kernel⟩

/-- A model that answers with it. -/
def nanCircumstances : Circumstances :=
  { (idleCall [] 100 1).circumstances with score := fun _ => some nanScore }

/-- It is approved. -/
theorem nan_approved :
    ¬ ∀ (g : Gateway SafeCounter AuditLog) (c : Circumstances) (req : Request),
      (g.decide c req).1.decision = .approve → (g.decide c req).1.source = .model →
        ∃ x, (g.decide c req).1.score = some x ∧ x.value.Lt (g.reviewFloor c req) := by
  intro h
  have hscore : ((inProcess {}).decide nanCircumstances (idleCall [] 100 1).request).1.score =
      some nanScore := by decide +kernel
  obtain ⟨x, hx, hlt⟩ := h (inProcess {}) nanCircumstances (idleCall [] 100 1).request
    (by decide +kernel) (by decide +kernel)
  rw [hscore] at hx
  cases hx
  have hnan : nanScore.value = .nan := by decide +kernel
  rw [hnan] at hlt
  revert hlt
  cases (inProcess {}).reviewFloor nanCircumstances (idleCall [] 100 1).request <;> exact id

end Gateway
