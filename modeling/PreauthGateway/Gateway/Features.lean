import PreauthGateway.Json.Value
import PreauthGateway.Number.PyFloat
import PreauthGateway.Program.Dict

/-!
# The feature cache

Each cached feature has a policy: how long it stays fresh, and what becomes of it when it is stale.
A missing or stale hard feature makes the bundle unusable for the model, a stale soft one discounts
the confidence.

The clock is an input: each read of the cache brings its own reading of `time.time`. The cache may
become unavailable before any of them.

## Main definitions

* `featurePolicy`, `FeatureCache`, `FeatureCache.put`, `FeatureCache.get`
* `CacheRead`, `FeatureBundle`, `assemble`

## Main results

* `assemble_down`: a cache that is down yields the empty bundle
-/

/-- What becomes of a stale feature. -/
inductive Freshness
  | hard
  | soft
  | static
deriving DecidableEq

/-- The policy of a feature; a time to live of `0` is no limit. -/
structure FeaturePolicy where
  ttlS : ℕ
  freshness : Freshness

/-- `FEATURE_POLICY`. -/
def featurePolicy : Dict String FeaturePolicy :=
  [("velocity_24h", ⟨30, .hard⟩), ("device_history", ⟨300, .soft⟩),
    ("card_tenure_days", ⟨3600, .soft⟩), ("merchant_risk", ⟨0, .static⟩)]

/-- `FEATURE_POLICY.get(feature, …)`: a feature without a policy is soft and lives a minute. -/
def policyOf (feature : String) : FeaturePolicy :=
  (featurePolicy.get? feature).getD ⟨60, .soft⟩

/-- `SOFT_STALE_PENALTY`. -/
def softStalePenalty : PyFloat := .ofRat (1 / 20)

structure CacheEntry where
  value : PyFloat
  writtenAt : ℚ

structure FeatureCache where
  entries : Dict PyStr CacheEntry := []
  available : Bool := true
  hits : ℕ := 0
  misses : ℕ := 0
  staleHits : ℕ := 0

namespace FeatureCache

/-- `"{}:{}".format(key, feature)`. -/
def entryKey (key : PyStr) (feature : String) : PyStr :=
  key ++ PyStr.ofString ":" ++ PyStr.ofString feature

/-- `put`, at a time `now`. -/
def put (key : PyStr) (feature : String) (value : PyFloat) (ageS now : ℚ) (c : FeatureCache) :
    FeatureCache :=
  { c with entries := c.entries.set (entryKey key feature) ⟨value, now - ageS⟩ }

/-- `get`: the value and whether it is stale; `none` is `FeatureCache.Unavailable`. -/
def get (key : PyStr) (feature : String) (now : ℚ) (c : FeatureCache) :
    Option ((Option PyFloat × Bool) × FeatureCache) :=
  if c.available then
    match c.entries.get? (entryKey key feature) with
    | none => some ((none, false), { c with misses := c.misses + 1 })
    | some entry =>
      let ttl := (policyOf feature).ttlS
      let stale : Bool := 0 < ttl ∧ (ttl : ℚ) < now - entry.writtenAt
      some ((some entry.value, stale), { c with
        hits := c.hits + 1
        staleHits := if stale then c.staleHits + 1 else c.staleHits })
  else none

theorem get_eq_none {key : PyStr} {feature : String} {now : ℚ} {c : FeatureCache} :
    c.get key feature now = none ↔ c.available = false := by
  unfold get
  cases c.available with
  | false => simp
  | true =>
    simp only [if_true]
    split <;> simp

end FeatureCache

/-- The features of a request: their values, which hard ones are missing, and which soft ones are
stale. -/
structure FeatureBundle where
  values : Dict String PyFloat := []
  missingHard : List String := []
  staleSoft : List String := []
  cacheDown : Bool := false

namespace FeatureBundle

variable (b : FeatureBundle)

/-- `complete`. -/
def complete : Bool := b.missingHard.isEmpty && b.staleSoft.isEmpty && !b.cacheDown

/-- `usable_for_model`. -/
def usableForModel : Bool := b.missingHard.isEmpty && !b.cacheDown

/-- `confidence_discount`. -/
def confidenceDiscount : PyFloat := softStalePenalty.mul (.ofInt b.staleSoft.length)

/-- What `assemble` does with one answer of the cache. -/
def add (feature : String) (value : Option PyFloat) (stale : Bool) : FeatureBundle :=
  match value with
  | none =>
    if (policyOf feature).freshness = .hard then
      { b with missingHard := b.missingHard ++ [feature] }
    else b
  | some v =>
    if stale ∧ (policyOf feature).freshness = .hard then
      { b with missingHard := b.missingHard ++ [feature] }
    else
      let b := if stale ∧ (policyOf feature).freshness = .soft then
        { b with staleSoft := b.staleSoft ++ [feature] } else b
      { b with values := b.values.set feature v }

end FeatureBundle

/-- What a read of the cache meets: the time, and whether the cache goes down before it. -/
structure CacheRead where
  now : ℚ
  goesDown : Bool := false

/-- The cache when a read begins. -/
def FeatureCache.meet (r : CacheRead) (c : FeatureCache) : FeatureCache :=
  { c with available := c.available && !r.goesDown }

/-- The loop of `assemble` over the features wanted; the reads are numbered from `n`. -/
def assembleLoop (cardId : PyStr) (reads : ℕ → CacheRead) :
    ℕ → List String → FeatureBundle → FeatureCache → FeatureBundle × FeatureCache
  | _, [], b, c => (b, c)
  | n, f :: fs, b, c =>
    match (c.meet (reads n)).get cardId f (reads n).now with
    | none => ({ b with cacheDown := true }, c.meet (reads n))
    | some ((value, stale), c) => assembleLoop cardId reads (n + 1) fs (b.add f value stale) c

/-- `wanted or list(FEATURE_POLICY)`. -/
def wantedOrAll (wanted : List String) : List String :=
  if wanted.isEmpty then featurePolicy.map Prod.fst else wanted

/-- `assemble`: without features wanted, all those that have a policy. -/
def assemble (cardId : PyStr) (reads : ℕ → CacheRead) (wanted : List String) (c : FeatureCache) :
    FeatureBundle × FeatureCache :=
  assembleLoop cardId reads 0 (wantedOrAll wanted) {} c

section Assemble

variable {cardId : PyStr} {reads : ℕ → CacheRead}

theorem FeatureCache.meet_of_down {c : FeatureCache} (h : c.available = false) (r : CacheRead) :
    c.meet r = c := by
  obtain ⟨entries, available, hits, misses, staleHits⟩ := c
  cases h
  rfl

theorem assembleLoop_down {n : ℕ} {fs : List String} (hfs : fs ≠ []) {b : FeatureBundle}
    {c : FeatureCache} (h : c.available = false) :
    assembleLoop cardId reads n fs b c = ({ b with cacheDown := true }, c) := by
  cases fs with
  | nil => exact absurd rfl hfs
  | cons f fs =>
    rw [assembleLoop, FeatureCache.meet_of_down h, FeatureCache.get_eq_none.mpr h]

/-- **A cache that is down yields the empty bundle.** -/
theorem assemble_down {wanted : List String} {c : FeatureCache} (h : c.available = false) :
    assemble cardId reads wanted c = ({ cacheDown := true }, c) := by
  refine assembleLoop_down ?_ h
  unfold wantedOrAll
  split
  · decide
  · rename_i hne
    intro he
    rw [he] at hne
    exact hne rfl

end Assemble
