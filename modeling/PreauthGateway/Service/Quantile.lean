import PreauthGateway.Number.Buckets
import PreauthGateway.Service.Metrics

/-!
# Quantiles of the histograms

The count of a bucket is the number of observations up to its bound, in a histogram and in the sums
of the counts of several. `quantile` interpolates in the first bucket whose count reaches the rank.

## Main definitions

* `Histogram.quantile`: the estimate, with the exceptions it can raise
* `Histogram.Counted`: a histogram holds the counts of a list of observations
* `Histogram.Sums`: a histogram whose counts and total are the sums of those of others

## Main results

* `Histogram.Counted.observeAll`, `Histogram.Sums.counted`: **what the counts of a bucket are**
* `Histogram.quantile_eq`: a quantile is the located point, and nothing is raised
* `Histogram.Counted.exists_bracket`, `Histogram.Counted.quantile_mono`: where quantiles lie
* `Metrics.quantile_brackets`: **the estimate lies in the bucket of the order statistic**
-/

namespace Metrics

/-- What `quantile` can raise. -/
inductive QuantileError
  | keyError
  | indexError
  | zeroDivisionError
deriving DecidableEq

namespace Histogram

/-- `x / y`. -/
def div (x y : ℚ) : Except QuantileError ℚ :=
  if y = 0 then .error .zeroDivisionError else .ok (x / y)

/-- The loop of `quantile` over the buckets that are left; `none` when it ends without a return. -/
def quantileLoop (counts : Dict ℚ ℕ) (target : ℚ) :
    List ℚ → ℚ → ℕ → Except QuantileError (Option ℚ)
  | [], _, _ => .ok none
  | b :: bs, prevB, prevC =>
    match counts.get? b with
    | none => .error .keyError
    | some c =>
      if target ≤ c then
        if c = prevC then .ok (some b)
        else do
          let frac ← div (target - prevC) (c - prevC)
          return some (prevB + frac * (b - prevB))
      else quantileLoop counts target bs b c

/-- `quantile`. -/
def quantile (q : ℚ) (h : Histogram) : Except QuantileError ℚ :=
  if h.total = 0 then .ok 0
  else do
    match ← quantileLoop h.counts (q * h.total) h.buckets 0 0 with
    | some v => return v
    | none =>
      match h.buckets.getLast? with
      | some b => return b
      | none => .error .indexError

/-! ## What the counts are -/

/-- The counts are those of a list of observations. -/
structure Counted (h : Histogram) (values : List ℚ) : Prop where
  total : h.total = values.length
  counts : ∀ b ∈ h.buckets, h.counts.get? b = some (values.countP (· ≤ b))

theorem get?_zeros {buckets : List ℚ} {b : ℚ} (hb : b ∈ buckets) :
    Dict.get? b (buckets.map fun b => (b, 0)) = some 0 := by
  induction buckets with
  | nil => cases hb
  | cons c buckets ih =>
    by_cases hcb : c = b
    · rw [List.map_cons, Dict.get?, if_pos hcb]
    · rw [List.map_cons, Dict.get?_cons_of_ne _ hcb]
      exact ih (List.mem_of_ne_of_mem (Ne.symm hcb) hb)

theorem counted_withBuckets (helpText : String) (buckets : List ℚ) :
    (withBuckets helpText buckets).Counted [] where
  total := rfl
  counts _ hb := get?_zeros hb

/-- The counts after the bucket of `c`. -/
def bumpOne (value c : ℚ) (counts : Dict ℚ ℕ) : Dict ℚ ℕ :=
  if value ≤ c then counts.update c 0 (· + 1) else counts

theorem get?_bumpOne_self {value c : ℚ} {counts : Dict ℚ ℕ} {n : ℕ} (h : counts.get? c = some n) :
    (bumpOne value c counts).get? c = some (n + if value ≤ c then 1 else 0) := by
  unfold bumpOne
  split_ifs
  · rw [Dict.get?_update_self, h, Option.getD_some]
  · exact h

theorem get?_bumpOne_of_ne {value b c : ℚ} (h : b ≠ c) (counts : Dict ℚ ℕ) :
    (bumpOne value c counts).get? b = counts.get? b := by
  unfold bumpOne
  split_ifs
  · exact Dict.get?_update_of_ne h
  · rfl

theorem get?_bump_of_notMem {value b : ℚ} {buckets : List ℚ} (hb : b ∉ buckets)
    (counts : Dict ℚ ℕ) : (bump value buckets counts).get? b = counts.get? b := by
  induction buckets generalizing counts with
  | nil => rfl
  | cons c bs ih =>
    obtain ⟨hc, hbs⟩ := not_or.mp (mt List.mem_cons.mpr hb)
    exact (ih hbs _).trans (get?_bumpOne_of_ne hc counts)

/-- What an observation adds to the count of a bucket. -/
theorem get?_bump {value b : ℚ} {buckets : List ℚ} (hnodup : buckets.Nodup) (hb : b ∈ buckets)
    {counts : Dict ℚ ℕ} {n : ℕ} (h : counts.get? b = some n) :
    (bump value buckets counts).get? b = some (n + if value ≤ b then 1 else 0) := by
  induction buckets generalizing counts with
  | nil => cases hb
  | cons c bs ih =>
    obtain ⟨hc, hbs⟩ := List.nodup_cons.mp hnodup
    by_cases hbc : b = c
    · subst hbc
      exact (get?_bump_of_notMem hc _).trans (get?_bumpOne_self h)
    · exact ih hbs (List.mem_of_ne_of_mem hbc hb) ((get?_bumpOne_of_ne hbc counts).trans h)

theorem Counted.observe {h : Histogram} {values : List ℚ} (hc : h.Counted values)
    (hnodup : h.buckets.Nodup) (value : ℚ) : (h.observe value).Counted (values ++ [value]) where
  total := by simp [hc.total]
  counts b hb := by
    rw [List.countP_append, List.countP_singleton]
    simpa using! get?_bump hnodup hb (hc.counts b hb)

theorem buckets_observeAll (values : List ℚ) (h : Histogram) :
    (h.observeAll values).buckets = h.buckets := by
  induction values generalizing h with
  | nil => rfl
  | cons v vs ih => exact ih (h.observe v)

/-- **The count of a bucket is the number of observations up to its bound.** -/
theorem Counted.observeAll {h : Histogram} {values : List ℚ} (hc : h.Counted values)
    (hnodup : h.buckets.Nodup) (more : List ℚ) :
    (h.observeAll more).Counted (values ++ more) := by
  induction more generalizing h values with
  | nil => rwa [List.append_nil]
  | cons v vs ih =>
    have hrun := ih (hc.observe hnodup v) hnodup
    rwa [List.append_assoc, List.singleton_append] at hrun

/-- The counts and the total are the sums of those of other histograms. -/
structure Sums (parts : List Histogram) (h : Histogram) : Prop where
  total : h.total = (parts.map Histogram.total).sum
  counts : ∀ b ∈ h.buckets,
    h.counts.get? b = some (parts.map fun g => (g.counts.get? b).getD 0).sum

/-- **The sums count the observations of all.** -/
theorem Sums.counted {parts : List Histogram} {h : Histogram} (hs : Sums parts h)
    {vss : List (List ℚ)}
    (hparts : List.Forall₂ (fun g vs => g.buckets = h.buckets ∧ g.Counted vs) parts vss) :
    h.Counted vss.flatten where
  total := by
    rw [hs.total, List.length_flatten]
    congr 1
    clear hs
    induction hparts with
    | nil => rfl
    | cons hg _ ih => rw [List.map_cons, List.map_cons, hg.2.total, ih]
  counts b hb := by
    rw [hs.counts b hb, List.countP_flatten]
    congr 2
    clear hs
    induction hparts with
    | nil => rfl
    | cons hg _ ih =>
      rw [List.map_cons, List.map_cons, hg.2.counts b (hg.1 ▸ hb), Option.getD_some, ih]

/-! ## The located point -/

theorem quantileLoop_eq {counts : Dict ℚ ℕ} {N : ℚ → ℕ} {target : ℚ} {bs : List ℚ}
    (h : ∀ b ∈ bs, counts.get? b = some (N b)) (prevB : ℚ) (prevC : ℕ) :
    quantileLoop counts target bs prevB prevC = .ok (Buckets.locate N target bs prevB prevC) := by
  induction bs generalizing prevB prevC with
  | nil => rfl
  | cons b bs ih =>
    rw [quantileLoop, h b List.mem_cons_self, Buckets.locate]
    dsimp only
    split_ifs with ht hc
    · rfl
    · -- the counts differ, so nothing is divided by zero
      have hd : (N b : ℚ) - prevC ≠ 0 := sub_ne_zero.mpr (by exact_mod_cast hc)
      rw [div, if_neg hd]
      rfl
    · exact ih (fun p hp => h p (List.mem_cons_of_mem _ hp)) b (N b)

/-- **A quantile is the point located by the counts, or the last bound.** -/
theorem quantile_eq {h : Histogram} {values : List ℚ} (hc : h.Counted values) (hne : values ≠ [])
    {last : ℚ} (hlast : h.buckets.getLast? = some last) (q : ℚ) :
    h.quantile q = .ok ((Buckets.locate (fun b => values.countP (· ≤ b)) (q * values.length)
      h.buckets 0 0).getD last) := by
  have htotal : h.total ≠ 0 := by
    rw [hc.total]
    exact (List.length_pos_iff.mpr hne).ne'
  rw [quantile, if_neg htotal, quantileLoop_eq hc.counts, hc.total]
  cases Buckets.locate (fun b => values.countP (· ≤ b)) (q * values.length) h.buckets 0 0 with
  | some v => rfl
  | none => simp [hlast, bind, Except.bind, pure, Except.pure]

/-! ## The bucket of the order statistic -/

section Bracket

variable {h : Histogram} {values : List ℚ} {last : ℚ}

/-- **A quantile lies in the bucket of the observation of its rank**, or is the last bound when that
is above it. -/
theorem Counted.exists_bracket (hc : h.Counted values) (hinc : (0 :: h.buckets).Pairwise (· < ·))
    (hlast : h.buckets.getLast? = some last) (hnonneg : ∀ v ∈ values, 0 ≤ v) (hne : values ≠ [])
    {q : ℚ} (hq : 0 < q) (hq1 : q ≤ 1) :
    ∃ v x, h.quantile q = .ok v ∧ Rank.nth? values (⌈q * values.length⌉₊ - 1) = some x ∧
      (Buckets.SameBucket h.buckets x v ∨ last < x ∧ v = last) := by
  have hlength : (0 : ℚ) < values.length := by exact_mod_cast List.length_pos_iff.mpr hne
  have ht : 0 < q * values.length := mul_pos hq hlength
  have hk : ⌈q * values.length⌉₊ ≤ values.length := by
    rw [Nat.ceil_le]
    exact mul_le_of_le_one_left hlength.le hq1
  have hk0 : 0 < ⌈q * (values.length : ℚ)⌉₊ := Nat.ceil_pos.mpr ht
  obtain ⟨x, hx⟩ := Rank.exists_nth? (l := values) (k := ⌈q * values.length⌉₊ - 1) (by omega)
  refine ⟨_, x, quantile_eq hc hne hlast q, hx, ?_⟩
  cases hv : Buckets.locate (fun b => values.countP (· ≤ b)) (q * values.length) h.buckets 0 0 with
  | some v =>
    exact .inl (Buckets.sameBucket_locate hinc ht hx (hnonneg x (Rank.mem_of_nth? hx)) hv)
  | none =>
    -- no bucket reaches the rank, so the observation is above them all
    exact .inr ⟨Buckets.lt_of_locate_eq_none ht hx hv last (List.mem_of_getLast? hlast), rfl⟩

/-- **Quantiles are in order.** -/
theorem Counted.quantile_mono (hc : h.Counted values) (hinc : (0 :: h.buckets).Pairwise (· < ·))
    (hlast : h.buckets.getLast? = some last) (hne : values ≠ []) {q r : ℚ} (hqr : q ≤ r) :
    ∃ v w, h.quantile q = .ok v ∧ h.quantile r = .ok w ∧ v ≤ w := by
  refine ⟨_, _, quantile_eq hc hne hlast q, quantile_eq hc hne hlast r, ?_⟩
  apply Buckets.locate_mono hinc (fun _ => Buckets.le_of_getLast? hinc.of_cons hlast)
    (Rank.countP_le_mono values) (fun _ _ => Nat.zero_le _)
  gcongr

end Bracket

theorem Sums.counted_runs {buckets : List ℚ} (hnodup : buckets.Nodup)
    {runs : List (String × List ℚ)} {h : Histogram} (hb : h.buckets = buckets)
    (hs : h.Sums (runs.map fun r => (withBuckets r.1 buckets).observeAll r.2)) :
    h.Counted (runs.map Prod.snd).flatten := by
  apply hs.counted
  rw [List.forall₂_map_left_iff, List.forall₂_map_right_iff, List.forall₂_same]
  intro r _
  exact ⟨(buckets_observeAll _ _).trans hb.symm,
    (counted_withBuckets r.1 buckets).observeAll hnodup r.2⟩

end Histogram

/-- **Of observations made by any number of histograms, a quantile of the sums lies in the bucket of
the observation of its rank**, or is the last bound when that is above it; and quantiles are in
order. -/
theorem quantile_brackets {buckets : List ℚ} (hinc : buckets.Pairwise (· < ·))
    (hpos : ∀ b ∈ buckets, 0 < b) {last : ℚ} (hlast : buckets.getLast? = some last)
    {runs : List (String × List ℚ)} (hnonneg : ∀ r ∈ runs, ∀ v ∈ r.2, 0 ≤ v)
    {values : List ℚ} (hvalues : values = (runs.map Prod.snd).flatten) (hne : values ≠ [])
    {h : Histogram} (hb : h.buckets = buckets)
    (hsums : h.Sums (runs.map fun r => (Histogram.withBuckets r.1 buckets).observeAll r.2)) :
    (∀ q : ℚ, 0 < q → q ≤ 1 → ∃ v x, h.quantile q = .ok v ∧
      Rank.nth? values (⌈q * values.length⌉₊ - 1) = some x ∧
      (Buckets.SameBucket buckets x v ∨ last < x ∧ v = last)) ∧
    ∀ q r : ℚ, q ≤ r → ∃ v w, h.quantile q = .ok v ∧ h.quantile r = .ok w ∧ v ≤ w := by
  have hinc' : (0 :: buckets).Pairwise (· < ·) := List.pairwise_cons.mpr ⟨hpos, hinc⟩
  have hcounted : h.Counted values := hvalues ▸ hsums.counted_runs (hinc.imp ne_of_lt) hb
  have hpooled : ∀ v ∈ values, 0 ≤ v := by
    intro v hv
    rw [hvalues] at hv
    obtain ⟨vs, hvs, hv⟩ := List.mem_flatten.mp hv
    obtain ⟨r, hr, rfl⟩ := List.mem_map.mp hvs
    exact hnonneg r hr v hv
  subst hb
  exact ⟨fun q hq hq1 => hcounted.exists_bracket hinc' hlast hpooled hne hq hq1,
    fun q r hqr => hcounted.quantile_mono hinc' hlast hne hqr⟩

/-- Three observations of two histograms, one of them above the last bound. -/
theorem quantile_brackets_three :
    let buckets : List ℚ := [1, 2, 5]
    let values : List ℚ := [1 / 2, 3, 7]
    let h : Histogram :=
      { helpText := "sums", buckets, counts := [(1, 1), (2, 1), (5, 2)], total := 3 }
    (∀ q : ℚ, 0 < q → q ≤ 1 → ∃ v x, h.quantile q = .ok v ∧
      Rank.nth? values (⌈q * values.length⌉₊ - 1) = some x ∧
      (Buckets.SameBucket buckets x v ∨ 5 < x ∧ v = 5)) ∧
    ∀ q r : ℚ, q ≤ r → ∃ v w, h.quantile q = .ok v ∧ h.quantile r = .ok w ∧ v ≤ w := by
  intro buckets values h
  let runs : List (String × List ℚ) := [("one", [1 / 2, 3]), ("two", [7])]
  have hnonneg : ∀ r ∈ runs, ∀ v ∈ r.2, 0 ≤ v := by decide +kernel
  have hsums : h.Sums (runs.map fun r => (Histogram.withBuckets r.1 buckets).observeAll r.2) :=
    ⟨by decide +kernel, by decide +kernel⟩
  exact quantile_brackets (by decide +kernel) (by decide +kernel) rfl hnonneg rfl (by decide) rfl
    hsums

end Metrics
