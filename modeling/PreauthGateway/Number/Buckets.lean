import PreauthGateway.Number.Rank

/-!
# Quantiles of bucketed data

Of data only the number of elements up to each of a list of bounds is known. An element of a given
rank is then known to lie between two bounds, and an estimate that interpolates between them lies
there too.

## Main definitions

* `Buckets.locate`: the first bucket whose count reaches a rank, and the point that interpolates in
  it
* `Buckets.SameBucket`: two elements between the same bounds

## Main results

* `Buckets.locate_eq_some`: where the point lies
* `Buckets.locate_mono`: **a larger rank has no smaller point**
* `Buckets.sameBucket_locate`: **the point lies in the bucket of the element of the rank**
-/

namespace Buckets

variable {K : Type*} [Field K] [LinearOrder K] [IsStrictOrderedRing K]

/-! ## The bucket of a rank -/

/-- The point of a bucket that holds the elements after the first `c` up to the first `d`. -/
def interpolate (t lower upper : K) (c d : ℕ) : K :=
  lower + (t - c) / (d - c) * (upper - lower)

/-- The first bucket whose count reaches a rank, and the point of the rank in it. -/
def locate (N : K → ℕ) (t : K) : List K → K → ℕ → Option K
  | [], _, _ => none
  | b :: bs, lower, c =>
    if t ≤ N b then some (if N b = c then b else interpolate t lower b c (N b))
    else locate N t bs b (N b)

section Interpolate

variable {t u lower upper : K} {c d : ℕ}

theorem interpolate_le (hb : lower < upper) (hcd : c < d) (h : t ≤ d) :
    interpolate t lower upper c d ≤ upper := by
  have hd : (0 : K) < d - c := sub_pos.mpr (by exact_mod_cast hcd)
  have hfrac : (t - c) / (d - c) ≤ 1 := (div_le_one hd).mpr (by linarith)
  calc interpolate t lower upper c d
      ≤ lower + 1 * (upper - lower) := by
        unfold interpolate
        gcongr
    _ = upper := by ring

theorem lt_interpolate (hb : lower < upper) (hcd : c < d) (h : c < t) :
    lower < interpolate t lower upper c d := by
  have hd : (0 : K) < d - c := sub_pos.mpr (by exact_mod_cast hcd)
  have hfrac : 0 < (t - c) / (d - c) := div_pos (by linarith) hd
  have := mul_pos hfrac (sub_pos.mpr hb)
  unfold interpolate
  linarith

theorem interpolate_mono (hb : lower < upper) (hcd : c < d) (h : t ≤ u) :
    interpolate t lower upper c d ≤ interpolate u lower upper c d := by
  have hd : (0 : K) < d - c := sub_pos.mpr (by exact_mod_cast hcd)
  have hw : 0 ≤ upper - lower := by linarith
  unfold interpolate
  gcongr

end Interpolate

section Locate

variable {N : K → ℕ} {t u lower v : K} {c : ℕ} {bs : List K}

/-- **Where the point of a rank lies.** -/
theorem locate_eq_some (hinc : (lower :: bs).Pairwise (· < ·)) (hc : c < t)
    (h : locate N t bs lower c = some v) :
    ∃ pre b post, bs = pre ++ b :: post ∧ (∀ p ∈ pre, N p < t) ∧ t ≤ N b ∧
      pre.getLast?.getD lower < v ∧ v ≤ b := by
  induction bs generalizing lower c with
  | nil => cases h
  | cons b bs ih =>
    obtain ⟨hlower, hbs⟩ := List.pairwise_cons.mp hinc
    have hb : lower < b := hlower b List.mem_cons_self
    rw [locate] at h
    split_ifs at h with ht hNc
    · -- the count of the bucket before is below the rank, so this one is larger
      exact absurd (hNc ▸ ht) (not_le.mpr hc)
    · cases h
      have hcN : c < N b := by exact_mod_cast hc.trans_le ht
      exact ⟨[], b, bs, rfl, by simp, ht, lt_interpolate hb hcN hc, interpolate_le hb hcN ht⟩
    · obtain ⟨pre, b', post, rfl, hpre, ht', hv, hvb⟩ := ih hbs (not_le.mp ht) h
      refine ⟨b :: pre, b', post, rfl, ?_, ht', ?_, hvb⟩
      · rintro p (_ | ⟨_, hp⟩)
        · exact not_le.mp ht
        · exact hpre p hp
      · rwa [List.getLast?_cons, Option.getD_some]

omit [IsStrictOrderedRing K] in
/-- A rank without a bucket is above all counts. -/
theorem locate_eq_none (h : locate N t bs lower c = none) : ∀ b ∈ bs, N b < t := by
  induction bs generalizing lower c with
  | nil => simp
  | cons b bs ih =>
    rw [locate] at h
    split_ifs at h with ht
    rintro p (_ | ⟨_, hp⟩)
    · exact not_le.mp ht
    · exact ih h p hp

theorem lt_of_locate (hinc : (lower :: bs).Pairwise (· < ·)) (hc : c < t)
    (h : locate N t bs lower c = some v) : lower < v := by
  obtain ⟨pre, b, post, rfl, -, -, hv, -⟩ := locate_eq_some hinc hc h
  have hle : lower ≤ pre.getLast?.getD lower := by
    cases hp : pre.getLast? with
    | none => exact le_rfl
    | some p =>
      have hmem : p ∈ pre ++ b :: post := List.mem_append_left _ (List.mem_of_getLast? hp)
      exact ((List.pairwise_cons.mp hinc).1 p hmem).le
  exact hle.trans_lt hv

/-- **A larger rank has no smaller point**, when a rank that no bucket reaches has one above the
bounds. -/
theorem locate_mono {top : K} (hinc : (lower :: bs).Pairwise (· < ·)) (htop : ∀ b ∈ bs, b ≤ top)
    (hN : Monotone N) (hc : ∀ b ∈ bs, c ≤ N b) (htu : t ≤ u) :
    (locate N t bs lower c).getD top ≤ (locate N u bs lower c).getD top := by
  induction bs generalizing lower c with
  | nil => exact le_rfl
  | cons b bs ih =>
    obtain ⟨hlower, hbs⟩ := List.pairwise_cons.mp hinc
    have hb : lower < b := hlower b List.mem_cons_self
    have hcb : c ≤ N b := hc b List.mem_cons_self
    have hpoint : t ≤ N b → (if N b = c then b else interpolate t lower b c (N b)) ≤ b := by
      intro ht
      split_ifs with hNc
      · exact le_rfl
      · exact interpolate_le hb (by omega) ht
    by_cases hu : u ≤ N b
    · rw [locate, locate, if_pos hu, if_pos (htu.trans hu), Option.getD_some, Option.getD_some]
      split_ifs with hNc
      · exact le_rfl
      · exact interpolate_mono hb (by omega) htu
    · rw [locate, locate, if_neg hu]
      by_cases ht : t ≤ N b
      · rw [if_pos ht, Option.getD_some]
        refine (hpoint ht).trans ?_
        cases hl : locate N u bs b (N b) with
        | none => exact htop b List.mem_cons_self
        | some w => exact (lt_of_locate hbs (not_le.mp hu) hl).le
      · rw [if_neg ht]
        have hbs' := (List.pairwise_cons.mp hbs).1
        exact ih hbs (fun p hp => htop p (List.mem_cons_of_mem _ hp))
          fun p hp => hN (hbs' p hp).le

end Locate

omit [Field K] [IsStrictOrderedRing K] in
/-- The last of increasing bounds is the largest. -/
theorem le_of_getLast? {bs : List K} (hinc : bs.Pairwise (· < ·)) {last : K}
    (hlast : bs.getLast? = some last) {b : K} (hb : b ∈ bs) : b ≤ last := by
  obtain ⟨init, rfl⟩ := List.getLast?_eq_some_iff.mp hlast
  rcases List.mem_append.mp hb with hb | hb
  · exact ((List.pairwise_append.mp hinc).2.2 b hb last List.mem_cons_self).le
  · exact (List.mem_singleton.mp hb).le

/-! ## Elements in the same bucket -/

/-- The elements above a bound up to the next; the first bucket is closed at zero. -/
def bucket : Option K → K → Set K
  | none, b => Set.Icc 0 b
  | some p, b => Set.Ioc p b

/-- Two elements between the same bounds. -/
def SameBucket (bs : List K) (x y : K) : Prop :=
  ∃ pre b post, bs = pre ++ b :: post ∧ x ∈ bucket pre.getLast? b ∧ y ∈ bucket pre.getLast? b

section Rank

variable [FloorSemiring K] {bs xs : List K} {t x v : K}

omit [IsStrictOrderedRing K] in
/-- A bound reaches the rank of an element exactly when it reaches the element. -/
theorem le_countP_iff (ht : 0 < t) (hx : Rank.nth? xs (⌈t⌉₊ - 1) = some x) (b : K) :
    t ≤ xs.countP (· ≤ b) ↔ x ≤ b := by
  have hpos : 0 < ⌈t⌉₊ := Nat.ceil_pos.mpr ht
  rw [Rank.le_iff_of_nth? hx, ← Nat.ceil_le]
  omega

/-- **The point of a rank lies in the bucket of the element of that rank.** -/
theorem sameBucket_locate (hinc : (0 :: bs).Pairwise (· < ·)) (ht : 0 < t)
    (hx : Rank.nth? xs (⌈t⌉₊ - 1) = some x) (hnonneg : 0 ≤ x)
    (h : locate (fun b => xs.countP (· ≤ b)) t bs 0 0 = some v) : SameBucket bs x v := by
  obtain ⟨pre, b, post, rfl, hpre, hb, hv, hvb⟩ := locate_eq_some hinc (by exact_mod_cast ht) h
  rw [le_countP_iff ht hx] at hb
  refine ⟨pre, b, post, rfl, ?_⟩
  cases hp : pre.getLast? with
  | none =>
    rw [hp] at hv
    exact ⟨⟨hnonneg, hb⟩, hv.le, hvb⟩
  | some p =>
    rw [hp] at hv
    have hpx := hpre p (List.mem_of_getLast? hp)
    rw [← not_le, le_countP_iff ht hx, not_le] at hpx
    exact ⟨⟨hpx, hb⟩, hv, hvb⟩

omit [IsStrictOrderedRing K] in
/-- An element whose rank has no bucket is above the bounds. -/
theorem lt_of_locate_eq_none (ht : 0 < t) (hx : Rank.nth? xs (⌈t⌉₊ - 1) = some x)
    (h : locate (fun b => xs.countP (· ≤ b)) t bs 0 0 = none) : ∀ b ∈ bs, b < x := by
  intro b hb
  have hlt := locate_eq_none h b hb
  rwa [← not_le, le_countP_iff ht hx, not_le] at hlt

end Rank

end Buckets
