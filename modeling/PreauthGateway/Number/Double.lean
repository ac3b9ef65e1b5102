import Mathlib

/-!
# Doubles

A finite double is an integer of at most 53 bits times a power of two. A rational is rounded to the
nearest double, a tie to the one with the even integer, and one too large for the format to an
infinity. Not-a-number is no value here.

## Main definitions

* `Double.nearest`, `Double.round`: the nearest double with an unbounded, and a bounded exponent
* `Double.Fits`: a rational that is a double but for the bound on its exponent
* `Double`, `Double.ofInt`, `Double.sub`: doubles and infinities, the double an integer is read as,
  and the difference of a double and a natural number

## Main results

* `Double.nearest_le`, `Double.le_nearest`: rounding never passes a double
* `Double.ofInt_small`: an integer of at most 53 bits is read exactly
* `Double.finite_le_ofRat`: integers of less than 53 bits are compared exactly
* `Double.sub_le`: a difference is at most its minuend
-/

namespace Double

/-- The nearest integer, ties to even. -/
def roundEven (q : ℚ) : ℤ :=
  if q - ⌊q⌋ < 1 / 2 then ⌊q⌋
  else if 1 / 2 < q - ⌊q⌋ then ⌊q⌋ + 1
  else if ⌊q⌋ % 2 = 0 then ⌊q⌋ else ⌊q⌋ + 1

/-- The exponent of the last binary digit of the double nearest to `q`. -/
def ulpExponent (q : ℚ) : ℤ := max (Int.log 2 |q| - 52) (-1074)

/-- The nearest double, when the exponent has no bound above. -/
def nearest (q : ℚ) : ℚ := roundEven (q / 2 ^ ulpExponent q) * (2 : ℚ) ^ ulpExponent q

/-- The double nearest to a rational; `none` is an infinity. -/
def round (q : ℚ) : Option ℚ := if |nearest q| < 2 ^ 1024 then some (nearest q) else none

/-! ## Rounding to an integer -/

theorem roundEven_cases (q : ℚ) : roundEven q = ⌊q⌋ ∨ (roundEven q = ⌊q⌋ + 1 ∧ (⌊q⌋ : ℚ) < q) := by
  unfold roundEven
  split_ifs with h₁ h₂ h₃
  · exact .inl rfl
  · exact .inr ⟨rfl, by linarith⟩
  · exact .inl rfl
  · exact .inr ⟨rfl, by linarith⟩

theorem le_roundEven {k : ℤ} {q : ℚ} (h : (k : ℚ) ≤ q) : k ≤ roundEven q := by
  have hk : k ≤ ⌊q⌋ := Int.le_floor.mpr h
  rcases roundEven_cases q with h | ⟨h, -⟩ <;> omega

theorem roundEven_le {k : ℤ} {q : ℚ} (h : q ≤ k) : roundEven q ≤ k := by
  rcases roundEven_cases q with hr | ⟨hr, hlt⟩
  · have hf : (⌊q⌋ : ℚ) ≤ k := (Int.floor_le q).trans h
    rw [hr]
    exact_mod_cast hf
  · have hf : (⌊q⌋ : ℚ) < k := hlt.trans_le h
    rw [hr]
    exact_mod_cast hf

/-- A quotient is rounded by its remainder. -/
theorem roundEven_div (a : ℤ) {b : ℕ} (hb : 0 < b) :
    roundEven ((a : ℚ) / b) =
      if 2 * (a % b) < b then a / b
      else if (b : ℤ) < 2 * (a % b) then a / b + 1
      else if a / b % 2 = 0 then a / b else a / b + 1 := by
  have hb' : (0 : ℚ) < b := by exact_mod_cast hb
  have hfloor : ⌊(a : ℚ) / b⌋ = a / b := Rat.floor_intCast_div_natCast a b
  have hfract : (a : ℚ) / b - ((a / b : ℤ) : ℚ) = ((a % b : ℤ) : ℚ) / b := by
    have hdiv : (b : ℚ) * ((a / b : ℤ) : ℚ) + ((a % b : ℤ) : ℚ) = a := by
      exact_mod_cast Int.mul_ediv_add_emod a b
    rw [eq_div_iff hb'.ne', sub_mul, div_mul_cancel₀ _ hb'.ne']
    linarith
  have hlt : ((a % b : ℤ) : ℚ) / b < 1 / 2 ↔ 2 * (a % b) < b := by
    rw [div_lt_div_iff₀ hb' two_pos, one_mul, mul_comm]
    exact_mod_cast Iff.rfl
  have hgt : 1 / 2 < ((a % b : ℤ) : ℚ) / b ↔ (b : ℤ) < 2 * (a % b) := by
    rw [div_lt_div_iff₀ two_pos hb', one_mul, mul_comm]
    exact_mod_cast Iff.rfl
  simp only [roundEven, hfloor, hfract, hlt, hgt]

/-! ## Rounding to a double -/

/-- A double but for the bound on its exponent. -/
def Fits (g : ℚ) : Prop := ∃ m e : ℤ, |m| ≤ 2 ^ 53 ∧ -1074 ≤ e ∧ g = m * (2 : ℚ) ^ e

section Unit

variable (q : ℚ)

theorem unit_pos : (0 : ℚ) < 2 ^ ulpExponent q := by positivity

theorem abs_le_unit : |q| ≤ 2 ^ 53 * (2 : ℚ) ^ ulpExponent q := by
  have hlt : |q| < (2 : ℚ) ^ (Int.log 2 |q| + 1) := by
    exact_mod_cast Int.lt_zpow_succ_log_self (by norm_num) |q|
  have he : Int.log 2 |q| + 1 ≤ 53 + ulpExponent q := by
    have := le_max_left (Int.log 2 |q| - 52) (-1074)
    unfold ulpExponent
    omega
  calc |q| ≤ (2 : ℚ) ^ (Int.log 2 |q| + 1) := hlt.le
    _ ≤ (2 : ℚ) ^ (53 + ulpExponent q) := zpow_le_zpow_right₀ (by norm_num) he
    _ = 2 ^ 53 * (2 : ℚ) ^ ulpExponent q := by
      rw [zpow_add₀ (by norm_num)]
      norm_num

/-- A unit above the least one is 52 binary digits below its number. -/
theorem unit_le_abs {q : ℚ} (hq : q ≠ 0) {e : ℤ} (he : -1074 ≤ e) (hlt : e < ulpExponent q) :
    2 ^ 52 * (2 : ℚ) ^ ulpExponent q ≤ |q| := by
  have hlog : ulpExponent q = Int.log 2 |q| - 52 := by
    unfold ulpExponent at hlt ⊢
    omega
  have hle : (2 : ℚ) ^ Int.log 2 |q| ≤ |q| := by
    exact_mod_cast Int.zpow_log_le_self (by norm_num) (abs_pos.mpr hq)
  calc 2 ^ 52 * (2 : ℚ) ^ ulpExponent q = (2 : ℚ) ^ (52 + ulpExponent q) := by
        rw [zpow_add₀ (by norm_num)]
        norm_num
    _ = (2 : ℚ) ^ Int.log 2 |q| := by
      rw [hlog]
      congr 1
      ring
    _ ≤ |q| := hle

end Unit

section Nearest

variable {q : ℚ} {k : ℤ}

/-- Rounding never passes a multiple of the unit from below. -/
theorem nearest_le_mul (h : q ≤ k * (2 : ℚ) ^ ulpExponent q) :
    nearest q ≤ k * (2 : ℚ) ^ ulpExponent q := by
  have hu : (0 : ℚ) < 2 ^ ulpExponent q := unit_pos q
  have hk : roundEven (q / 2 ^ ulpExponent q) ≤ k := roundEven_le ((div_le_iff₀ hu).mpr h)
  rw [nearest]
  gcongr

/-- Nor from above. -/
theorem mul_le_nearest (h : k * (2 : ℚ) ^ ulpExponent q ≤ q) :
    k * (2 : ℚ) ^ ulpExponent q ≤ nearest q := by
  have hu : (0 : ℚ) < 2 ^ ulpExponent q := unit_pos q
  have hk : k ≤ roundEven (q / 2 ^ ulpExponent q) := le_roundEven ((le_div_iff₀ hu).mpr h)
  rw [nearest]
  gcongr

theorem abs_nearest_le : |nearest q| ≤ 2 ^ 53 * (2 : ℚ) ^ ulpExponent q := by
  have h := abs_le.mp (abs_le_unit q)
  have hup : nearest q ≤ ((2 ^ 53 : ℤ) : ℚ) * (2 : ℚ) ^ ulpExponent q :=
    nearest_le_mul (by push_cast; exact h.2)
  have hlo : ((-2 ^ 53 : ℤ) : ℚ) * (2 : ℚ) ^ ulpExponent q ≤ nearest q :=
    mul_le_nearest (by push_cast; linarith [h.1])
  push_cast at hup hlo
  exact abs_le.mpr ⟨by linarith, hup⟩

/-- The nearest double is one. -/
theorem fits_nearest (q : ℚ) : Fits (nearest q) := by
  refine ⟨roundEven (q / 2 ^ ulpExponent q), ulpExponent q, ?_, le_max_right _ _, rfl⟩
  have hu : (0 : ℚ) < 2 ^ ulpExponent q := unit_pos q
  have h : |nearest q| ≤ 2 ^ 53 * (2 : ℚ) ^ ulpExponent q := abs_nearest_le
  rw [nearest, abs_mul, abs_of_pos hu] at h
  exact_mod_cast le_of_mul_le_mul_right h hu

/-- A multiple of a finer power of two is either a multiple of the unit, or at most the number in
size. -/
theorem fits_cases {g : ℚ} (hg : Fits g) (hq : q ≠ 0) :
    (∃ k : ℤ, g = k * (2 : ℚ) ^ ulpExponent q) ∨ |g| ≤ 2 ^ 52 * (2 : ℚ) ^ ulpExponent q ∧
      2 ^ 52 * (2 : ℚ) ^ ulpExponent q ≤ |q| := by
  obtain ⟨m, e, hm, he, rfl⟩ := hg
  by_cases hle : ulpExponent q ≤ e
  · obtain ⟨n, hn⟩ := Int.eq_ofNat_of_zero_le (sub_nonneg.mpr hle)
    refine .inl ⟨m * 2 ^ n, ?_⟩
    have he : e = n + ulpExponent q := by omega
    rw [he, zpow_add₀ (by norm_num), zpow_natCast]
    push_cast
    ring
  · refine .inr ⟨?_, unit_le_abs hq he (not_le.mp hle)⟩
    have hm' : |(m : ℚ)| ≤ 2 ^ 53 := by exact_mod_cast hm
    have hpow : (2 : ℚ) ^ e ≤ (2 : ℚ) ^ (ulpExponent q - 1) :=
      zpow_le_zpow_right₀ (by norm_num) (by omega)
    have hpos : (0 : ℚ) < (2 : ℚ) ^ e := by positivity
    calc |(m : ℚ) * 2 ^ e| = |(m : ℚ)| * 2 ^ e := by rw [abs_mul, abs_of_pos hpos]
      _ ≤ 2 ^ 53 * 2 ^ (ulpExponent q - 1) := by gcongr
      _ = 2 ^ 52 * 2 ^ ulpExponent q := by
        rw [zpow_sub_one₀ (by norm_num)]
        ring

theorem nearest_zero : nearest 0 = 0 := by
  have h : roundEven 0 = 0 := by simp [roundEven]
  rw [nearest, zero_div, h]
  simp

/-- **Rounding never passes a double.** -/
theorem nearest_le {g : ℚ} (hg : Fits g) (h : q ≤ g) : nearest q ≤ g := by
  by_cases hq : q = 0
  · rw [hq, nearest_zero]
    exact hq ▸ h
  rcases fits_cases hg hq with ⟨k, rfl⟩ | ⟨hsmall, hlarge⟩
  · exact nearest_le_mul h
  · rcases le_or_gt 0 q with hpos | hneg
    · have hg : g = ((2 ^ 52 : ℤ) : ℚ) * 2 ^ ulpExponent q := by
        rw [abs_of_nonneg hpos] at hlarge
        push_cast
        linarith [le_abs_self g]
      rw [hg] at h ⊢
      exact nearest_le_mul h
    · have hb : nearest q ≤ ((-2 ^ 52 : ℤ) : ℚ) * 2 ^ ulpExponent q := by
        refine nearest_le_mul ?_
        rw [abs_of_neg hneg] at hlarge
        push_cast
        linarith
      push_cast at hb
      linarith [neg_abs_le g]

/-- Nor from above. -/
theorem le_nearest {g : ℚ} (hg : Fits g) (h : g ≤ q) : g ≤ nearest q := by
  by_cases hq : q = 0
  · rw [hq, nearest_zero]
    exact hq ▸ h
  rcases fits_cases hg hq with ⟨k, rfl⟩ | ⟨hsmall, hlarge⟩
  · exact mul_le_nearest h
  · rcases le_or_gt 0 q with hpos | hneg
    · have hb : ((2 ^ 52 : ℤ) : ℚ) * 2 ^ ulpExponent q ≤ nearest q := by
        refine mul_le_nearest ?_
        rw [abs_of_nonneg hpos] at hlarge
        push_cast
        linarith
      push_cast at hb
      linarith [le_abs_self g]
    · have hg : g = ((-2 ^ 52 : ℤ) : ℚ) * 2 ^ ulpExponent q := by
        rw [abs_of_neg hneg] at hlarge
        push_cast
        linarith [neg_abs_le g]
      rw [hg] at h ⊢
      exact mul_le_nearest h

/-- A double is its own nearest one. -/
theorem nearest_of_fits {g : ℚ} (hg : Fits g) : nearest g = g :=
  le_antisymm (nearest_le hg le_rfl) (le_nearest hg le_rfl)

end Nearest

end Double

/-! ## The doubles integers are read as -/

/-- A double: finite, or an infinity. -/
abbrev Double := WithBot (WithTop ℚ)

namespace Double

/-- A finite double. -/
def finite (q : ℚ) : Double := ((q : WithTop ℚ) : WithBot (WithTop ℚ))

@[simp] theorem finite_le_finite {p q : ℚ} : finite p ≤ finite q ↔ p ≤ q := by
  simp [finite]

/-- The double nearest to a rational. -/
def ofRat (q : ℚ) : Double :=
  match round q with
  | some g => finite g
  | none => if 0 < q then ⊤ else ⊥

/-- The double that the decimal text of an integer is read as. -/
def ofInt (n : ℤ) : Double := ofRat n

/-- The difference of a double and a finite one. -/
def sub : Double → ℚ → Double
  | none, _ => ⊥
  | some none, _ => ⊤
  | some (some q), w => ofRat (q - w)

theorem sub_finite (q w : ℚ) : sub (finite q) w = ofRat (q - w) := rfl

theorem round_eq_some {q g : ℚ} (h : round q = some g) : nearest q = g ∧ |g| < 2 ^ 1024 := by
  unfold round at h
  split_ifs at h with hlt
  cases h
  exact ⟨rfl, hlt⟩

/-- An integer of at most 53 bits is a double. -/
theorem fits_int {n : ℤ} (h : |n| ≤ 2 ^ 53) : Fits n := ⟨n, 0, h, by norm_num, by simp⟩

theorem abs_int_lt {n : ℤ} (h : |n| ≤ 2 ^ 53) : |(n : ℚ)| < 2 ^ 1024 := by
  have h' : |(n : ℚ)| ≤ 2 ^ 53 := by exact_mod_cast h
  exact h'.trans_lt (pow_lt_pow_right₀ (by norm_num) (by norm_num))

/-- **An integer of at most 53 bits is read exactly.** -/
theorem ofInt_small {n : ℤ} (h : |n| ≤ 2 ^ 53) : ofInt n = finite n := by
  have hn : nearest n = n := nearest_of_fits (fits_int h)
  unfold ofInt ofRat round
  rw [hn, if_pos (abs_int_lt h)]

/-- Rounding does not pass a finite double. -/
theorem ofRat_le {q g : ℚ} (hg : Fits g) (hlt : |g| < 2 ^ 1024) (h : q ≤ g) :
    ofRat q ≤ finite g := by
  have hq : nearest q ≤ g := nearest_le hg h
  unfold ofRat
  cases hr : round q with
  | some p =>
    obtain ⟨rfl, -⟩ := round_eq_some hr
    simpa using hq
  | none =>
    -- the nearest double is below the range, so the infinity is the negative one
    have hneg : ¬ 0 < q := by
      intro hpos
      unfold round at hr
      split_ifs at hr with hb
      have hz : (0 : ℚ) ≤ nearest q := le_nearest ⟨0, 0, by norm_num, by norm_num, by simp⟩ hpos.le
      rw [abs_of_nonneg hz] at hb
      exact hb (hq.trans_lt ((le_abs_self g).trans_lt hlt))
    simp [hneg]

/-- Nor from above. -/
theorem le_ofRat {q g : ℚ} (hg : Fits g) (hlt : |g| < 2 ^ 1024) (h : g ≤ q) :
    finite g ≤ ofRat q := by
  have hq : g ≤ nearest q := le_nearest hg h
  unfold ofRat
  cases hr : round q with
  | some p =>
    obtain ⟨rfl, -⟩ := round_eq_some hr
    simpa using hq
  | none =>
    have hpos : 0 < q := by
      by_contra hneg
      unfold round at hr
      split_ifs at hr with hb
      have hz : nearest q ≤ 0 :=
        nearest_le ⟨0, 0, by norm_num, by norm_num, by simp⟩ (not_lt.mp hneg)
      rw [abs_of_nonpos hz] at hb
      exact hb ((neg_le_neg hq).trans_lt ((neg_le_abs g).trans_lt hlt))
    simp [hpos]

/-- **Integers of less than 53 bits are compared exactly, with any integer.** -/
theorem finite_le_ofRat {n k : ℤ} (h : |n| < 2 ^ 53) : finite n ≤ ofRat k ↔ n ≤ k := by
  obtain ⟨hlo, hhi⟩ := abs_lt.mp h
  constructor
  · intro hle
    by_contra hlt
    -- the integer below `n` is a double too, and rounding does not pass it
    have hb : |n - 1| ≤ 2 ^ 53 := abs_le.mpr ⟨by omega, by omega⟩
    have hk : (k : ℚ) ≤ ((n - 1 : ℤ) : ℚ) := by exact_mod_cast (by omega : k ≤ n - 1)
    have hle' := hle.trans (ofRat_le (fits_int hb) (abs_int_lt hb) hk)
    rw [finite_le_finite] at hle'
    have : n ≤ n - 1 := by exact_mod_cast hle'
    omega
  · intro hle
    have hk : (n : ℚ) ≤ (k : ℚ) := by exact_mod_cast hle
    exact le_ofRat (fits_int h.le) (abs_int_lt h.le) hk

/-- **A difference is at most its minuend.** -/
theorem sub_le (n : ℤ) {w : ℚ} (hw : 0 ≤ w) : sub (ofInt n) w ≤ ofInt n := by
  unfold ofInt ofRat
  cases hr : round n with
  | none => split_ifs <;> exact le_rfl
  | some g =>
    obtain ⟨rfl, hlt⟩ := round_eq_some hr
    exact ofRat_le (fits_nearest n) hlt (by linarith)

end Double
