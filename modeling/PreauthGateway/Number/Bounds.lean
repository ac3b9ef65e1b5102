import PreauthGateway.Number.PyFloat

/-!
# Bounds on Python floats

A double is a bound that rounding does not cross. So what is added without being negative does not
take a sum below a double, and a quotient of numbers from a double on is not below it.

## Main definitions

* `PyFloat.divBy`: a float divided by a positive number
* `PyFloat.min`, `PyFloat.max`: the built-in functions, of two floats

## Main results

* `PyFloat.le_add`: a sum with what is not negative stays at a bound or above
* `PyFloat.le_divBy`: a quotient stays at a bound or above
-/

namespace PyFloat

/-- `x / d` for a finite, positive `d`. -/
def divBy (d : ℚ) : PyFloat → PyFloat
  | .num (some (some q)) => ofRat (q / d)
  | x => x

/-- `min(x, y)`: the first one, unless the second is less. -/
def min (x y : PyFloat) : PyFloat := if y.Lt x then y else x

/-- `max(x, y)`: the first one, unless the second is greater. -/
def max (x y : PyFloat) : PyFloat := if x.Lt y then y else x

/-- The float of a rational that is a double. -/
abbrev finite (q : ℚ) : PyFloat := .num (Double.finite q)

theorem finite_le {p q : ℚ} : (finite p).Le (finite q) ↔ p ≤ q := Double.finite_le_finite

theorem ne_nan_of_le {x y : PyFloat} (h : y.Le x) : x ≠ .nan := by
  rintro rfl
  cases y <;> exact h

/-- What is not below a float is not below a smaller one. -/
theorem not_lt_of_le {x y z : PyFloat} (hyz : y.Le z) (hzx : z.Le x) : ¬ x.Lt y := by
  match x, y, z with
  | .nan, _, _ => exact id
  | .num _, .nan, _ => exact id
  | .num _, .num _, .nan => exact fun _ => hyz
  | .num x, .num y, .num z => exact not_lt.mpr (le_trans hyz hzx)

section Floor

variable {g : ℚ} (hg : Double.Fits g) (hlt : |g| < 2 ^ 1024)

include hg hlt

/-- Adding what is not negative does not pass a double. -/
theorem le_add {x y : PyFloat} (hx : (finite g).Le x) (hy : (finite 0).Le y) :
    (finite g).Le (x.add y) := by
  match x, y with
  | .nan, _ => exact hx.elim
  | .num _, .nan => exact hy.elim
  | .num none, .num _ => exact absurd hx (WithBot.not_coe_le_bot _)
  | .num _, .num none => exact absurd hy (WithBot.not_coe_le_bot _)
  | .num (some none), .num (some none) => exact hx
  | .num (some none), .num (some (some r)) => exact hx
  | .num (some (some p)), .num (some none) => exact le_top (α := Double)
  | .num (some (some p)), .num (some (some r)) =>
    exact Double.le_ofRat hg hlt
      ((finite_le.mp hx).trans (le_add_of_nonneg_right (finite_le.mp hy)))

/-- A quotient of what is not below a number is not below a double that is at most its quotient. -/
theorem le_divBy {p d : ℚ} (hd : 0 < d) (hp : g ≤ p / d) {x : PyFloat} (hx : (finite p).Le x) :
    (finite g).Le (x.divBy d) := by
  match x with
  | .nan => exact hx.elim
  | .num none => exact absurd hx (WithBot.not_coe_le_bot _)
  | .num (some none) => exact le_top (α := Double)
  | .num (some (some q)) =>
    exact Double.le_ofRat hg hlt (hp.trans (div_le_div_of_nonneg_right (finite_le.mp hx) hd.le))

end Floor

theorem le_min {g x y : PyFloat} (hx : g.Le x) (hy : g.Le y) : g.Le (x.min y) := by
  unfold min
  split
  · exact hy
  · exact hx

theorem le_max {g x y : PyFloat} (hx : x.Le g) (hy : g.Le y) : g.Le (x.max y) := by
  unfold max
  split
  · exact hy
  · rename_i hn
    match x, y, g with
    | .nan, _, _ => exact hx.elim
    | .num _, _, .nan => exact hx.elim
    | .num _, .nan, .num _ => exact hy.elim
    | .num x, .num y, .num g => exact le_trans hy (not_lt.mp hn)

theorem fits_zero : Double.Fits 0 := ⟨0, 0, by norm_num, by norm_num, by simp⟩

/-- The float of a number between zero and one. -/
theorem ofRat_unit {u : ℚ} (h₀ : 0 ≤ u) (h₁ : u ≤ 1) : ∃ p, ofRat u = finite p ∧ 0 ≤ p := by
  have hlo : Double.finite 0 ≤ Double.ofRat u := Double.le_ofRat fits_zero (by norm_num) h₀
  have hhi : Double.ofRat u ≤ Double.finite 1 :=
    Double.ofRat_le ⟨1, 0, by norm_num, by norm_num, by simp⟩
      (by rw [abs_one]; exact one_lt_pow₀ (by norm_num) (by norm_num)) h₁
  unfold ofRat
  match Double.ofRat u, hlo, hhi with
  | none, hlo, _ => exact absurd hlo (WithBot.not_coe_le_bot _)
  | some none, _, hhi => exact absurd hhi (WithBot.coe_le_coe.not.mpr (WithTop.not_top_le_coe _))
  | some (some p), hlo, _ => exact ⟨p, rfl, finite_le.mp hlo⟩

/-- A product of numbers between zero and one is not negative. -/
theorem zero_le_mul {u w : ℚ} (hu : 0 ≤ u) (hu' : u ≤ 1) (hw : 0 ≤ w) (hw' : w ≤ 1) :
    (finite 0).Le ((ofRat u).mul (ofRat w)) := by
  obtain ⟨p, hp, hpos⟩ := ofRat_unit hu hu'
  obtain ⟨q, hq, hqpos⟩ := ofRat_unit hw hw'
  rw [hp, hq]
  exact Double.le_ofRat fits_zero (by norm_num) (mul_nonneg hpos hqpos)

end PyFloat
