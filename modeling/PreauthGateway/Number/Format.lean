import PreauthGateway.Number.PyFloat

/-!
# Floats as text

`"{:.df}"` writes a float with a number of places, `"{:g}"` with six digits, the zeros at the end
left out. Integers of up to six digits are written exactly; from seven on `"{:g}"` rounds.

## Main definitions

* `PyFloat.fixed`, `PyFloat.general`: the two formats
* `IsNumeral`: a text of digits, points, signs, and the letters of exponents and of `inf` and `nan`

## Main results

* `PyFloat.general_ofInt`: **an integer of up to six digits is written as its digits**
* `PyFloat.general_eq_digits_iff`: no larger one is
* `PyFloat.isNumeral_fixed`, `PyFloat.isNumeral_general`
-/

/-- A digit, a point, a sign, or a letter of an exponent, of `inf` or of `nan`. -/
def isNumeralChar (c : Char) : Bool := c.isDigit || c ∈ ['.', '+', '-', 'e', 'i', 'n', 'f', 'a']

def IsNumeral (t : List Char) : Prop := ∀ c ∈ t, isNumeralChar c = true

namespace IsNumeral

variable {s t : List Char}

theorem append (hs : IsNumeral s) (ht : IsNumeral t) : IsNumeral (s ++ t) := fun c hc =>
  (List.mem_append.mp hc).elim (hs c) (ht c)

theorem cons {c : Char} (hc : isNumeralChar c = true) (ht : IsNumeral t) : IsNumeral (c :: t) :=
  fun _ hd => (List.mem_cons.mp hd).elim (fun h => h ▸ hc) (ht _)

theorem toDigits (n : ℕ) : IsNumeral (Nat.toDigits 10 n) := fun c hc => by
  rw [isNumeralChar, Nat.isDigit_of_mem_toDigits (by decide) (by decide) hc, Bool.true_or]

theorem zeros (n : ℕ) : IsNumeral (List.replicate n '0') := fun c hc => by
  rw [List.eq_of_mem_replicate hc]
  rfl

/-- No numeral holds a blank, a quote, a backslash or a line break. -/
theorem plain (h : IsNumeral t) {c : Char} (hc : c ∈ t) :
    c ≠ ' ' ∧ c ≠ '"' ∧ c ≠ '\\' ∧ c ≠ '\n' := by
  have hn := h c hc
  refine ⟨?_, ?_, ?_, ?_⟩ <;>
  · rintro rfl
    exact absurd hn (by decide)

end IsNumeral

namespace PyFloat

/-- The fraction `m / 10 ^ p` to `p` places. -/
def places (m p : ℕ) : List Char :=
  let ds := Nat.toDigits 10 (m % 10 ^ p)
  List.replicate (p - ds.length) '0' ++ ds

/-- `"{:.df}"` for a positive `d`: the nearest decimal of `d` places, ties to even. -/
def fixed (d : ℕ) : PyFloat → List Char
  | .nan => "nan".toList
  | .num none => "-inf".toList
  | .num (some none) => "inf".toList
  | .num (some (some q)) =>
    let scaled := (Double.roundEven (|q| * 10 ^ d)).toNat
    (if q < 0 then ['-'] else []) ++ Nat.toDigits 10 (scaled / 10 ^ d) ++ '.' :: places scaled d

/-- `m / 10 ^ p` without the zeros at its end, and without its point when nothing follows it. -/
def shortest (m p : ℕ) : List Char :=
  let rest := (places m p).rdropWhile (· = '0')
  Nat.toDigits 10 (m / 10 ^ p) ++ if p = 0 ∨ rest = [] then [] else '.' :: rest

/-- The six digits nearest to a positive number, ties to even, and its decimal exponent. -/
def sixDigits (q : ℚ) : ℕ × ℤ :=
  let e := Int.log 10 q
  let m := (Double.roundEven (q / 10 ^ (e - 5))).toNat
  if m = 10 ^ 6 then (10 ^ 5, e + 1) else (m, e)

/-- An exponent, with its sign and at least two digits. -/
def exponentText (e : ℤ) : List Char :=
  let ds := Nat.toDigits 10 e.natAbs
  'e' :: (if e < 0 then '-' else '+') :: (List.replicate (2 - ds.length) '0' ++ ds)

/-- `"{:g}"`. -/
def general : PyFloat → List Char
  | .nan => "nan".toList
  | .num none => "-inf".toList
  | .num (some none) => "inf".toList
  | .num (some (some q)) =>
    if q = 0 then ['0']
    else
      let m := sixDigits |q|
      (if q < 0 then ['-'] else []) ++
        if -4 ≤ m.2 ∧ m.2 < 6 then shortest m.1 (5 - m.2).toNat
        else shortest m.1 5 ++ exponentText m.2

example : [general (ofInt 180000), general (ofInt 1234567), general (ofRat (1 / 8))] =
    ["180000".toList, "1.23457e+06".toList, "0.125".toList] := by decide +kernel

/-! ## Integers -/

theorem roundEven_intCast (k : ℤ) : Double.roundEven (k : ℚ) = k :=
  le_antisymm (Double.roundEven_le le_rfl) (Double.le_roundEven le_rfl)

theorem ofInt_natCast {n : ℕ} (h : n ≤ 2 ^ 53) : ofInt n = .num (Double.finite n) := by
  have habs : |(n : ℤ)| ≤ 2 ^ 53 := by
    rw [abs_of_nonneg (Int.natCast_nonneg n)]
    exact_mod_cast h
  rw [ofInt, Double.ofInt_small habs, Int.cast_natCast]

/-- The six digits of an integer that has no more. -/
theorem sixDigits_natCast {n : ℕ} (hpos : 0 < n) (h : n < 10 ^ 6) :
    sixDigits n = (n * 10 ^ (5 - Nat.log 10 n), (Nat.log 10 n : ℤ)) := by
  have hlog : Nat.log 10 n ≤ 5 := Nat.le_of_lt_succ (Nat.log_lt_of_lt_pow hpos.ne' h)
  have hscaled : (n : ℚ) / 10 ^ ((Nat.log 10 n : ℤ) - 5) =
      ((n * 10 ^ (5 - Nat.log 10 n) : ℕ) : ℤ) := by
    have hexp : ((Nat.log 10 n : ℤ) - 5) = -((5 - Nat.log 10 n : ℕ) : ℤ) := by omega
    rw [hexp, zpow_neg, div_inv_eq_mul, zpow_natCast]
    push_cast
    rfl
  -- six digits do not carry
  have hlt : n * 10 ^ (5 - Nat.log 10 n) < 10 ^ 6 := by
    calc n * 10 ^ (5 - Nat.log 10 n)
        < 10 ^ (Nat.log 10 n + 1) * 10 ^ (5 - Nat.log 10 n) :=
          Nat.mul_lt_mul_of_pos_right (Nat.lt_pow_succ_log_self (by decide) n) (by positivity)
      _ = 10 ^ 6 := by
          rw [← pow_add]
          congr 1
          omega
  simp only [sixDigits]
  rw [show Int.log 10 (n : ℚ) = Nat.log 10 n from Int.log_natCast 10 n, hscaled, roundEven_intCast,
    Int.toNat_natCast, if_neg hlt.ne]

/-- A whole number of units is written without a point. -/
theorem shortest_mul (n p : ℕ) : shortest (n * 10 ^ p) p = Nat.toDigits 10 n := by
  have hpos : 0 < 10 ^ p := by positivity
  have hrest : (places (n * 10 ^ p) p).rdropWhile (· = '0') = [] := by
    rw [List.rdropWhile_eq_nil_iff, places, Nat.mul_mod_left]
    intro c hc
    rcases List.mem_append.mp hc with hc | hc
    · exact decide_eq_true (List.eq_of_mem_replicate hc)
    · exact decide_eq_true (List.mem_singleton.mp hc)
  rw [shortest, hrest, Nat.mul_div_cancel _ hpos, if_pos (.inr rfl), List.append_nil]

/-- How a positive number is written. -/
theorem general_pos {q : ℚ} (h : 0 < q) : general (.num (Double.finite q)) =
    if -4 ≤ (sixDigits q).2 ∧ (sixDigits q).2 < 6 then
      shortest (sixDigits q).1 (5 - (sixDigits q).2).toNat
    else shortest (sixDigits q).1 5 ++ exponentText (sixDigits q).2 := by
  change (if q = 0 then _ else _) = _
  rw [if_neg h.ne', if_neg h.le.not_gt, abs_of_pos h, List.nil_append]

/-- **An integer of up to six digits is written as its digits.** -/
theorem general_ofInt {n : ℕ} (h : n < 10 ^ 6) : general (ofInt n) = Nat.toDigits 10 n := by
  rw [ofInt_natCast (by omega)]
  rcases Nat.eq_zero_or_pos n with rfl | hpos
  · decide +kernel
  have hlog : Nat.log 10 n ≤ 5 := Nat.le_of_lt_succ (Nat.log_lt_of_lt_pow hpos.ne' h)
  have hplaces : (5 - (Nat.log 10 n : ℤ)).toNat = 5 - Nat.log 10 n := by omega
  rw [general_pos (by exact_mod_cast hpos), sixDigits_natCast hpos h, if_pos (by omega), hplaces,
    shortest_mul]

/-- The exponent of a number of at least seven digits. -/
theorem le_sixDigits {n : ℕ} (h : 10 ^ 6 ≤ n) : 6 ≤ (sixDigits n).2 := by
  have hlog : 6 ≤ Int.log 10 (n : ℚ) := by
    rw [show Int.log 10 (n : ℚ) = Nat.log 10 n from Int.log_natCast 10 n]
    exact_mod_cast Nat.le_log_of_pow_le (by decide) h
  rw [sixDigits]
  split
  · exact hlog.trans (Int.le_add_one le_rfl)
  · exact hlog

/-- An integer of seven digits or more is written with an exponent. -/
theorem general_ofInt_of_le {n : ℕ} (h : 10 ^ 6 ≤ n) (hn : n ≤ 2 ^ 53) : 'e' ∈ general (ofInt n) := by
  have hpos : (0 : ℚ) < n := by
    have : 0 < n := by omega
    exact_mod_cast this
  have hexp := le_sixDigits h
  rw [ofInt_natCast hn, general_pos hpos, if_neg (by omega)]
  exact List.mem_append_right _ List.mem_cons_self

/-- **`"{:g}"` shows an integer exactly when it has up to six digits.** -/
theorem general_eq_digits_iff {n : ℕ} (hn : n ≤ 2 ^ 53) :
    general (ofInt n) = Nat.toDigits 10 n ↔ n < 10 ^ 6 := by
  constructor
  · intro heq
    by_contra hle
    have he := general_ofInt_of_le (not_lt.mp hle) hn
    rw [heq] at he
    exact absurd (Nat.isDigit_of_mem_toDigits (by decide) (by decide) he) (by decide)
  · exact general_ofInt

/-! ## The characters -/

theorem isNumeral_places (m p : ℕ) : IsNumeral (places m p) :=
  (IsNumeral.zeros _).append (.toDigits _)

theorem isNumeral_sign (q : ℚ) : IsNumeral (if q < 0 then ['-'] else []) := by
  split
  · exact .cons rfl fun _ => nofun
  · exact fun _ => nofun

theorem isNumeral_nan : IsNumeral "nan".toList :=
  .cons (t := ['a', 'n']) rfl (.cons rfl (.cons rfl fun _ => nofun))

theorem isNumeral_inf : IsNumeral "inf".toList :=
  .cons (t := ['n', 'f']) rfl (.cons rfl (.cons rfl fun _ => nofun))

theorem isNumeral_negInf : IsNumeral "-inf".toList := .cons rfl isNumeral_inf

theorem isNumeral_fixed (d : ℕ) (x : PyFloat) : IsNumeral (fixed d x) := by
  match x with
  | .nan => exact isNumeral_nan
  | .num none => exact isNumeral_negInf
  | .num (some none) => exact isNumeral_inf
  | .num (some (some q)) =>
    exact ((isNumeral_sign q).append (.toDigits _)).append (.cons rfl (isNumeral_places _ _))

theorem isNumeral_shortest (m p : ℕ) : IsNumeral (shortest m p) := by
  refine (IsNumeral.toDigits _).append ?_
  split
  · exact fun _ => nofun
  · refine .cons rfl fun c hc => isNumeral_places m p c ?_
    exact (List.rdropWhile_prefix _ _).subset hc

theorem isNumeral_exponentText (e : ℤ) : IsNumeral (exponentText e) := by
  refine .cons rfl (.cons ?_ ((IsNumeral.zeros _).append (.toDigits _)))
  split <;> rfl

theorem isNumeral_general (x : PyFloat) : IsNumeral (general x) := by
  match x with
  | .nan => exact isNumeral_nan
  | .num none => exact isNumeral_negInf
  | .num (some none) => exact isNumeral_inf
  | .num (some (some q)) =>
    change IsNumeral (if q = 0 then _ else _)
    split
    · exact .cons rfl fun _ => nofun
    · refine (isNumeral_sign q).append ?_
      split
      · exact isNumeral_shortest _ _
      · exact (isNumeral_shortest _ _).append (isNumeral_exponentText _)

end PyFloat
