import Mathlib

/-!
# JSON values and the text `json.dumps` writes

A Python string is a list of code points, surrogates included, and a JSON value is built from such
strings, integers of any size, booleans, `null`, arrays and objects. A float is kept as the text
that `json.dumps` writes for it. `dumps` is `json.dumps` with the default `ensure_ascii`.

## Main definitions

* `CodePoint`, `PyStr`, `PyStr.Unicode`: Python strings, and those that spell no character as two
  surrogates
* `Json`, `Json.get?`: values, and the `dict.get` of an object
* `Layout`, `Json.dumps`: the two separator pairs, and the text of a value
-/

/-- A code point of a Python string; surrogates are code points. -/
abbrev CodePoint := Fin 0x110000

/-- A Python `str`. -/
abbrev PyStr := List CodePoint

namespace CodePoint

/-- The code point of a character. -/
def ofChar (c : Char) : CodePoint := ⟨c.toNat, by
  rcases c.valid with h | h
  · exact Nat.lt_trans h (by decide)
  · exact h.2⟩

theorem ofChar_injective : Function.Injective CodePoint.ofChar := by
  intro c d h
  have hn : c.toNat = d.toNat := congrArg (fun x : CodePoint => x.val) h
  exact Char.toNat_inj.mp hn

def IsHigh (c : CodePoint) : Prop := 0xD800 ≤ c.val ∧ c.val < 0xDC00

def IsLow (c : CodePoint) : Prop := 0xDC00 ≤ c.val ∧ c.val < 0xE000

instance (c : CodePoint) : Decidable c.IsHigh := inferInstanceAs (Decidable (_ ∧ _))

instance (c : CodePoint) : Decidable c.IsLow := inferInstanceAs (Decidable (_ ∧ _))

/-- The character that a high and a low surrogate spell together. -/
def join (hi lo : CodePoint) : CodePoint :=
  ⟨0x10000 + (hi.val - 0xD800) % 0x400 * 0x400 + (lo.val - 0xDC00) % 0x400, by omega⟩

/-- The UTF-16 code units of a code point: itself, or its two surrogates. -/
def units (c : CodePoint) : PyStr :=
  if c.val < 0x10000 then [c]
  else [⟨0xD800 + (c.val - 0x10000) / 0x400, by omega⟩,
    ⟨0xDC00 + (c.val - 0x10000) % 0x400, by omega⟩]

end CodePoint

namespace PyStr

/-- A string literal, or any string of Unicode characters, as a Python string. -/
def ofString (s : String) : PyStr := s.toList.map CodePoint.ofChar

/-- A list is split at the last occurrence of an element in one way. -/
theorem append_cons_inj_of_notMem_right {α : Type*} {a : α} {l l' m m' : List α} (hm : a ∉ m)
    (hm' : a ∉ m') (h : l ++ a :: m = l' ++ a :: m') : l = l' ∧ m = m' := by
  rcases List.append_eq_append_iff.mp h with ⟨c, hl, hc⟩ | ⟨c, hl, hc⟩
  · cases c with
    | nil => simp_all
    | cons b c =>
      obtain ⟨-, rfl⟩ := List.cons.inj hc
      exact absurd (List.mem_append_right _ List.mem_cons_self) hm
  · cases c with
    | nil => simp_all
    | cons b c =>
      obtain ⟨-, rfl⟩ := List.cons.inj hc
      exact absurd (List.mem_append_right _ List.mem_cons_self) hm'

/-- No character is spelled as two surrogates. -/
def Unicode (s : PyStr) : Prop := s.IsChain fun c d => ¬ (c.IsHigh ∧ d.IsLow)

instance (s : PyStr) : Decidable s.Unicode := inferInstanceAs (Decidable (List.IsChain _ s))

theorem unicode_singleton (c : CodePoint) : Unicode [c] := List.isChain_singleton c

/-- A character is no surrogate. -/
theorem unicode_ofString (s : String) : (ofString s).Unicode := by
  have hc : ∀ c : Char, ¬ (CodePoint.ofChar c).IsHigh := by
    intro c h
    obtain ⟨h₁, h₂⟩ := h
    simp only [CodePoint.ofChar] at h₁ h₂
    rcases c.valid with hv | hv
    · have : c.val.toNat < 0xD800 := hv
      simp only [Char.toNat] at h₁
      omega
    · have : 0xDFFF < c.val.toNat := hv.1
      simp only [Char.toNat] at h₂
      omega
  unfold ofString Unicode
  induction s.toList with
  | nil => exact List.isChain_nil
  | cons c cs ih =>
    rw [List.map_cons, List.isChain_cons]
    exact ⟨fun d _ h => hc c h.1, ih⟩

end PyStr

/-- A JSON value. A `float` is the text of its `repr`. -/
inductive Json
  | null
  | bool (b : Bool)
  | int (i : Int)
  | float (lit : List Char)
  | str (s : PyStr)
  | arr (xs : List Json)
  | obj (kvs : List (PyStr × Json))

namespace Json

mutual

/-- Equality of values. -/
def decEq : (a b : Json) → Decidable (a = b)
  | .null, b => match b with
    | .null => isTrue rfl
    | .bool _ | .int _ | .float _ | .str _ | .arr _ | .obj _ => isFalse nofun
  | .bool x, b => match b with
    | .bool y => decidable_of_iff (x = y) (by simp)
    | .null | .int _ | .float _ | .str _ | .arr _ | .obj _ => isFalse nofun
  | .int x, b => match b with
    | .int y => decidable_of_iff (x = y) (by simp)
    | .null | .bool _ | .float _ | .str _ | .arr _ | .obj _ => isFalse nofun
  | .float x, b => match b with
    | .float y => decidable_of_iff (x = y) (by simp)
    | .null | .bool _ | .int _ | .str _ | .arr _ | .obj _ => isFalse nofun
  | .str x, b => match b with
    | .str y => decidable_of_iff (x = y) (by simp)
    | .null | .bool _ | .int _ | .float _ | .arr _ | .obj _ => isFalse nofun
  | .arr xs, b => match b with
    | .arr ys =>
      have := decEqItems xs ys
      decidable_of_iff (xs = ys) (by simp)
    | .null | .bool _ | .int _ | .float _ | .str _ | .obj _ => isFalse nofun
  | .obj xs, b => match b with
    | .obj ys =>
      have := decEqMembers xs ys
      decidable_of_iff (xs = ys) (by simp)
    | .null | .bool _ | .int _ | .float _ | .str _ | .arr _ => isFalse nofun

/-- Equality of array elements. -/
def decEqItems : (xs ys : List Json) → Decidable (xs = ys)
  | [], [] => isTrue rfl
  | [], _ :: _ => isFalse nofun
  | _ :: _, [] => isFalse nofun
  | x :: xs, y :: ys =>
    have := decEq x y
    have := decEqItems xs ys
    decidable_of_iff (x = y ∧ xs = ys) (by simp)

/-- Equality of object members. -/
def decEqMembers : (xs ys : List (PyStr × Json)) → Decidable (xs = ys)
  | [], [] => isTrue rfl
  | [], _ :: _ => isFalse nofun
  | _ :: _, [] => isFalse nofun
  | (k, v) :: xs, (l, w) :: ys =>
    have := decEq v w
    have := decEqMembers xs ys
    decidable_of_iff ((k = l ∧ v = w) ∧ xs = ys) (by simp)

end

instance : DecidableEq Json := decEq

/-- The member of an object under a key, Python's `d.get(key)`; `none` when there is none. -/
def get? (k : PyStr) : List (PyStr × Json) → Option Json
  | [] => none
  | (l, v) :: kvs => if l = k then some v else get? k kvs

end Json

/-! ## The text of a value -/

/-- The separators: `(",", ":")`, or the default `(", ", ": ")`. -/
inductive Layout
  | compact
  | spaced

namespace Layout

/-- What follows the comma or the colon. -/
def pad : Layout → List Char
  | compact => []
  | spaced => [' ']

end Layout

namespace Json

/-- The escape `\uXXXX` of a code unit. -/
def uEscape (n : Nat) : List Char :=
  ['\\', 'u', (n / 0x1000 % 16).digitChar, (n / 0x100 % 16).digitChar, (n / 0x10 % 16).digitChar,
    (n % 16).digitChar]

/-- The text of one code unit inside quotes. -/
def escapeUnit (u : CodePoint) : List Char :=
  if u.val = 0x22 then ['\\', '"']
  else if u.val = 0x5C then ['\\', '\\']
  else if u.val = 0x08 then ['\\', 'b']
  else if u.val = 0x0C then ['\\', 'f']
  else if u.val = 0x0A then ['\\', 'n']
  else if u.val = 0x0D then ['\\', 'r']
  else if u.val = 0x09 then ['\\', 't']
  else if 0x20 ≤ u.val ∧ u.val ≤ 0x7E then [Char.ofNat u.val]
  else uEscape u.val

/-- The text of a string, quotes included; characters above U+FFFF are written as two escapes. -/
def dumpsStr (s : PyStr) : List Char := '"' :: ((s.flatMap CodePoint.units).flatMap escapeUnit ++ ['"'])

/-- The text of an integer, Python's `int.__repr__`. -/
def dumpsInt : Int → List Char
  | .ofNat n => Nat.toDigits 10 n
  | .negSucc n => '-' :: Nat.toDigits 10 (n + 1)

mutual

/-- `json.dumps` with the default `ensure_ascii`. -/
def dumps (l : Layout) : Json → List Char
  | .null => ['n', 'u', 'l', 'l']
  | .bool true => ['t', 'r', 'u', 'e']
  | .bool false => ['f', 'a', 'l', 's', 'e']
  | .int i => dumpsInt i
  | .float lit => lit
  | .str s => dumpsStr s
  | .arr [] => ['[', ']']
  | .arr (x :: xs) => '[' :: (dumps l x ++ dumpsItems l xs)
  | .obj [] => ['{', '}']
  | .obj ((k, v) :: kvs) => '{' :: (dumpsStr k ++ (':' :: l.pad) ++ dumps l v ++ dumpsMembers l kvs)

/-- The elements of an array after its first, and the closing bracket. -/
def dumpsItems (l : Layout) : List Json → List Char
  | [] => [']']
  | x :: xs => (',' :: l.pad) ++ dumps l x ++ dumpsItems l xs

/-- The members of an object after its first, and the closing brace. -/
def dumpsMembers (l : Layout) : List (PyStr × Json) → List Char
  | [] => ['}']
  | (k, v) :: kvs =>
    (',' :: l.pad) ++ dumpsStr k ++ (':' :: l.pad) ++ dumps l v ++ dumpsMembers l kvs

end

end Json
