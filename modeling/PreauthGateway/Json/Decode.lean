import PreauthGateway.Json.Value

/-!
# Reading JSON text, as `json.loads` does

The scanner follows Python's decoder: values, whitespace between tokens, strings with their escapes
(a high surrogate escape followed by a low one is one character), numbers, and the extra literals
`NaN`, `Infinity` and `-Infinity`. Every `none` is a `JSONDecodeError`. A repeated key of an object
keeps its place and takes the later value, as in a `dict`.

## Main definitions

* `Json.scanString`, `Json.scanNumber`, `Json.scanOnce`: the scanners
* `Json.loads`: `json.loads` on a text
* `Json.Valid`, `JsonObject`: the values a Python program can pass to `json.dumps`, and the objects
  among them
-/

namespace Json

/-- The whitespace `json` allows between tokens. -/
def isWs (c : Char) : Bool := c = ' ' || c = '\t' || c = '\n' || c = '\r'

def skipWs (cs : List Char) : List Char := cs.dropWhile isWs

/-! ## Strings -/

/-- The value of a hexadecimal digit. -/
def hexVal (c : Char) : Option Nat :=
  if '0' ≤ c ∧ c ≤ '9' then some (c.toNat - '0'.toNat)
  else if 'a' ≤ c ∧ c ≤ 'f' then some (c.toNat - 'a'.toNat + 10)
  else if 'A' ≤ c ∧ c ≤ 'F' then some (c.toNat - 'A'.toNat + 10)
  else none

/-- The code unit of four hexadecimal digits. -/
def hex4 (a b c d : Char) : Option CodePoint := do
  let a ← hexVal a
  let b ← hexVal b
  let c ← hexVal c
  let d ← hexVal d
  let n := ((a * 16 + b) * 16 + c) * 16 + d
  if h : n < 0x110000 then some ⟨n, h⟩ else none

/-- The one-character escapes. -/
def unescape (e : Char) : Option CodePoint :=
  if e = '"' then some 0x22
  else if e = '\\' then some 0x5C
  else if e = '/' then some 0x2F
  else if e = 'b' then some 0x08
  else if e = 'f' then some 0x0C
  else if e = 'n' then some 0x0A
  else if e = 'r' then some 0x0D
  else if e = 't' then some 0x09
  else none

/-- The code units up to the closing quote, and the text after it. -/
def scanUnits : List Char → Option (PyStr × List Char)
  | [] => none
  | c :: cs =>
    if c = '"' then some ([], cs)
    else if c = '\\' then
      match cs with
      | [] => none
      | e :: cs =>
        if e = 'u' then
          match cs with
          | a :: b :: c :: d :: cs =>
            match hex4 a b c d, scanUnits cs with
            | some u, some (us, r) => some (u :: us, r)
            | _, _ => none
          | _ => none
        else
          match unescape e, scanUnits cs with
          | some u, some (us, r) => some (u :: us, r)
          | _, _ => none
    else if c.toNat < 0x20 then none
    else
      match scanUnits cs with
      | some (us, r) => some (CodePoint.ofChar c :: us, r)
      | none => none

/-- A high surrogate followed by a low one becomes the character they spell. -/
def joinUnits : PyStr → PyStr
  | [] => []
  | [u] => [u]
  | u :: v :: us =>
    if u.IsHigh ∧ v.IsLow then CodePoint.join u v :: joinUnits us else u :: joinUnits (v :: us)

/-- `scanstring`, after the opening quote. -/
def scanString (cs : List Char) : Option (PyStr × List Char) :=
  (scanUnits cs).map fun p => (joinUnits p.1, p.2)

/-! ## Numbers -/

/-- `0|[1-9]\d*`: a whole part and the text after it. -/
def scanWhole : List Char → Option (List Char × List Char)
  | [] => none
  | c :: cs =>
    if c = '0' then some (['0'], cs)
    else if c.isDigit then some (c :: cs.takeWhile Char.isDigit, cs.dropWhile Char.isDigit)
    else none

/-- `(\.\d+)?`: a fraction, empty when there is none, and the text after it. -/
def scanFraction : List Char → List Char × List Char
  | '.' :: d :: cs =>
    if d.isDigit then ('.' :: d :: cs.takeWhile Char.isDigit, cs.dropWhile Char.isDigit)
    else ([], '.' :: d :: cs)
  | cs => ([], cs)

/-- `[-+]?`: the sign of an exponent. -/
def scanSign : List Char → List Char × List Char
  | '-' :: cs => (['-'], cs)
  | '+' :: cs => (['+'], cs)
  | cs => ([], cs)

/-- `([eE][-+]?\d+)?`: an exponent, empty when there is none, and the text after it. -/
def scanExponent : List Char → List Char × List Char
  | [] => ([], [])
  | e :: cs =>
    if e = 'e' ∨ e = 'E' then
      match (scanSign cs).2 with
      | d :: ds =>
        if d.isDigit then
          (e :: ((scanSign cs).1 ++ d :: ds.takeWhile Char.isDigit), ds.dropWhile Char.isDigit)
        else ([], e :: cs)
      | [] => ([], e :: cs)
    else ([], e :: cs)

/-- The integer of a sign and decimal digits. -/
def intOf (neg : Bool) (ds : List Char) : Int :=
  if neg then -(Nat.ofDigitChars 10 ds 0 : Int) else (Nat.ofDigitChars 10 ds 0 : Int)

/-- An unsigned number after its sign: an integer, unless it has a fraction or an exponent. -/
def scanUnsigned (neg : Bool) (cs : List Char) : Option (Json × List Char) :=
  match scanWhole cs with
  | none => none
  | some (ds, cs) =>
    let f := scanFraction cs
    let e := scanExponent f.2
    if f.1 = [] ∧ e.1 = [] then some (.int (intOf neg ds), e.2)
    else some (.float ((if neg then ['-'] else []) ++ ds ++ f.1 ++ e.1), e.2)

def scanNumber : List Char → Option (Json × List Char)
  | '-' :: cs => scanUnsigned true cs
  | cs => scanUnsigned false cs

/-! ## Values -/

/-- The text after `word`, when `cs` begins with it. -/
def expect (word cs : List Char) : Option (List Char) :=
  if word.isPrefixOf cs then some (cs.drop word.length) else none

/-- The literals, tried before a number. -/
def words : List (List Char × Json) :=
  [("null".toList, .null), ("true".toList, .bool true), ("false".toList, .bool false),
    ("NaN".toList, .float "NaN".toList), ("Infinity".toList, .float "Infinity".toList),
    ("-Infinity".toList, .float "-Infinity".toList)]

/-- A literal or a number. -/
def scanAtom (cs : List Char) : Option (Json × List Char) :=
  match words.findSome? fun w => (expect w.1 cs).map fun r => (w.2, r) with
  | some p => some p
  | none => scanNumber cs

/-- `dict(pairs)`: a later pair with the same key replaces the value in place. -/
def setMember (kvs : List (PyStr × Json)) (k : PyStr) (v : Json) : List (PyStr × Json) :=
  match kvs with
  | [] => [(k, v)]
  | (l, w) :: kvs => if l = k then (k, v) :: kvs else (l, w) :: setMember kvs k v

def dictOf (pairs : List (PyStr × Json)) : List (PyStr × Json) :=
  pairs.foldl (fun d p => setMember d p.1 p.2) []

section Loops

variable (scan : List Char → Option (Json × List Char))

/-- The elements of a non-empty array up to its bracket. The number bounds the elements read. -/
def scanItems : ℕ → List Char → Option (List Json × List Char)
  | 0, _ => none
  | m + 1, cs =>
    match scan cs with
    | none => none
    | some (v, cs) =>
      match skipWs cs with
      | ']' :: r => some ([v], r)
      | ',' :: r => (scanItems m (skipWs r)).map fun p => (v :: p.1, p.2)
      | _ => none

/-- The members of a non-empty object up to its brace. The number bounds the members read. -/
def scanMembers : ℕ → List Char → Option (List (PyStr × Json) × List Char)
  | 0, _ => none
  | m + 1, cs =>
    match cs with
    | '"' :: cs =>
      match scanString cs with
      | none => none
      | some (k, cs) =>
        match skipWs cs with
        | ':' :: cs =>
          match scan (skipWs cs) with
          | none => none
          | some (v, cs) =>
            match skipWs cs with
            | '}' :: r => some ([(k, v)], r)
            | ',' :: r => (scanMembers m (skipWs r)).map fun p => ((k, v) :: p.1, p.2)
            | _ => none
        | _ => none
    | _ => none

end Loops

/-- `scan_once`: the value at the front of a text and the text after it. The number bounds the
nesting of arrays and objects. -/
def scanOnce : ℕ → List Char → Option (Json × List Char)
  | 0, _ => none
  | n + 1, cs =>
    match cs with
    | [] => none
    | c :: r =>
      if c = '"' then (scanString r).map fun p => (.str p.1, p.2)
      else if c = '{' then
        if (skipWs r).head? = some '}' then some (.obj [], (skipWs r).tail)
        else (scanMembers (scanOnce n) r.length (skipWs r)).map fun p => (.obj (dictOf p.1), p.2)
      else if c = '[' then
        if (skipWs r).head? = some ']' then some (.arr [], (skipWs r).tail)
        else (scanItems (scanOnce n) r.length (skipWs r)).map fun p => (.arr p.1, p.2)
      else scanAtom cs

/-- `json.loads`: one value with whitespace around it; `none` is `JSONDecodeError`. -/
def loads (cs : List Char) : Option Json :=
  match scanOnce (cs.length + 1) (skipWs cs) with
  | some (v, r) => if skipWs r = [] then some v else none
  | none => none

/-! ## The values of a program -/

mutual

/-- A value a Python program can hold: strings of Unicode characters, the text of a float that is
one, and objects without a repeated key. -/
def isValid : Json → Bool
  | .null | .bool _ | .int _ => true
  | .float lit => scanAtom lit = some (.float lit, [])
  | .str s => decide s.Unicode
  | .arr xs => isValidItems xs
  | .obj kvs => decide (kvs.map Prod.fst).Nodup && isValidMembers kvs

def isValidItems : List Json → Bool
  | [] => true
  | x :: xs => isValid x && isValidItems xs

def isValidMembers : List (PyStr × Json) → Bool
  | [] => true
  | (k, v) :: kvs => decide k.Unicode && isValid v && isValidMembers kvs

end

/-- A value a Python program can hold. -/
def Valid (v : Json) : Prop := v.isValid = true

instance (v : Json) : Decidable v.Valid := inferInstanceAs (Decidable (_ = _))

end Json

/-- A JSON object: what a Python `dict` with string keys is to `json`. -/
structure JsonObject where
  members : List (PyStr × Json)
  valid : (Json.obj members).Valid
deriving DecidableEq

namespace JsonObject

def toJson (r : JsonObject) : Json := .obj r.members

theorem toJson_injective : Function.Injective toJson := by
  rintro ⟨kvs, h⟩ ⟨kvs', h'⟩ e
  cases e
  rfl

/-- Python's `d.get(key)`. -/
def get? (r : JsonObject) (k : PyStr) : Option Json := Json.get? k r.members

end JsonObject
