import Mathlib

/-!
# Text files and their lines

A file is a list of bytes. Reading it as text decodes UTF-8 strictly and turns the line endings `\r`
and `\r\n` into `\n`, as Python's text mode does; `splitlines` and `strip` are the methods of `str`.

## Main definitions

* `Bytes`, `Utf8.encode`, `Utf8.decode`: bytes and the text they encode
* `readText`: `Path.read_text`
* `splitlines`, `strip`: the lines of a text, and a text without the spaces around it

## Main results

* `Utf8.decode_encode`: decoding undoes encoding
* `Utf8.prefix_encode`: a file of ASCII cut anywhere is the file of a text cut there
* `splitlines_line`: a text with a first line is that line and the lines of the rest
-/

/-- The contents of a file. -/
abbrev Bytes := List UInt8

/-! ## UTF-8 -/

namespace Utf8

/-- The bytes of a text. -/
def encode (cs : List Char) : Bytes := cs.flatMap String.utf8EncodeChar

/-- The text that bytes encode; `none` is a `UnicodeDecodeError`. -/
def decode (b : Bytes) : Option (List Char) := b.toByteArray.utf8Decode?.map Array.toList

@[simp] theorem encode_append (s t : List Char) : encode (s ++ t) = encode s ++ encode t :=
  List.flatMap_append

/-- **Decoding undoes encoding.** -/
@[simp] theorem decode_encode (cs : List Char) : decode (encode cs) = some cs := by
  have h : (encode cs).toByteArray = cs.utf8Encode := rfl
  rw [decode, h, List.utf8Decode?_utf8Encode]
  rfl

/-- A character that is one byte. -/
def IsAscii (c : Char) : Prop := c.toNat < 0x80

instance (c : Char) : Decidable (IsAscii c) := inferInstanceAs (Decidable (_ < _))

theorem encode_ascii {cs : List Char} (h : ∀ c ∈ cs, IsAscii c) :
    encode cs = cs.map fun c => c.toNat.toUInt8 := by
  induction cs with
  | nil => rfl
  | cons c cs ih =>
    have hc : c.utf8Size = 1 := by
      rw [Char.utf8Size_eq_one_iff]
      have : c.toNat < 0x80 := h c List.mem_cons_self
      exact UInt32.le_iff_toNat_le.mpr (Nat.le_of_lt_succ this)
    have he : encode (c :: cs) = String.utf8EncodeChar c ++ encode cs := rfl
    rw [he, String.utf8EncodeChar_eq_singleton hc, ih fun x hx => h x (List.mem_cons_of_mem _ hx)]
    rfl

theorem length_encode {cs : List Char} (h : ∀ c ∈ cs, IsAscii c) :
    (encode cs).length = cs.length := by
  rw [encode_ascii h, List.length_map]

/-- **A file of ASCII cut anywhere is the file of a text cut there.** -/
theorem prefix_encode {cs : List Char} (h : ∀ c ∈ cs, IsAscii c) {b : Bytes}
    (hb : b <+: encode cs) : ∃ t, t <+: cs ∧ b = encode t := by
  refine ⟨cs.take b.length, List.take_prefix _ _, ?_⟩
  rw [encode_ascii fun c hc => h c (List.mem_of_mem_take hc), List.map_take, ← encode_ascii h]
  exact List.prefix_iff_eq_take.mp hb

end Utf8

/-! ## Text mode -/

/-- The line endings `\r` and `\r\n` become `\n`. -/
def universalNewlines : List Char → List Char
  | [] => []
  | '\r' :: '\n' :: cs => '\n' :: universalNewlines cs
  | '\r' :: cs => '\n' :: universalNewlines cs
  | c :: cs => c :: universalNewlines cs

theorem universalNewlines_eq {cs : List Char} (h : '\r' ∉ cs) : universalNewlines cs = cs := by
  fun_induction universalNewlines cs with
  | case1 => rfl
  | case2 cs ih => exact absurd List.mem_cons_self h
  | case3 cs _ ih => exact absurd List.mem_cons_self h
  | case4 c cs _ _ ih => rw [ih fun hc => h (List.mem_cons_of_mem _ hc)]

/-- `Path.read_text(encoding="utf-8")`; `none` is a `UnicodeDecodeError`. -/
def readText (b : Bytes) : Option (List Char) := (Utf8.decode b).map universalNewlines

theorem readText_encode {cs : List Char} (h : '\r' ∉ cs) :
    readText (Utf8.encode cs) = some cs := by
  rw [readText, Utf8.decode_encode, Option.map_some, universalNewlines_eq h]

/-! ## Lines -/

/-- The characters that end a line for `str.splitlines`. -/
def isLineBreak (c : Char) : Bool :=
  c.toNat ∈ [0x0A, 0x0B, 0x0C, 0x0D, 0x1C, 0x1D, 0x1E, 0x85, 0x2028, 0x2029]

/-- `str.splitlines`; `\r\n` is one line break, and the text after the last one is a line unless it
is empty. -/
def splitlines : List Char → List (List Char)
  | [] => []
  | '\r' :: '\n' :: cs => [] :: splitlines cs
  | c :: cs =>
    if isLineBreak c then [] :: splitlines cs
    else
      match splitlines cs with
      | [] => [[c]]
      | l :: ls => (c :: l) :: ls

theorem splitlines_break {c : Char} (h : isLineBreak c = true) (hr : c ≠ '\r') (cs : List Char) :
    splitlines (c :: cs) = [] :: splitlines cs := by
  rw [splitlines.eq_def]
  split
  · rename_i e; cases e
  · rename_i e; cases e; exact absurd rfl hr
  · rename_i e; cases e; rw [if_pos h]

theorem splitlines_char {c : Char} (h : isLineBreak c = false) (cs : List Char) :
    splitlines (c :: cs) = match splitlines cs with
      | [] => [[c]]
      | l :: ls => (c :: l) :: ls := by
  rw [splitlines.eq_def]
  split
  · rename_i e; cases e
  · rename_i e; cases e; cases h
  · rename_i e; cases e; rw [h]; rfl

/-- A text with a first line is that line and the lines of the rest. -/
theorem splitlines_line {l : List Char} (h : ∀ c ∈ l, isLineBreak c = false) (cs : List Char) :
    splitlines (l ++ '\n' :: cs) = l :: splitlines cs := by
  induction l with
  | nil => exact splitlines_break rfl (by decide) cs
  | cons c l ih =>
    rw [List.cons_append, splitlines_char (h c List.mem_cons_self),
      ih fun x hx => h x (List.mem_cons_of_mem _ hx)]

/-- A text without line breaks is one line, unless it is empty. -/
theorem splitlines_unbroken {l : List Char} (h : ∀ c ∈ l, isLineBreak c = false) :
    splitlines l = if l = [] then [] else [l] := by
  induction l with
  | nil => rfl
  | cons c l ih =>
    rw [splitlines_char (h c List.mem_cons_self), ih fun x hx => h x (List.mem_cons_of_mem _ hx),
      if_neg (List.cons_ne_nil c l)]
    by_cases hl : l = []
    · rw [if_pos hl, hl]
    · rw [if_neg hl]

/-! ## Spaces -/

/-- `str.isspace`. -/
def isSpace (c : Char) : Bool :=
  (0x09 ≤ c.toNat && c.toNat ≤ 0x0D) || (0x1C ≤ c.toNat && c.toNat ≤ 0x20) ||
    c.toNat ∈ [0x85, 0xA0, 0x1680, 0x2028, 0x2029, 0x202F, 0x205F, 0x3000] ||
    (0x2000 ≤ c.toNat && c.toNat ≤ 0x200A)

/-- `str.strip`. -/
def strip (cs : List Char) : List Char := (cs.dropWhile isSpace).rdropWhile isSpace

/-- A text that begins with no space keeps its front. -/
theorem strip_cons_prefix {c : Char} (h : isSpace c = false) (cs : List Char) :
    strip (c :: cs) <+: c :: cs ∧ strip (c :: cs) ≠ [] := by
  rw [strip, List.dropWhile_cons_of_neg (by simp [h])]
  refine ⟨List.rdropWhile_prefix _ _, fun e => ?_⟩
  have hall := List.rdropWhile_eq_nil_iff.mp e c List.mem_cons_self
  rw [h] at hall
  cases hall

/-- A text with no space at either end is kept. -/
theorem strip_eq {c d : Char} (hc : isSpace c = false) (hd : isSpace d = false) {cs : List Char}
    (h : (c :: cs).getLast? = some d) : strip (c :: cs) = c :: cs := by
  rw [strip, List.dropWhile_cons_of_neg (by simp [hc])]
  refine List.rdropWhile_eq_self_iff.mpr fun hne => ?_
  rw [List.getLast?_eq_getLast_of_ne_nil hne] at h
  rw [Option.some.inj h, hd]
  decide
