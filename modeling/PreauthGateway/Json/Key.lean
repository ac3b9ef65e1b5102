import PreauthGateway.Json.Decode
import PreauthGateway.Number.Double

/-!
# JSON values in Python sets

`None`, numbers and strings are hashable, lists and dicts are not. Two hashable values are one
element of a set when they are equal in Python, so `True`, `1` and `1.0` are the same element. The
decoder makes one `NaN` object, which equals itself. `sorted` compares numbers with numbers and
strings with strings, and raises a `TypeError` on a set that mixes them or mixes either with `None`.

## Main definitions

* `Json.Key`, `Json.key`: what a set compares
* `PySet`, `PySet.add`, `PySet.ofList`, `PySet.union`: sets of values
* `PySet.sorted`: `sorted` of a set

## Main results

* `PySet.mem_ofList`, `PySet.mem_union`: membership
* `PySet.sorted_perm`, `PySet.exists_sorted_iff`: sorting reorders, and when it raises
-/

namespace Json

/-! ## The value of a float -/

/-- The digits and the exponent of a float's text after its sign. -/
def decimal (cs : List Char) : ℚ :=
  let f := scanFraction (cs.dropWhile Char.isDigit)
  let whole := cs.takeWhile Char.isDigit
  let digits := whole ++ f.1.filter Char.isDigit
  let e := (scanExponent f.2).1
  let exponent := intOf (e.contains '-') (e.filter Char.isDigit)
  (Nat.ofDigitChars 10 digits 0 : ℚ) * (10 : ℚ) ^ (exponent - (f.1.filter Char.isDigit).length)

/-! ## Keys -/

/-- A hashable value up to Python's equality. -/
inductive Key
  | none
  | num (q : ℚ)
  | inf (neg : Bool)
  | nan
  | str (s : PyStr)
deriving DecidableEq

/-- The value of a float's text. -/
def floatKey (lit : List Char) : Key :=
  if lit = "NaN".toList then .nan
  else if lit = "Infinity".toList then .inf false
  else if lit = "-Infinity".toList then .inf true
  else
    match lit with
    | '-' :: cs => match Double.round (decimal cs) with
      | some q => .num (-q)
      | none => .inf true
    | cs => match Double.round (decimal cs) with
      | some q => .num q
      | none => .inf false

/-- What a set compares; `none` is the `TypeError` of an unhashable value. -/
def key : Json → Option Key
  | .null => some .none
  | .bool b => some (.num (if b then 1 else 0))
  | .int i => some (.num i)
  | .float lit => some (floatKey lit)
  | .str s => some (.str s)
  | .arr _ => none
  | .obj _ => none

@[simp] theorem key_str (s : PyStr) : key (.str s) = some (.str s) := rfl

theorem key_eq_str {v : Json} {s : PyStr} : key v = some (.str s) ↔ v = .str s := by
  refine ⟨fun h => ?_, fun h => by rw [h]; rfl⟩
  cases v with
  | str t =>
    cases h
    rfl
  | float lit =>
    have hf : ∀ lit, floatKey lit ≠ .str s := by
      intro lit
      unfold floatKey
      split_ifs
      iterate 3 exact nofun
      split <;> split <;> exact nofun
    exact absurd (Option.some.inj h) (hf lit)
  | null => cases h
  | bool b => cases h
  | int i => cases h
  | arr xs => cases h
  | obj kvs => cases h

namespace Key

/-- Values of one kind can be compared with `<`. -/
inductive Kind
  | none
  | num
  | str
deriving DecidableEq

def kind : Key → Kind
  | .none => .none
  | .num _ | .inf _ | .nan => .num
  | .str _ => .str

/-- The order `sorted` puts two keys of one kind in; a `NaN` is put last. -/
def le : Key → Key → Bool
  | .inf true, _ => true
  | .num p, .num q => p ≤ q
  | .num _, .inf false => true
  | .inf false, .inf false => true
  | .str s, .str t => s ≤ t
  | _, .nan => true
  | _, _ => false

end Key

end Json

/-! ## Sets -/

open Json

/-- A Python set of JSON values. -/
structure PySet where
  elems : List Json
  hashable : ∀ v ∈ elems, v.key ≠ none
  distinct : (elems.map key).Nodup

namespace PySet

/-- `k in s`. -/
def Mem (s : PySet) (k : Key) : Prop := some k ∈ s.elems.map key

instance (s : PySet) (k : Key) : Decidable (s.Mem k) := inferInstanceAs (Decidable (_ ∈ _))

def empty : PySet := ⟨[], by simp, by simp⟩

instance : Inhabited PySet := ⟨empty⟩

@[simp] theorem not_mem_empty (k : Key) : ¬ empty.Mem k := List.not_mem_nil

/-- `s.add(v)`; `none` is the `TypeError` of an unhashable value. -/
def add (s : PySet) (v : Json) : Option PySet :=
  if hv : v.key = none then none
  else if hm : v.key ∈ s.elems.map key then some s
  else some {
    elems := s.elems ++ [v]
    hashable := by
      intro w hw
      rcases List.mem_append.mp hw with hw | hw
      · exact s.hashable w hw
      · rw [List.mem_singleton.mp hw]
        exact hv
    distinct := by
      rw [List.map_append, List.nodup_append]
      refine ⟨s.distinct, by simp, fun a ha b hb e => ?_⟩
      rw [List.map_singleton, List.mem_singleton] at hb
      exact hm (hb ▸ e ▸ ha) }

/-- `set(vs)`. -/
def ofList (vs : List Json) : Option PySet := vs.foldlM add empty

/-- `s | t`. -/
def union (s t : PySet) : PySet where
  elems := s.elems ++ t.elems.filter fun v => v.key ∉ s.elems.map key
  hashable := by
    intro v hv
    rcases List.mem_append.mp hv with hv | hv
    · exact s.hashable v hv
    · exact t.hashable v (List.mem_of_mem_filter hv)
  distinct := by
    rw [List.map_append, List.nodup_append]
    refine ⟨s.distinct, t.distinct.sublist (List.filter_sublist.map _), fun a ha b hb e => ?_⟩
    obtain ⟨v, hv, rfl⟩ := List.mem_map.mp hb
    exact of_decide_eq_true (List.mem_filter.mp hv).2 (e ▸ ha)

/-- `sorted(s)`; `none` is the `TypeError` of two values that cannot be compared. -/
def sorted (s : PySet) : Option (List Json) :=
  if ∀ a ∈ s.elems, ∀ b ∈ s.elems, (a.key.map Key.kind) = (b.key.map Key.kind) then
    some (s.elems.insertionSort fun a b => (Option.map₂ Key.le a.key b.key).getD true = true)
  else none

theorem mem_add {s s' : PySet} {v : Json} (h : s.add v = some s') (k : Key) :
    s'.Mem k ↔ s.Mem k ∨ v.key = some k := by
  unfold add at h
  split at h
  · cases h
  split at h
  · rename_i hm
    cases h
    exact ⟨Or.inl, fun h => h.elim id fun hk => by rw [Mem, ← hk]; exact hm⟩
  · cases h
    simp only [Mem, List.map_append, List.map_singleton, List.mem_append, List.mem_singleton]
    exact or_congr_right eq_comm

theorem add_eq_none {s : PySet} {v : Json} : s.add v = none ↔ v.key = none := by
  unfold add
  split_ifs <;> simp_all

theorem foldlM_add {vs : List Json} {s s' : PySet} (h : vs.foldlM add s = some s') (k : Key) :
    s'.Mem k ↔ s.Mem k ∨ ∃ v ∈ vs, v.key = some k := by
  induction vs generalizing s with
  | nil =>
    cases h
    simp
  | cons v vs ih =>
    rw [List.foldlM_cons] at h
    obtain ⟨t, ht, h⟩ := Option.bind_eq_some_iff.mp h
    rw [ih h, mem_add ht, List.exists_mem_cons_iff, or_assoc]

/-- The elements of `set(vs)`. -/
theorem mem_ofList {vs : List Json} {s : PySet} (h : ofList vs = some s) (k : Key) :
    s.Mem k ↔ ∃ v ∈ vs, v.key = some k := by
  rw [foldlM_add h]
  simp

theorem foldlM_add_eq_none {vs : List Json} {s : PySet} :
    vs.foldlM add s = none ↔ ∃ v ∈ vs, v.key = none := by
  induction vs generalizing s with
  | nil => simp
  | cons v vs ih =>
    rw [List.foldlM_cons, List.exists_mem_cons_iff]
    cases ha : s.add v with
    | none => simp [add_eq_none.mp ha]
    | some t =>
      have hv : v.key ≠ none := fun e => by rw [add_eq_none.mpr e] at ha; cases ha
      rw [← ih (s := t)]
      simp [hv]

/-- `set(vs)` raises exactly when a value is unhashable. -/
theorem ofList_eq_none {vs : List Json} : ofList vs = none ↔ ∃ v ∈ vs, v.key = none :=
  foldlM_add_eq_none

theorem exists_ofList {vs : List Json} (h : ∀ v ∈ vs, v.key ≠ none) :
    ∃ s, ofList vs = some s := by
  cases hs : ofList vs with
  | some s => exact ⟨s, rfl⟩
  | none =>
    obtain ⟨v, hv, hk⟩ := ofList_eq_none.mp hs
    exact absurd hk (h v hv)

theorem elems_add {s s' : PySet} {v : Json} (h : s.add v = some s') :
    ∀ w ∈ s'.elems, w ∈ s.elems ∨ w = v := by
  unfold add at h
  split at h
  · cases h
  split at h
  · cases h
    exact fun w hw => Or.inl hw
  · cases h
    intro w hw
    simpa using hw

theorem elems_foldlM_add {vs : List Json} {s s' : PySet} (h : vs.foldlM add s = some s') :
    ∀ w ∈ s'.elems, w ∈ s.elems ∨ w ∈ vs := by
  induction vs generalizing s with
  | nil =>
    cases h
    exact fun w hw => Or.inl hw
  | cons v vs ih =>
    rw [List.foldlM_cons] at h
    obtain ⟨t, ht, h⟩ := Option.bind_eq_some_iff.mp h
    intro w hw
    rcases ih h w hw with hw | hw
    · rcases elems_add ht w hw with hw | rfl
      · exact Or.inl hw
      · exact Or.inr List.mem_cons_self
    · exact Or.inr (List.mem_cons_of_mem _ hw)

theorem elems_ofList {vs : List Json} {s : PySet} (h : ofList vs = some s) :
    ∀ w ∈ s.elems, w ∈ vs := fun w hw =>
  (elems_foldlM_add h w hw).resolve_left List.not_mem_nil

theorem mem_union (s t : PySet) (k : Key) : (s.union t).Mem k ↔ s.Mem k ∨ t.Mem k := by
  simp only [Mem, union, List.map_append, List.mem_append, List.mem_map, List.mem_filter,
    decide_eq_true_eq]
  refine ⟨?_, ?_⟩
  · rintro (h | ⟨v, ⟨hv, -⟩, hk⟩)
    · exact Or.inl h
    · exact Or.inr ⟨v, hv, hk⟩
  · rintro (h | ⟨v, hv, hk⟩)
    · exact Or.inl h
    · by_cases hs : ∃ a ∈ s.elems, a.key = v.key
      · exact Or.inl (hk ▸ hs)
      · exact Or.inr ⟨v, ⟨hv, hs⟩, hk⟩

theorem elems_union {s t : PySet} {v : Json} (h : v ∈ (s.union t).elems) :
    v ∈ s.elems ∨ v ∈ t.elems :=
  (List.mem_append.mp h).imp id List.mem_of_mem_filter

/-- Sorting reorders. -/
theorem sorted_perm {s : PySet} {l : List Json} (h : s.sorted = some l) : l.Perm s.elems := by
  unfold sorted at h
  split at h
  · cases h
    exact List.perm_insertionSort _ _
  · cases h

theorem mem_sorted {s : PySet} {l : List Json} (h : s.sorted = some l) (v : Json) :
    v ∈ l ↔ v ∈ s.elems := (sorted_perm h).mem_iff

/-- Sorting raises exactly when two elements are of different kinds. -/
theorem exists_sorted_iff {s : PySet} :
    (∃ l, s.sorted = some l) ↔ ∀ j k, s.Mem j → s.Mem k → j.kind = k.kind := by
  unfold sorted
  split
  · rename_i h
    refine ⟨fun _ j k hj hk => ?_, fun _ => ⟨_, rfl⟩⟩
    obtain ⟨a, ha, ea⟩ := List.mem_map.mp hj
    obtain ⟨b, hb, eb⟩ := List.mem_map.mp hk
    simpa [ea, eb] using h a ha b hb
  · rename_i h
    refine ⟨nofun, fun hk => absurd (fun a ha b hb => ?_) h⟩
    obtain ⟨j, hj⟩ := Option.ne_none_iff_exists'.mp (s.hashable a ha)
    obtain ⟨k, hk'⟩ := Option.ne_none_iff_exists'.mp (s.hashable b hb)
    rw [hj, hk', Option.map_some, Option.map_some, hk j k]
    · exact List.mem_map.mpr ⟨a, ha, hj⟩
    · exact List.mem_map.mpr ⟨b, hb, hk'⟩

/-- The list that is sorted has the elements of the set. -/
theorem ofList_sorted {s : PySet} {l : List Json} (h : s.sorted = some l) :
    ∃ t, ofList l = some t ∧ ∀ k, t.Mem k ↔ s.Mem k := by
  obtain ⟨t, ht⟩ := exists_ofList fun v hv => s.hashable v ((mem_sorted h v).mp hv)
  refine ⟨t, ht, fun k => ?_⟩
  rw [mem_ofList ht, Mem, List.mem_map]
  simp only [mem_sorted h]

end PySet
