import PreauthGateway.Json.Sound
import PreauthGateway.Wal.Records

/-!
# The watermark

The durable set of acknowledged ids. It is written sorted, to a temporary file that then replaces
the old one. A missing file, one that is no JSON and one without the key `"shipped"` all read as the
empty set; any other shape raises.

## Main definitions

* `Watermark.read`, `Watermark.payload`: `Watermark.read`, and what `Watermark.write` writes

## Main results

* `Watermark.read_payload`: **what was written is read back**
* `Watermark.exists_payload_iff`: a set is written exactly when it can be sorted
-/

open Json

namespace Watermark

/-- The key `"shipped"`. -/
def shippedKey : PyStr := PyStr.ofString "shipped"

/-- `set(…)` of a list of ids, or a `TypeError`. -/
def setOf (xs : List Json) : Except PyError PySet :=
  match PySet.ofList xs with
  | some ids => .ok ids
  | none => .error .typeError

/-- `set(x)` of any value: a list, the characters of a string, or the keys of an object. -/
def iterate : Json → Except PyError PySet
  | .arr xs => setOf xs
  | .str s => setOf (s.map fun c => .str [c])
  | .obj kvs => setOf (kvs.map fun p => .str p.1)
  | _ => .error .typeError

/-- `set(value["shipped"])`, where a missing key reads as the empty set. -/
def shippedIn : Json → Except PyError PySet
  | .obj kvs =>
    match Json.get? shippedKey kvs with
    | some x => iterate x
    | none => .ok .empty
  | _ => .error .typeError

/-- `read`, on the contents of the file. -/
def read : Option Bytes → Except PyError PySet
  | none => .ok .empty
  | some b =>
    match readText b with
    | none => .error .unicodeDecodeError
    | some t =>
      match loads t with
      | none => .ok .empty
      | some v => shippedIn v

/-- The object that `write` writes. -/
def document (ids : List Json) : Json := .obj [(shippedKey, .arr ids)]

/-- The contents of the file that `write` writes; sorting raises on ids of different kinds. -/
def payload (ids : PySet) : Except PyError Bytes :=
  match ids.sorted with
  | some l => .ok (Utf8.encode (dumps .spaced (document l)))
  | none => .error .typeError

theorem document_valid {ids : List Json} (h : ∀ v ∈ ids, v.Valid) : (document ids).Valid := by
  have hk : shippedKey.Unicode := by decide +kernel
  rw [document, valid_obj]
  refine ⟨List.nodup_singleton _, isValidMembers_cons.mpr ⟨hk, ?_, rfl⟩⟩
  show isValid (.arr ids) = true
  rw [isValid, isValidItems_iff]
  exact h

theorem readText_dumps (l : Layout) {v : Json} (h : v.Valid) :
    readText (Utf8.encode (dumps l v)) = some (dumps l v) := by
  apply readText_encode
  intro hr
  exact absurd (dumps_printable l v h _ hr) (by decide)

/-- **What was written is read back**, as a set. -/
theorem read_payload {ids : PySet} {b : Bytes} (hv : ∀ v ∈ ids.elems, v.Valid)
    (h : payload ids = .ok b) :
    ∃ ids', read (some b) = .ok ids' ∧ (∀ k, ids'.Mem k ↔ ids.Mem k) ∧
      ∀ v ∈ ids'.elems, v ∈ ids.elems := by
  unfold payload at h
  split at h
  · rename_i l hl
    cases h
    have hvalid := document_valid fun v hm => hv v ((PySet.mem_sorted hl v).mp hm)
    obtain ⟨t, ht, hmem⟩ := PySet.ofList_sorted hl
    refine ⟨t, ?_, hmem, ?_⟩
    · rw [read, readText_dumps _ hvalid]
      dsimp only
      rw [loads_dumps _ hvalid]
      simp only [document, shippedIn, Json.get?, if_true, iterate, setOf, ht]
    · intro v hm
      exact (PySet.mem_sorted hl v).mp (PySet.elems_ofList ht v hm)
  · cases h

/-- **A set is written exactly when it can be sorted**: when its ids are of one kind. -/
theorem exists_payload_iff (ids : PySet) :
    (∃ b, payload ids = .ok b) ↔ ∀ j k, ids.Mem j → ids.Mem k → j.kind = k.kind := by
  rw [← PySet.exists_sorted_iff]
  unfold payload
  constructor
  · rintro ⟨b, hb⟩
    split at hb
    · rename_i l hl
      exact ⟨l, hl⟩
    · cases hb
  · rintro ⟨l, hl⟩
    rw [hl]
    exact ⟨_, rfl⟩

/-! ## The ids that are read are values -/

theorem get?_valid {kvs : List (PyStr × Json)} {k : PyStr} {v : Json} (h : (obj kvs).Valid)
    (hv : Json.get? k kvs = some v) : v.Valid := by
  have hm := isValidMembers_iff.mp (valid_obj.mp h).2
  clear h
  induction kvs with
  | nil => cases hv
  | cons p kvs ih =>
    obtain ⟨l, w⟩ := p
    rw [Json.get?] at hv
    split at hv
    · cases hv
      exact (hm _ List.mem_cons_self).2
    · exact ih hv fun q hq => hm q (List.mem_cons_of_mem _ hq)

theorem setOf_elems {xs : List Json} {ids : PySet} (h : setOf xs = .ok ids) :
    ∀ v ∈ ids.elems, v ∈ xs := by
  unfold setOf at h
  split at h
  · rename_i t ht
    cases h
    exact PySet.elems_ofList ht
  · cases h

theorem iterate_valid {x : Json} {ids : PySet} (hx : x.Valid) (h : iterate x = .ok ids) :
    ∀ v ∈ ids.elems, v.Valid := by
  have hstr (s : PyStr) (hs : s.Unicode) : (Json.str s).Valid := by
    show isValid (.str s) = true
    rw [isValid, decide_eq_true_eq]
    exact hs
  intro v hv
  cases x with
  | arr xs =>
    exact isValidItems_iff.mp (by rwa [Valid, isValid] at hx) v (setOf_elems h v hv)
  | str s =>
    obtain ⟨c, -, rfl⟩ := List.mem_map.mp (setOf_elems h v hv)
    exact hstr [c] (PyStr.unicode_singleton c)
  | obj kvs =>
    obtain ⟨p, hp, rfl⟩ := List.mem_map.mp (setOf_elems h v hv)
    exact hstr p.1 (isValidMembers_iff.mp (valid_obj.mp hx).2 p hp).1
  | null => cases h
  | bool b => cases h
  | int i => cases h
  | float lit => cases h

/-- The ids that are read can be written again. -/
theorem read_valid {file : Option Bytes} {ids : PySet} (h : read file = .ok ids) :
    ∀ v ∈ ids.elems, v.Valid := by
  have hempty : ∀ v ∈ PySet.empty.elems, v.Valid := by simp [PySet.empty]
  cases file with
  | none =>
    cases h
    exact hempty
  | some b =>
    rw [read] at h
    split at h
    · cases h
    split at h
    · cases h
      exact hempty
    · rename_i v hv
      cases v with
      | obj kvs =>
        rw [shippedIn] at h
        split at h
        · rename_i x hx
          exact iterate_valid (get?_valid (loads_valid hv) hx) h
        · cases h
          exact hempty
      -- no other document has a method `get`
      | null => cases h
      | bool b => cases h
      | int i => cases h
      | float lit => cases h
      | str s => cases h
      | arr xs => cases h

end Watermark

theorem JsonObject.decisionId_valid (r : JsonObject) : r.decisionId.Valid := by
  rw [JsonObject.decisionId]
  cases h : r.get? decisionIdKey with
  | none => rfl
  | some v => exact Watermark.get?_valid r.valid h
