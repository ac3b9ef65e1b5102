import PreauthGateway.Json.Key
import PreauthGateway.Json.Lines

/-!
# Records and their ids

A record of a log is matched with what was shipped by its `decision_id`. A record without one
counts as one whose id is `None`; a record that is no object has no `get`, and an id that is a list
or an object cannot be looked up in a set.

## Main definitions

* `PyError`: the exceptions the code lets through
* `getDecisionId`, `idIn`, `notIn`: `r.get("decision_id")`, its membership, and the records outside
* `JsonObject.decisionId`, `JsonObject.Hashable`: the id of an object

## Main results

* `notIn_eq`: over objects with hashable ids, `notIn` is a filter
-/

open Json

/-- The exceptions the code lets through. -/
inductive PyError
  | attributeError
  | keyError
  | typeError
  | unicodeDecodeError
  | recursionError
  | valueError (text : String)
deriving DecidableEq

/-- The key `"decision_id"`. -/
def decisionIdKey : PyStr := PyStr.ofString "decision_id"

/-- `r.get("decision_id")`. -/
def getDecisionId : Json → Except PyError Json
  | .obj kvs => .ok ((Json.get? decisionIdKey kvs).getD .null)
  | _ => .error .attributeError

/-- `hash(v)`. -/
def hashKey (v : Json) : Except PyError Key :=
  match v.key with
  | some k => .ok k
  | none => .error .typeError

/-- `r.get("decision_id") in ids`. -/
def idIn (ids : PySet) (r : Json) : Except PyError Bool := do
  let k ← hashKey (← getDecisionId r)
  return decide (ids.Mem k)

/-- `[r for r in records if r.get("decision_id") not in ids]`. -/
def notIn (ids : PySet) : List Json → Except PyError (List Json)
  | [] => .ok []
  | r :: rs => do
    let b ← idIn ids r
    let rest ← notIn ids rs
    return if b then rest else r :: rest

namespace JsonObject

/-- `r.get("decision_id")` of an object. -/
def decisionId (r : JsonObject) : Json := (r.get? decisionIdKey).getD .null

/-- The id of `r` can be looked up in a set. -/
def Hashable (r : JsonObject) : Prop := r.decisionId.key ≠ none

instance (r : JsonObject) : Decidable r.Hashable := inferInstanceAs (Decidable (_ ≠ _))

/-- The id of `r` is in the set. -/
def Acked (ids : PySet) (r : JsonObject) : Prop := ∃ k, r.decisionId.key = some k ∧ ids.Mem k

instance (ids : PySet) (r : JsonObject) : Decidable (r.Acked ids) :=
  match h : r.decisionId.key with
  | none => isFalse (by rintro ⟨k, hk, -⟩; rw [h] at hk; cases hk)
  | some k => decidable_of_iff (ids.Mem k) (by simp [Acked, h])

/-- `{"decision_id": s}`. -/
def withId (s : PyStr) (h : s.Unicode) : JsonObject :=
  ⟨[(decisionIdKey, .str s)], by
    have hk : decisionIdKey.Unicode := by decide +kernel
    simp [Valid, isValid, isValidMembers, hk, h]⟩

@[simp] theorem decisionId_withId {s : PyStr} (h : s.Unicode) :
    (withId s h).decisionId = .str s := by
  simp [decisionId, JsonObject.get?, withId, Json.get?]

theorem getDecisionId_toJson (r : JsonObject) : getDecisionId r.toJson = .ok r.decisionId := rfl

theorem acked_iff_of_key {ids : PySet} {r : JsonObject} {k : Key} (h : r.decisionId.key = some k) :
    r.Acked ids ↔ ids.Mem k := by
  simp [Acked, h]

end JsonObject

theorem idIn_of_key {ids : PySet} {r : JsonObject} {k : Key} (h : r.decisionId.key = some k) :
    idIn ids r.toJson = .ok (decide (ids.Mem k)) := by
  simp only [idIn, JsonObject.getDecisionId_toJson, hashKey, bind, Except.bind, h]
  rfl

theorem idIn_of_unhashable {ids : PySet} {r : JsonObject} (h : r.decisionId.key = none) :
    idIn ids r.toJson = .error .typeError := by
  simp only [idIn, JsonObject.getDecisionId_toJson, hashKey, bind, Except.bind, h]

theorem idIn_toJson {ids : PySet} {r : JsonObject} (h : r.Hashable) :
    idIn ids r.toJson = .ok (decide (r.Acked ids)) := by
  obtain ⟨k, hk⟩ := Option.ne_none_iff_exists'.mp h
  have hm : r.Acked ids ↔ ids.Mem k := JsonObject.acked_iff_of_key hk
  rw [idIn_of_key hk]
  simp only [hm]

theorem acked_of_idIn {ids : PySet} {r : JsonObject} (h : idIn ids r.toJson = .ok true) :
    r.Acked ids := by
  cases hk : r.decisionId.key with
  | none =>
    rw [idIn_of_unhashable hk] at h
    cases h
  | some k =>
    rw [idIn_of_key hk] at h
    exact ⟨k, hk, of_decide_eq_true (Except.ok.inj h)⟩

/-- **Over objects with hashable ids, `notIn` is a filter.** -/
theorem notIn_eq {ids : PySet} {rs : List JsonObject} (h : ∀ r ∈ rs, r.Hashable) :
    notIn ids (rs.map JsonObject.toJson) =
      .ok ((rs.filter fun r => ¬ r.Acked ids).map JsonObject.toJson) := by
  induction rs with
  | nil => rfl
  | cons r rs ih =>
    have hr : idIn ids r.toJson = .ok (decide (r.Acked ids)) := idIn_toJson (h r List.mem_cons_self)
    rw [List.map_cons, notIn, hr, ih fun s hs => h s (List.mem_cons_of_mem _ hs)]
    by_cases ha : r.Acked ids
    · rw [List.filter_cons_of_neg (by simpa using ha)]
      simp only [ha, decide_true, bind, Except.bind, if_true]
      rfl
    · rw [List.filter_cons_of_pos (by simpa using ha)]
      simp only [ha, decide_false, bind, Except.bind]
      rfl
