import Mathlib

/-!
# Dictionaries in order of insertion

A Python `dict` keeps its keys in the order in which they were first set; setting a key again
changes its value in place.

## Main definitions

* `Dict`, `Dict.get?`, `Dict.set`, `Dict.update`

## Main results

* `Dict.get?_set_self`, `Dict.get?_set_of_ne`: what a set changes
* `Dict.sum_update`: the total of the values after an increment
-/

/-- A dictionary. -/
abbrev Dict (κ ν : Type*) := List (κ × ν)

namespace Dict

variable {κ ν : Type*} [DecidableEq κ]

/-- `d.get(k)`. -/
def get? (k : κ) : Dict κ ν → Option ν
  | [] => none
  | (l, v) :: d => if l = k then some v else get? k d

/-- `d[k] = v`. -/
def set (k : κ) (v : ν) : Dict κ ν → Dict κ ν
  | [] => [(k, v)]
  | (l, w) :: d => if l = k then (l, v) :: d else (l, w) :: set k v d

/-- `d[k] = f(d.get(k, default))`. -/
def update (k : κ) (default : ν) (f : ν → ν) (d : Dict κ ν) : Dict κ ν :=
  d.set k (f ((d.get? k).getD default))

theorem get?_cons_of_ne {k l : κ} {v : ν} (d : Dict κ ν) (h : l ≠ k) :
    get? k ((l, v) :: d) = get? k d := if_neg h

@[simp] theorem get?_set_self (k : κ) (v : ν) (d : Dict κ ν) : (d.set k v).get? k = some v := by
  induction d with
  | nil => simp [set, get?]
  | cons p d ih =>
    obtain ⟨l, w⟩ := p
    by_cases h : l = k
    · simp [set, get?, h]
    · rw [set, if_neg h, get?_cons_of_ne _ h, ih]

theorem get?_set_of_ne {k l : κ} {v : ν} {d : Dict κ ν} (h : l ≠ k) :
    (d.set k v).get? l = d.get? l := by
  induction d with
  | nil => simp [set, get?, h.symm]
  | cons p d ih =>
    obtain ⟨m, w⟩ := p
    by_cases hm : m = k
    · subst hm
      rw [set, if_pos rfl, get?_cons_of_ne _ h.symm, get?_cons_of_ne _ h.symm]
    · rw [set, if_neg hm]
      by_cases hl : m = l
      · simp [get?, hl]
      · rw [get?_cons_of_ne _ hl, get?_cons_of_ne _ hl, ih]

@[simp] theorem get?_update_self (k : κ) (default : ν) (f : ν → ν) (d : Dict κ ν) :
    (d.update k default f).get? k = some (f ((d.get? k).getD default)) := get?_set_self _ _ _

theorem get?_update_of_ne {k l : κ} {default : ν} {f : ν → ν} {d : Dict κ ν} (h : l ≠ k) :
    (d.update k default f).get? l = d.get? l := get?_set_of_ne h

theorem get?_eq_none {k : κ} {d : Dict κ ν} : d.get? k = none ↔ k ∉ d.map Prod.fst := by
  induction d with
  | nil => simp [get?]
  | cons p d ih =>
    obtain ⟨l, w⟩ := p
    by_cases h : l = k
    · simp [get?, h]
    · rw [get?_cons_of_ne _ h, ih]
      simp [Ne.symm h]

theorem mem_of_get? {k : κ} {v : ν} {d : Dict κ ν} (h : d.get? k = some v) : (k, v) ∈ d := by
  induction d with
  | nil => cases h
  | cons p d ih =>
    obtain ⟨l, w⟩ := p
    by_cases hl : l = k
    · rw [get?, if_pos hl] at h
      cases h
      rw [hl]
      exact List.mem_cons_self
    · rw [get?_cons_of_ne _ hl] at h
      exact List.mem_cons_of_mem _ (ih h)

theorem get?_eq_some_iff {k : κ} {v : ν} {d : Dict κ ν} (h : (d.map Prod.fst).Nodup) :
    d.get? k = some v ↔ (k, v) ∈ d := by
  refine ⟨mem_of_get?, fun hmem => ?_⟩
  induction d with
  | nil => cases hmem
  | cons p d ih =>
    obtain ⟨l, w⟩ := p
    obtain ⟨hl, hd⟩ := List.nodup_cons.mp h
    rcases List.mem_cons.mp hmem with heq | hmem
    · cases heq
      exact if_pos rfl
    · have hne : l ≠ k := by
        rintro rfl
        exact hl (List.mem_map.mpr ⟨_, hmem, rfl⟩)
      rw [get?_cons_of_ne _ hne, ih hd hmem]

theorem mem_map_fst_set {k l : κ} {v : ν} {d : Dict κ ν} :
    l ∈ (d.set k v).map Prod.fst ↔ l = k ∨ l ∈ d.map Prod.fst := by
  induction d with
  | nil => simp [set]
  | cons p d ih =>
    obtain ⟨m, w⟩ := p
    by_cases h : m = k
    · simp [set, h]
    · rw [set, if_neg h, List.map_cons, List.mem_cons, ih, List.map_cons, List.mem_cons]
      tauto

/-- A new key comes last. -/
theorem set_of_notMem {k : κ} {d : Dict κ ν} (h : k ∉ d.map Prod.fst) (v : ν) :
    d.set k v = d ++ [(k, v)] := by
  induction d with
  | nil => rfl
  | cons p d ih =>
    obtain ⟨l, w⟩ := p
    obtain ⟨hl, hd⟩ := not_or.mp (mt List.mem_cons.mpr h)
    rw [set, if_neg (Ne.symm hl), ih hd, List.cons_append]

/-- What is there after a set. -/
theorem mem_set {k : κ} {v : ν} {d : Dict κ ν} {p : κ × ν} (h : p ∈ d.set k v) :
    p = (k, v) ∨ p ∈ d := by
  induction d with
  | nil => exact Or.inl (List.mem_singleton.mp h)
  | cons q d ih =>
    obtain ⟨m, w⟩ := q
    by_cases hm : m = k
    · rw [set, if_pos hm] at h
      rcases List.mem_cons.mp h with rfl | h
      · exact Or.inl (by rw [hm])
      · exact Or.inr (List.mem_cons_of_mem _ h)
    · rw [set, if_neg hm] at h
      rcases List.mem_cons.mp h with rfl | h
      · exact Or.inr List.mem_cons_self
      · exact (ih h).imp id (List.mem_cons_of_mem _)

/-- What holds of all entries, of a new one and of a changed one holds after an update. -/
theorem forall_update {P : κ × ν → Prop} {k : κ} {default : ν} {f : ν → ν} {d : Dict κ ν}
    (h : ∀ p ∈ d, P p) (hnew : P (k, f default)) (hold : ∀ v, P (k, v) → P (k, f v)) :
    ∀ p ∈ d.update k default f, P p := by
  intro p hp
  rcases mem_set hp with rfl | hp
  · cases hg : d.get? k with
    | none => exact hnew
    | some v => exact hold v (h _ (mem_of_get? hg))
  · exact h p hp

/-- No key is there twice. -/
theorem nodup_set {d : Dict κ ν} (h : (d.map Prod.fst).Nodup) (k : κ) (v : ν) :
    ((d.set k v).map Prod.fst).Nodup := by
  induction d with
  | nil => simp [set]
  | cons p d ih =>
    obtain ⟨m, w⟩ := p
    obtain ⟨hm, hd⟩ := List.nodup_cons.mp h
    by_cases hk : m = k
    · rw [set, if_pos hk]
      exact h
    · rw [set, if_neg hk, List.map_cons, List.nodup_cons, mem_map_fst_set]
      exact ⟨not_or.mpr ⟨hk, hm⟩, ih hd⟩

/-- The total of the values after one of them is set. -/
theorem sum_set (k : κ) (n : ℕ) (d : Dict κ ℕ) :
    ((d.set k n).map Prod.snd).sum + (d.get? k).getD 0 = (d.map Prod.snd).sum + n := by
  induction d with
  | nil => simp [set, get?]
  | cons p d ih =>
    obtain ⟨l, w⟩ := p
    by_cases h : l = k
    · rw [set, if_pos h, get?, if_pos h]
      simp only [List.map_cons, List.sum_cons, Option.getD_some]
      omega
    · rw [set, if_neg h, get?_cons_of_ne _ h]
      simp only [List.map_cons, List.sum_cons]
      omega

/-- **The total of the values after an increment.** -/
theorem sum_update (k : κ) (n : ℕ) (d : Dict κ ℕ) :
    ((d.update k 0 (· + n)).map Prod.snd).sum = (d.map Prod.snd).sum + n := by
  have h := sum_set k ((d.get? k).getD 0 + n) d
  rw [update]
  omega

end Dict
