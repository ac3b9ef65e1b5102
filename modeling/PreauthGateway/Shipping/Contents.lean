import PreauthGateway.Shipping.SegmentedWal

/-!
# What a segmented log holds

Whatever the order in which the segments are listed, a log holds the records of all of them. An
append adds one record, and the deletion of a segment takes those of that segment away.

## Main definitions

* `SegmentedWal.Holds`: the log holds these records, in some order

## Main results

* `SegmentedWal.Holds.append`, `SegmentedWal.Holds.unlink`: what the operations do to them
* `SegmentedWal.Holds.records`: they are what `records` returns
-/

open Json

namespace SegmentedWal

variable {w : SegmentedWal} {rs : List JsonObject}

/-- Every segment holds whole records, and together these are `rs`. -/
def Holds (w : SegmentedWal) (rs : List JsonObject) : Prop :=
  ∃ part : ℕ → List JsonObject, (∀ n, w.segment n = logBytes (part n)) ∧
    (w.dir.keys.flatMap part).Perm rs

theorem segment_eq_nil {n : ℕ} (h : n ∉ w.dir) : w.segment n = [] := by
  rw [segment, AList.lookup_eq_none.mpr h]
  rfl

/-- A segment that is not there holds nothing. -/
theorem part_eq_nil {part : ℕ → List JsonObject} (hpart : ∀ n, w.segment n = logBytes (part n))
    {n : ℕ} (h : n ∉ w.dir) : part n = [] := by
  apply logBytes_injective
  rw [← hpart n, segment_eq_nil h, logBytes_nil]

/-- The records of a segment and those of the others. -/
theorem flatMap_keys_perm {d : SegmentDir} {n : ℕ} (hn : n ∈ d) (part : ℕ → List JsonObject) :
    (d.keys.flatMap part).Perm (part n ++ (d.keys.erase n).flatMap part) := by
  have hkeys : d.keys.Perm (n :: d.keys.erase n) := List.perm_cons_erase (AList.mem_keys.mp hn)
  exact hkeys.flatMap_right part

/-- What another function says of the other segments, when it differs at `n` only. -/
theorem flatMap_erase_congr {d : SegmentDir} {n : ℕ} (part : ℕ → List JsonObject)
    {part' : ℕ → List JsonObject} (h : ∀ m ≠ n, part' m = part m) :
    (d.keys.erase n).flatMap part' = (d.keys.erase n).flatMap part := by
  rw [List.flatMap_congr]
  intro m hm
  exact h m ((d.keys_nodup.mem_erase_iff.mp hm).1)

/-- The listing of the segments after an append: no other than the next one is new. -/
theorem flatMap_keys_append (hw : w.WellNumbered) (r : JsonObject) {part : ℕ → List JsonObject}
    (hpart : ∀ n ∉ w.dir, part n = []) :
    ((w.append r).dir.keys.flatMap part).Perm (w.dir.keys.flatMap part) := by
  have hmem (n : ℕ) : n ∈ (w.append r).dir.keys ↔ n ∈ w.dir.keys ∨ n = (w.append r).seq := by
    rw [AList.mem_keys.symm, AList.mem_keys.symm, mem_append hw.linked]
    constructor
    · rintro (h | rfl | h)
      · exact Or.inl h
      · exact Or.inl hw.active
      · exact Or.inr h
    · exact fun h => h.imp id Or.inr
  by_cases hnew : (w.append r).seq ∈ w.dir
  · have hperm : (w.append r).dir.keys.Perm w.dir.keys := by
      apply (List.perm_ext_iff_of_nodup (AList.keys_nodup _) (AList.keys_nodup _)).mpr
      intro n
      rw [hmem]
      constructor
      · rintro (h | rfl)
        · exact h
        · exact AList.mem_keys.mp hnew
      · exact Or.inl
    exact hperm.flatMap_right part
  · have hperm : (w.append r).dir.keys.Perm ((w.append r).seq :: w.dir.keys) := by
      apply (List.perm_ext_iff_of_nodup (AList.keys_nodup _) _).mpr
      · intro n
        rw [hmem, List.mem_cons, or_comm]
      · exact List.nodup_cons.mpr ⟨fun h => hnew (AList.mem_keys.mpr h), AList.keys_nodup _⟩
    apply (hperm.flatMap_right part).trans
    rw [List.flatMap_cons, hpart _ hnew, List.nil_append]

/-- **An append adds one record.** -/
theorem Holds.append (h : w.Holds rs) (hw : w.WellNumbered) (r : JsonObject) :
    (w.append r).Holds (rs ++ [r]) := by
  obtain ⟨part, hpart, hperm⟩ := h
  have hsegment (n : ℕ) : (w.append r).segment n =
      logBytes (part n ++ if n = w.seq then [r] else []) := by
    rw [segment_append hw.linked, hpart, logBytes_append]
    split
    · rfl
    · rw [logBytes_nil]
  refine ⟨_, hsegment, ?_⟩
  have hnone : ∀ n ∉ w.dir, (part n ++ if n = w.seq then [r] else []) = [] := by
    intro n hn
    have hne : n ≠ w.seq := by
      rintro rfl
      exact hn hw.active
    rw [part_eq_nil hpart hn, if_neg hne, List.append_nil]
  apply (flatMap_keys_append hw r hnone).trans
  apply (flatMap_keys_perm hw.active _).trans
  rw [flatMap_erase_congr part, if_pos rfl, List.append_assoc]
  · have hold := (flatMap_keys_perm hw.active part).symm.trans hperm
    have hmove : (part w.seq ++ ([r] ++ (w.dir.keys.erase w.seq).flatMap part)).Perm
        (part w.seq ++ (w.dir.keys.erase w.seq).flatMap part ++ [r]) := by
      rw [List.append_assoc]
      exact List.perm_append_comm.append_left _
    exact hmove.trans (hold.append_right [r])
  · intro m hm
    rw [if_neg hm, List.append_nil]

/-- **The deletion of a segment** takes its records away. -/
theorem Holds.unlink (h : w.Holds rs) {n : ℕ} {part : List JsonObject}
    (hn : w.segment n = logBytes part) (hne : part ≠ []) :
    ∃ rest, (w.unlink n).Holds rest ∧ rs.Perm (part ++ rest) := by
  obtain ⟨parts, hparts, hperm⟩ := h
  have hpart : parts n = part := logBytes_injective ((hparts n).symm.trans hn)
  have hmem : n ∈ w.dir := by
    by_contra hno
    exact hne (hpart.symm.trans (part_eq_nil hparts hno))
  have hkeys : (w.unlink n).dir.keys = w.dir.keys.erase n := AList.keys_erase n w.dir
  refine ⟨(w.dir.keys.erase n).flatMap parts, ⟨fun m => if m = n then [] else parts m, ?_, ?_⟩, ?_⟩
  · intro m
    dsimp only
    rw [segment_unlink]
    split
    · rw [logBytes_nil]
    · exact hparts m
  · rw [hkeys, flatMap_erase_congr parts]
    intro m hm
    rw [if_neg hm]
  · rw [← hpart]
    exact hperm.symm.trans (flatMap_keys_perm hmem parts)

/-- **`records` returns what the log holds**, in some order. -/
theorem Holds.records (h : w.Holds rs) :
    ∃ rs' : List JsonObject, w.records = .ok (rs'.map JsonObject.toJson) ∧ rs'.Perm rs := by
  obtain ⟨part, hpart, hperm⟩ := h
  refine ⟨(segments w.dir).flatMap part, ?_, ?_⟩
  · rw [SegmentedWal.records, readSegments_eq (f := fun n => (part n).map JsonObject.toJson),
      List.map_flatMap]
    intro n _
    rw [hpart, readSegment_logBytes]
  · have hsegs : (segments w.dir).Perm w.dir.keys := List.perm_insertionSort _ _
    exact (hsegs.flatMap_right part).trans hperm

/-- A new log holds nothing. -/
theorem holds_openAt (config : SegmentConfig) : (openAt config ∅).Holds [] := by
  refine ⟨fun _ => [], ?_, ?_⟩
  · intro n
    exact segment_openAt config ∅ n
  · rw [List.flatMap_eq_nil_iff.mpr fun _ _ => rfl]

end SegmentedWal
