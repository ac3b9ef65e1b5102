import PreauthGateway.Shipping.Truncation

/-!
# What a truncation deletes

Whatever the watermark holds, a truncation deletes some segments, none of them the active one, and
leaves the rest of the log as it is. It may do so and then raise, on a later segment.

## Main definitions

* `SegmentedWal.unlinkAll`: the deletion of some segments
* `Shipping.reclaim`: the world after it

## Main results

* `SegmentedWal.mem_unlinkAll`, `SegmentedWal.lookup_unlinkAll`: what is left
* `exec_truncate_reclaims`: **a truncation deletes segments and does nothing else**
* `exec_truncateSegments_clean`: which ones, where all records are acknowledged
-/

open Json

namespace SegmentedWal

variable {w : SegmentedWal}

/-- `unlink` of some segment files. -/
def unlinkAll (w : SegmentedWal) (ds : List ℕ) : SegmentedWal := ds.foldl (fun w n => w.unlink n) w

theorem unlinkAll_cons (w : SegmentedWal) (n : ℕ) (ds : List ℕ) :
    w.unlinkAll (n :: ds) = (w.unlink n).unlinkAll ds := rfl

@[simp] theorem seq_unlinkAll (w : SegmentedWal) (ds : List ℕ) : (w.unlinkAll ds).seq = w.seq := by
  induction ds generalizing w with
  | nil => rfl
  | cons n ds ih => exact ih _

theorem mem_unlinkAll {ds : List ℕ} {n : ℕ} :
    n ∈ (w.unlinkAll ds).dir ↔ n ∉ ds ∧ n ∈ w.dir := by
  induction ds generalizing w with
  | nil => simp [unlinkAll]
  | cons m ds ih =>
    have hmem : n ∈ (w.unlink m).dir ↔ n ≠ m ∧ n ∈ w.dir := AList.mem_erase
    rw [unlinkAll_cons, ih, hmem, List.mem_cons]
    tauto

/-- A segment that is not deleted keeps its contents. -/
theorem lookup_unlinkAll {ds : List ℕ} {n : ℕ} (h : n ∉ ds) :
    (w.unlinkAll ds).dir.lookup n = w.dir.lookup n := by
  induction ds generalizing w with
  | nil => rfl
  | cons m ds ih =>
    rw [List.mem_cons, not_or] at h
    rw [unlinkAll_cons, ih h.2]
    exact AList.lookup_erase_ne h.1

theorem segment_unlinkAll {ds : List ℕ} {n : ℕ} (h : n ∉ ds) :
    (w.unlinkAll ds).segment n = w.segment n := by
  rw [segment, lookup_unlinkAll h, segment]

theorem WellNumbered.unlinkAll (h : w.WellNumbered) {ds : List ℕ} (hds : w.seq ∉ ds) :
    (w.unlinkAll ds).WellNumbered := by
  induction ds generalizing w with
  | nil => exact h
  | cons n ds ih =>
    rw [List.mem_cons, not_or] at hds
    exact ih (h.unlink (Ne.symm hds.1)) hds.2

end SegmentedWal

namespace Shipping

/-- The world after some segments were deleted, with the counters `st`. -/
def reclaim (s : World) (ds : List ℕ) (st : ShipperStats) : World :=
  { s with wal := s.wal.unlinkAll ds, stats := st }

theorem reclaim_unlinkIn (s : World) (n : ℕ) (ds : List ℕ) (st st' : ShipperStats) :
    reclaim (unlinkIn s n st) ds st' = reclaim s (n :: ds) st' := rfl

/-- The loop of a truncation, whether it returns or raises. -/
theorem exec_truncateSegments_reclaims (sink : Sink) (acked : PySet) (active : ℕ) (ns : List ℕ)
    (deleted : ℕ) (s : World) :
    ∃ ds st, (Prog.exec (serve sink) (Shipper.truncateSegments acked active ns deleted) s).2 =
        reclaim s ds st ∧
      ∀ n ∈ ds, n ∈ ns ∧ n ≠ active := by
  induction ns generalizing deleted s with
  | nil => exact ⟨[], s.stats, rfl, by simp⟩
  | cons n ns ih =>
    have hstay : ∃ ds st, (Prog.exec (serve sink)
        (Shipper.truncateSegments acked active ns deleted) s).2 = reclaim s ds st ∧
          ∀ m ∈ ds, m ∈ n :: ns ∧ m ≠ active := by
      obtain ⟨ds, st, hexec, hds⟩ := ih deleted s
      exact ⟨ds, st, hexec, fun m hm => (hds m hm).imp_left (List.mem_cons_of_mem _)⟩
    have hraise : ∃ ds st, s = reclaim s ds st ∧ ∀ m ∈ ds, m ∈ n :: ns ∧ m ≠ active :=
      ⟨[], s.stats, rfl, by simp⟩
    rw [Shipper.truncateSegments]
    split
    · exact hstay
    rename_i hne
    rw [Prog.exec_bind, exec_readSegment]
    cases SegmentedWal.readSegment (s.wal.segment n) with
    | error e => exact hraise
    | ok recs =>
      rw [Prog.andThen]
      split
      · exact hstay
      cases hall : allIn acked recs with
      | error e => exact hraise
      | ok b =>
        cases b with
        | false => exact hstay
        | true =>
          obtain ⟨ds, st, hexec, hds⟩ := ih (deleted + 1) (unlinkIn s n
            ((s.stats.add (s.wal.segment n).length .bytesReclaimed).add 1 .segmentsDeleted))
          refine ⟨n :: ds, st, hexec, fun m hm => ?_⟩
          rcases List.mem_cons.mp hm with rfl | hm
          · exact ⟨List.mem_cons_self, hne⟩
          · exact (hds m hm).imp_left (List.mem_cons_of_mem _)

/-- **A truncation deletes segments and does nothing else**; the active one stays. -/
theorem exec_truncate_reclaims (sink : Sink) (s : World) :
    ∃ ds st, (Prog.exec (serve sink) Shipper.truncate s).2 = reclaim s ds st ∧
      ∀ n ∈ ds, n ∈ s.wal.dir ∧ n ≠ s.wal.seq := by
  rw [Shipper.truncate, Prog.exec_bind, exec_readWatermark]
  cases Watermark.read s.watermark with
  | error e => exact ⟨[], s.stats, rfl, by simp⟩
  | ok acked =>
    rw [Prog.andThen, exec_ask_bind, exec_ask_bind]
    obtain ⟨ds, st, hexec, hds⟩ :=
      exec_truncateSegments_reclaims sink acked s.wal.seq (segments s.wal.dir) 0 s
    exact ⟨ds, st, hexec, fun n hn => (hds n hn).imp_left mem_segments.mp⟩

/-- The segments that a truncation deletes when every record is acknowledged: those that are not
active and hold a record. -/
def reclaimable (recsOf : ℕ → List JsonObject) (active : ℕ) (ns : List ℕ) : List ℕ :=
  ns.filter fun n => n ≠ active ∧ recsOf n ≠ []

theorem mem_reclaimable {recsOf : ℕ → List JsonObject} {active n : ℕ} {ns : List ℕ} :
    n ∈ reclaimable recsOf active ns ↔ n ∈ ns ∧ n ≠ active ∧ recsOf n ≠ [] := by
  simp [reclaimable]

/-- **The loop where every record is acknowledged**, over segments of any contents. -/
theorem exec_truncateSegments_clean (sink : Sink) {acked : PySet} (active : ℕ) {ns : List ℕ}
    (hnodup : ns.Nodup) (deleted : ℕ) (s : World) {recsOf : ℕ → List JsonObject}
    (hns : ∀ n ∈ ns, SegmentedWal.readSegment (s.wal.segment n) =
      .ok ((recsOf n).map JsonObject.toJson) ∧ ∀ r ∈ recsOf n, r.Acked acked) :
    ∃ st, Prog.exec (serve sink) (Shipper.truncateSegments acked active ns deleted) s =
      (.ok (deleted + (reclaimable recsOf active ns).length),
        reclaim s (reclaimable recsOf active ns) st) := by
  induction ns generalizing deleted s with
  | nil => exact ⟨s.stats, rfl⟩
  | cons n ns ih =>
    have hrest := fun m (hm : m ∈ ns) => hns m (List.mem_cons_of_mem _ hm)
    obtain ⟨hn, hnodup⟩ := List.nodup_cons.mp hnodup
    obtain ⟨hread, hall⟩ := hns n List.mem_cons_self
    rw [Shipper.truncateSegments]
    split
    · rename_i he
      have hskip : reclaimable recsOf active (n :: ns) = reclaimable recsOf active ns := by
        rw [reclaimable, List.filter_cons_of_neg (by simp [he]), reclaimable]
      rw [hskip]
      exact ih hnodup deleted s hrest
    rename_i hne
    rw [Prog.exec_bind, exec_readSegment, hread, Prog.andThen]
    split
    · rename_i h0
      have hskip : reclaimable recsOf active (n :: ns) = reclaimable recsOf active ns := by
        rw [reclaimable, List.filter_cons_of_neg (by simp [List.map_eq_nil_iff.mp h0]), reclaimable]
      rw [hskip]
      exact ih hnodup deleted s hrest
    · rename_i h0
      have htake : reclaimable recsOf active (n :: ns) = n :: reclaimable recsOf active ns := by
        rw [reclaimable, List.filter_cons_of_pos
          (by simp [hne, show recsOf n ≠ [] from fun h => h0 (by rw [h]; rfl)]), reclaimable]
      rw [allIn_of_acked hall, htake]
      obtain ⟨st, hexec⟩ := ih hnodup (deleted + 1) (unlinkIn s n
        ((s.stats.add (s.wal.segment n).length .bytesReclaimed).add 1 .segmentsDeleted)) (by
        intro m hm
        have hmn : m ≠ n := by
          rintro rfl
          exact hn hm
        rw [segment_unlinkIn, if_neg hmn]
        exact hrest m hm)
      refine ⟨st, hexec.trans ?_⟩
      rw [reclaim_unlinkIn, List.length_cons]
      congr 2
      omega

end Shipping
