import PreauthGateway.Shipping.Deletion
import PreauthGateway.Shipping.Rejection

/-!
# A pass with a sink that answers

A sink that never raises `SinkError` either takes a batch or rejects it, and then takes or rejects
each of its records. Either way every record that was pending is acknowledged. So the truncation
after the pass deletes every segment that is not active and holds a record, however the records lie
in segments and batches and whichever of them are rejected.

## Main definitions

* `Sink.Answers`: a sink that never raises `SinkError`
* `Legible`: the records that can be read of each segment have string ids

## Main results

* `deliver_settled`: a sink that answers settles all that is sent
* `exec_shipOnce_clean`, `exec_truncate_clean`: the two halves of a pass
* `run_reclaims`: **a clean pass reclaims the disk**
-/

open Json

namespace Shipping

/-- The sink takes what it is sent, or rejects it for good. -/
def Sink.Answers (sink : Sink) : Prop := ∀ hist batch, (sink hist batch).result ≠ .error

section Deliver

variable {sink : Sink} (h : sink.Answers)

include h

theorem deliverEach_settled (hist : List (List Json × SinkAnswer)) (rs : List Json) :
    (deliverEach sink hist rs).settled = rs := by
  induction rs generalizing hist with
  | nil => rfl
  | cons r rs ih =>
    rw [deliverEach, Delivery.append_settled, ih]
    cases hr : (sink hist [r]).result with
    | returned => rfl
    | rejected => rfl
    | error => exact absurd hr (h hist [r])

theorem deliverBatch_settled (batch : List Json) {attempts : ℕ} (ha : 0 < attempts)
    (hist : List (List Json × SinkAnswer)) :
    (deliverBatch sink batch attempts hist).settled = batch := by
  obtain ⟨attempts, rfl⟩ := Nat.exists_eq_succ_of_ne_zero (Nat.pos_iff_ne_zero.mp ha)
  rw [deliverBatch]
  cases hr : (sink hist batch).result with
  | returned => rfl
  | rejected =>
    show [] ++ (deliverEach sink _ batch).settled = batch
    rw [List.nil_append, deliverEach_settled h]
  | error => exact absurd hr (h hist batch)

/-- **A sink that answers settles all that is sent.** -/
theorem deliver_settled {maxAttempts : ℕ} (ha : 0 < maxAttempts)
    (hist : List (List Json × SinkAnswer)) (bs : List (List Json)) :
    (deliver sink maxAttempts hist bs).settled = bs.flatten := by
  induction bs generalizing hist with
  | nil => rfl
  | cons b bs ih =>
    rw [deliver, Delivery.append_settled, deliverBatch_settled h b ha, ih, List.flatten_cons]

end Deliver

/-! ## The log -/

/-- The records that can be read of each segment are those of `recsOf`, and their ids are
strings. -/
structure Legible (w : SegmentedWal) (recsOf : ℕ → List JsonObject) : Prop where
  read : ∀ n ∈ w.dir, SegmentedWal.readSegment (w.segment n) =
    .ok ((recsOf n).map JsonObject.toJson)
  named : ∀ n ∈ w.dir, ∀ r ∈ recsOf n, ∃ x, r.decisionId = .str x

section Legible

variable {w : SegmentedWal} {recsOf : ℕ → List JsonObject} (h : Legible w recsOf)

include h

theorem Legible.records :
    w.records = .ok (((segments w.dir).flatMap recsOf).map JsonObject.toJson) := by
  rw [SegmentedWal.records, List.map_flatMap,
    SegmentedWal.readSegments_eq fun n hn => h.read n (mem_segments.mp hn)]

theorem Legible.named_of_mem {r : JsonObject} (hr : r ∈ (segments w.dir).flatMap recsOf) :
    ∃ x, r.decisionId = .str x := by
  obtain ⟨n, hn, hrn⟩ := List.mem_flatMap.mp hr
  exact h.named n (mem_segments.mp hn) r hrn

theorem Legible.hashable {r : JsonObject} (hr : r ∈ (segments w.dir).flatMap recsOf) :
    r.Hashable := by
  obtain ⟨x, hx⟩ := h.named_of_mem hr
  rw [JsonObject.Hashable, hx]
  exact Option.some_ne_none _

/-- Deletions keep the rest legible. -/
theorem Legible.unlinkAll (ds : List ℕ) : Legible (w.unlinkAll ds) recsOf where
  read n hn := by
    obtain ⟨hds, hn⟩ := SegmentedWal.mem_unlinkAll.mp hn
    rw [SegmentedWal.segment_unlinkAll hds]
    exact h.read n hn
  named n hn := h.named n (SegmentedWal.mem_unlinkAll.mp hn).2

end Legible

/-- The id of a record that has a string for one. -/
theorem itemDecisionId_of_named {r : JsonObject} {x : PyStr} (h : r.decisionId = .str x) :
    itemDecisionId r.toJson = .ok (.str x) := by
  unfold JsonObject.decisionId JsonObject.get? at h
  rw [JsonObject.toJson, itemDecisionId]
  cases hget : Json.get? decisionIdKey r.members with
  | none =>
    rw [hget] at h
    cases h
  | some v =>
    rw [hget] at h
    exact congrArg Except.ok h

section Pass

variable {sink : Sink} {maxAttempts batchSize : ℕ} {s : World} {acked : PySet}
  {recsOf : ℕ → List JsonObject}

/-- A pass acknowledges every record of the log. -/
theorem exec_shipOnce_clean (hsink : sink.Answers) (ha : 0 < maxAttempts) (hb : 0 < batchSize)
    (h : Legible s.wal recsOf) (hm : Marked acked s)
    (hacked : ∀ k, acked.Mem k → ∃ x, k = .str x) :
    ∃ shipped s' acked', Prog.exec (serve sink) (Shipper.shipOnce maxAttempts batchSize) s =
        (.ok shipped, s') ∧ Marked acked' s' ∧ s'.wal = s.wal ∧
      ∀ r ∈ (segments s.wal.dir).flatMap recsOf, r.Acked acked' := by
  have hset : (delivery sink maxAttempts batchSize s acked
      ((segments s.wal.dir).flatMap recsOf)).settled =
        pendingRecords acked ((segments s.wal.dir).flatMap recsOf) := by
    rw [delivery, deliver_settled hsink ha, flatten_batches hb]
  have hnamed : ∀ v ∈ pendingRecords acked ((segments s.wal.dir).flatMap recsOf),
      ∃ x, itemDecisionId v = .ok (.str x) := by
    intro v hv
    obtain ⟨r, hr, -, rfl⟩ := mem_pendingRecords.mp hv
    obtain ⟨x, hx⟩ := h.named_of_mem hr
    exact ⟨x, itemDecisionId_of_named hx⟩
  have hkind : ∀ k, IdAmong acked
      (pendingRecords acked ((segments s.wal.dir).flatMap recsOf)) k → k.kind = .str := by
    rintro k (hk | ⟨v, hv, i, hi, hik⟩)
    · obtain ⟨x, rfl⟩ := hacked k hk
      rfl
    · obtain ⟨x, hx⟩ := hnamed v hv
      rw [hx, Except.ok.injEq] at hi
      rw [← hi, key_str, Option.some.injEq] at hik
      rw [← hik]
      rfl
  obtain ⟨n, s', acked', hexec, hm', hmem, -, hwal, -⟩ := exec_shipOnce hm h.records
    (fun r hr => h.hashable hr) hb (rfl : delivery sink maxAttempts batchSize s acked _ = _)
    (by rw [hset]; exact fun v hv => ⟨_, (hnamed v hv).choose_spec⟩)
    (by rw [hset]; exact fun _ j k hj hk => (hkind j hj).trans (hkind k hk).symm)
  refine ⟨n, s', acked', hexec, hm', hwal, fun r hr => ?_⟩
  obtain ⟨x, hx⟩ := h.named_of_mem hr
  refine ⟨.str x, by rw [hx, key_str], (hmem _).mpr ?_⟩
  by_cases hack : r.Acked acked
  · obtain ⟨k, hk, hin⟩ := hack
    rw [hx, key_str, Option.some.injEq] at hk
    exact Or.inl (hk ▸ hin)
  · rw [hset]
    exact Or.inr ⟨r.toJson, mem_pendingRecords.mpr ⟨r, hr, hack, rfl⟩, _,
      itemDecisionId_of_named hx, key_str x⟩

/-- The truncation after it deletes every segment that is not active and holds a record. -/
theorem exec_truncate_clean (sink : Sink) (h : Legible s.wal recsOf) (hm : Marked acked s)
    (hall : ∀ r ∈ (segments s.wal.dir).flatMap recsOf, r.Acked acked) :
    ∃ st, Prog.exec (serve sink) Shipper.truncate s =
      (.ok (reclaimable recsOf s.wal.seq (segments s.wal.dir)).length,
        reclaim s (reclaimable recsOf s.wal.seq (segments s.wal.dir)) st) := by
  have hread : Prog.exec (serve sink) Shipper.readWatermark s = (.ok acked, s) := by
    rw [exec_readWatermark]
    exact Prod.ext hm rfl
  obtain ⟨st, hexec⟩ := exec_truncateSegments_clean sink s.wal.seq (nodup_segments s.wal.dir) 0 s
    fun n hn => ⟨h.read n (mem_segments.mp hn), fun r hr => hall r (List.mem_flatMap.mpr ⟨n, hn, hr⟩)⟩
  refine ⟨st, ?_⟩
  rw [Shipper.truncate, Prog.exec_bind, hread, Prog.andThen, exec_ask_bind, exec_ask_bind]
  exact hexec.trans (by rw [Nat.zero_add])

/-- Where every record is acknowledged, nothing is unshipped. -/
theorem pendingOf_eq_nil (h : Legible s.wal recsOf) (hm : Marked acked s)
    (hall : ∀ r ∈ (segments s.wal.dir).flatMap recsOf, r.Acked acked) : pendingOf s = .ok [] := by
  have hread : Watermark.read s.watermark = .ok acked := hm
  have hnone : ((segments s.wal.dir).flatMap recsOf).filter (fun r => ¬ r.Acked acked) = [] := by
    rw [List.filter_eq_nil_iff]
    exact fun r hr => by simpa using hall r hr
  rw [pendingOf, hread, h.records]
  exact (notIn_eq fun r hr => h.hashable hr).trans (by rw [hnone]; rfl)

/-- **A clean pass reclaims the disk.** The log may hold torn lines and any ids more than once, the
watermark any string ids. After `run` nothing is unshipped; the segments that are gone are those
that were not active and had a readable record; the others, the active one among them, are as they
were; and `run` returns the numbers of both. -/
theorem run_reclaims (sink : Sink) (hsink : sink.Answers) {maxAttempts batchSize : ℕ}
    (ha : 0 < maxAttempts) (hb : 0 < batchSize) (s : World) (recsOf : ℕ → List JsonObject)
    (h : Legible s.wal recsOf) (acked : PySet) (hm : Marked acked s)
    (hacked : ∀ k, acked.Mem k → ∃ x, k = .str x) :
    ∃ shipped deleted s', Prog.exec (serve sink) (Shipper.run maxAttempts batchSize) s =
        (.ok (shipped, deleted, 0), s') ∧
      Prog.exec (serve sink) Shipper.unshipped s' = (.ok [], s') ∧
      (∀ n, n ∈ s'.wal.dir ↔ n ∈ s.wal.dir ∧ (n = s.wal.seq ∨ recsOf n = [])) ∧
      (∀ n ∈ s'.wal.dir, s'.wal.dir.lookup n = s.wal.dir.lookup n) ∧
      s'.wal.activeSegment = s.wal.activeSegment ∧
      deleted = s.wal.dir.keys.countP fun n => n ≠ s.wal.seq ∧ recsOf n ≠ [] := by
  obtain ⟨shipped, s₁, acked', hship, hm₁, hwal₁, hall⟩ :=
    exec_shipOnce_clean hsink ha hb h hm hacked
  rw [← hwal₁] at hall h
  obtain ⟨st, htruncate⟩ := exec_truncate_clean sink h hm₁ hall
  set ds := reclaimable recsOf s₁.wal.seq (segments s₁.wal.dir) with hds
  have hleft : ∀ r ∈ (segments (reclaim s₁ ds st).wal.dir).flatMap recsOf, r.Acked acked' := by
    intro r hr
    obtain ⟨n, hn, hrn⟩ := List.mem_flatMap.mp hr
    have hdir := (SegmentedWal.mem_unlinkAll.mp (mem_segments.mp hn)).2
    exact hall r (List.mem_flatMap.mpr ⟨n, mem_segments.mpr hdir, hrn⟩)
  have hpending : Prog.exec (serve sink) Shipper.unshipped (reclaim s₁ ds st) =
      (.ok [], reclaim s₁ ds st) := by
    rw [exec_unshipped, pendingOf_eq_nil (s := reclaim s₁ ds st) (h.unlinkAll ds) hm₁ hleft]
  have hmem (n : ℕ) : n ∈ (reclaim s₁ ds st).wal.dir ↔
      n ∈ s₁.wal.dir ∧ (n = s₁.wal.seq ∨ recsOf n = []) := by
    have hn : n ∈ ds ↔ n ∈ s₁.wal.dir ∧ n ≠ s₁.wal.seq ∧ recsOf n ≠ [] := by
      rw [hds, mem_reclaimable, mem_segments]
    rw [reclaim, SegmentedWal.mem_unlinkAll, hn]
    tauto
  refine ⟨shipped, ds.length, reclaim s₁ ds st, ?_, hpending, fun n => ?_, fun n hn => ?_, ?_, ?_⟩
  · rw [Shipper.run, Prog.exec_bind, hship, Prog.andThen, Prog.exec_bind, htruncate, Prog.andThen,
      Prog.exec_bind, hpending]
    rfl
  · rw [hmem, hwal₁]
  · rw [← hwal₁]
    exact SegmentedWal.lookup_unlinkAll (SegmentedWal.mem_unlinkAll.mp hn).1
  · rw [← hwal₁]
    exact SegmentedWal.seq_unlinkAll s₁.wal ds
  · have hperm : (segments s₁.wal.dir).Perm s₁.wal.dir.keys := List.perm_insertionSort _ _
    rw [hds, reclaimable, ← List.countP_eq_length_filter, hperm.countP_eq, hwal₁]

end Pass

/-- A sink that rejects some records for good answers. -/
theorem Sink.rejecting_answers (never : Json → Bool) : (Sink.rejecting never).Answers := by
  intro hist batch
  unfold Sink.rejecting
  split
  · exact SendResult.noConfusion
  · exact SendResult.noConfusion

/-- A closed segment with one record, and an active one without. -/
def closedSegment (r : JsonObject) : SegmentedWal :=
  { config := {}, seq := 2, dir := ((∅ : SegmentDir).insert 1 (logBytes [r])).insert 2 [] }

theorem legible_closedSegment {r : JsonObject} {x : PyStr} (hr : r.decisionId = .str x) :
    Legible (closedSegment r) fun n => if n = 1 then [r] else [] where
  read n hn := by
    have hsegment : (closedSegment r).segment n = logBytes (if n = 1 then [r] else []) := by
      rcases (AList.mem_insert _).mp hn with rfl | hn
      · rfl
      · rcases (AList.mem_insert _).mp hn with rfl | hn
        · rfl
        · exact absurd hn (AList.notMem_empty n)
    rw [hsegment, SegmentedWal.readSegment_logBytes]
  named n _ r' hr' := by
    split at hr'
    · rw [List.mem_singleton.mp hr']
      exact ⟨x, hr⟩
    · cases hr'

/-- A poison record does not keep its segment. -/
theorem run_reclaims_poison : ∃ shipped deleted s',
    Prog.exec (serve (.rejecting fun _ => true)) (Shipper.run 1 1) { wal := closedSegment namedRecord } =
      (.ok (shipped, deleted, 0), s') ∧ 1 ∉ s'.wal.dir ∧ 2 ∈ s'.wal.dir := by
  obtain ⟨shipped, deleted, s', hexec, -, hmem, -⟩ := run_reclaims _
    (Sink.rejecting_answers fun _ => true) Nat.one_pos Nat.one_pos { wal := closedSegment namedRecord } _
    (legible_closedSegment (JsonObject.decisionId_withId _)) .empty rfl
    fun k hk => absurd hk (PySet.not_mem_empty k)
  refine ⟨shipped, deleted, s', hexec, ?_, ?_⟩
  · rw [hmem]
    rintro ⟨-, h | h⟩
    · cases h
    · cases h
  · rw [hmem]
    exact ⟨AList.mem_insert _ |>.mpr (Or.inl rfl), Or.inl rfl⟩

end Shipping
