import PreauthGateway.Shipping.ShipOnce

/-!
# Truncations that delete

Where every record of a segment is acknowledged, the loop of a truncation deletes the segment. The
calls of a program that returns are steps of the system, so what a program does when it is run to
its end is what some run of the system does.

## Main definitions

* `Shrunk`: only segments were deleted

## Main results

* `reaches_calls`: **a program that returns makes its calls step by step**
* `exec_truncateSegments`: the loop over acknowledged segments
-/

open Json

namespace Shipping

/-- **A program that returns makes its calls step by step.** -/
theorem reaches_calls {c : Config} {g : Guard} (hg : ∀ o s, g.call o s) {sink : Sink} {α : Type}
    {p : ShipperM α} {s s' : World} {a : α} (h : Prog.exec (serve sink) p s = (.ok a, s'))
    (f : α → ShipperM Unit) :
    Runs.Reaches (step c) g.Meets ⟨s, resume (p >>= f)⟩ ⟨s', resume (f a)⟩ := by
  induction p generalizing s with
  | ret b =>
    cases h
    exact .refl _
  | raise e => cases h
  | call o k ih =>
    have hstep : step c ⟨s, resume (Prog.call o k >>= f)⟩ (.call (sink.answer o s)) =
        some ⟨(serve sink o s).2, resume (k (serve sink o s).1 >>= f)⟩ := rfl
    apply Runs.Reaches.head _ hstep (ih _ h)
    intro o' _ _
    exact hg o' s

theorem truncateSegments_append (acked : PySet) (active : ℕ) (ns ms : List ℕ) (deleted : ℕ) :
    Shipper.truncateSegments acked active (ns ++ ms) deleted =
      Shipper.truncateSegments acked active ns deleted >>=
        Shipper.truncateSegments acked active ms := by
  induction ns generalizing deleted with
  | nil => rfl
  | cons n ns ih =>
    rw [List.cons_append, Shipper.truncateSegments, Shipper.truncateSegments]
    split
    · exact ih deleted
    rw [Prog.bind_assoc]
    apply congrArg (Shipper.readSegment n >>= ·)
    funext recs
    split
    · exact ih deleted
    rw [Prog.bind_assoc]
    apply congrArg (Prog.ofExcept (allIn acked recs) >>= ·)
    funext b
    split
    · simp only [Prog.bind_assoc, ih]
    · exact ih deleted

theorem allIn_of_acked {ids : PySet} {rs : List JsonObject} (h : ∀ r ∈ rs, r.Acked ids) :
    allIn ids (rs.map JsonObject.toJson) = .ok true := by
  induction rs with
  | nil => rfl
  | cons r rs ih =>
    obtain ⟨k, hk, hmem⟩ := h r List.mem_cons_self
    rw [List.map_cons, allIn, idIn_of_key hk, decide_eq_true hmem]
    exact ih fun r' hr' => h r' (List.mem_cons_of_mem _ hr')

/-- Segments were deleted: of those of `ns` all that are not active, and no others. -/
structure Shrunk (ns : List ℕ) (active : ℕ) (s s' : World) : Prop where
  seq : s'.wal.seq = s.wal.seq
  unlinked : s'.wal.unlinked = s.wal.unlinked
  appended : s'.appended = s.appended
  watermark : s'.watermark = s.watermark
  sends : s'.sends = s.sends
  kept : ∀ n ∉ ns, s'.wal.segment n = s.wal.segment n
  gone : ∀ n ∈ ns, n ≠ active → s'.wal.segment n = []
  segment : ∀ n, s'.wal.segment n = s.wal.segment n ∨ s'.wal.segment n = []

theorem shrunk_nil (active : ℕ) (s : World) : Shrunk [] active s s where
  seq := rfl
  unlinked := rfl
  appended := rfl
  watermark := rfl
  sends := rfl
  kept _ _ := rfl
  gone _ hn := by cases hn
  segment _ := Or.inl rfl

/-- One segment stays, and is active or empty. -/
theorem Shrunk.cons_stay {n active : ℕ} {ns : List ℕ} {s s' : World} (h : Shrunk ns active s s')
    (hn : n ≠ active → s.wal.segment n = []) : Shrunk (n :: ns) active s s' where
  seq := h.seq
  unlinked := h.unlinked
  appended := h.appended
  watermark := h.watermark
  sends := h.sends
  kept m hm := h.kept m fun hm' => hm (List.mem_cons_of_mem _ hm')
  gone m hm hne := by
    rcases List.mem_cons.mp hm with rfl | hm
    · rcases h.segment m with e | e
      · rw [e, hn hne]
      · exact e
    · exact h.gone m hm hne
  segment := h.segment

/-- The world after a segment was deleted, with the counters `st`. -/
def unlinkIn (s : World) (n : ℕ) (st : ShipperStats) : World :=
  { s with wal := s.wal.unlink n, stats := st }

theorem segment_unlinkIn (s : World) (n : ℕ) (st : ShipperStats) (m : ℕ) :
    (unlinkIn s n st).wal.segment m = if m = n then [] else s.wal.segment m :=
  SegmentedWal.segment_unlink n m

/-- One segment that is not open is deleted. -/
theorem Shrunk.cons_unlink {n active : ℕ} {ns : List ℕ} {s s' : World} {st : ShipperStats}
    (h : Shrunk ns active (unlinkIn s n st) s') (hseq : n ≠ s.wal.seq) :
    Shrunk (n :: ns) active s s' where
  seq := h.seq
  unlinked := by
    rw [h.unlinked, unlinkIn]
    simp only [SegmentedWal.unlink, hseq, false_and, if_false]
  appended := h.appended
  watermark := h.watermark
  sends := h.sends
  kept m hm := by
    have hmn : m ≠ n := by
      rintro rfl
      exact hm List.mem_cons_self
    rw [h.kept m fun hm' => hm (List.mem_cons_of_mem _ hm'), segment_unlinkIn, if_neg hmn]
  gone m hm hne := by
    rcases List.mem_cons.mp hm with rfl | hm
    · rcases h.segment m with e | e
      · rw [e, segment_unlinkIn, if_pos rfl]
      · exact e
    · exact h.gone m hm hne
  -- a segment is left alone by the rest, or empty after it
  segment m := by
    rcases h.segment m with e | e
    · rw [e, segment_unlinkIn]
      split
      · exact Or.inr rfl
      · exact Or.inl rfl
    · exact Or.inr e

/-- **The loop over segments whose records are all acknowledged.** -/
theorem exec_truncateSegments (sink : Sink) (acked : PySet) (active : ℕ) {ns : List ℕ}
    (hnodup : ns.Nodup) (deleted : ℕ) (s : World) (hns : ∀ n ∈ ns, n ≠ active → n ≠ s.wal.seq ∧
      ∃ rs, s.wal.segment n = logBytes rs ∧ ∀ r ∈ rs, r.Acked acked) :
    ∃ d s', Prog.exec (serve sink) (Shipper.truncateSegments acked active ns deleted) s =
      (.ok d, s') ∧ Shrunk ns active s s' := by
  induction ns generalizing deleted s with
  | nil => exact ⟨deleted, s, rfl, shrunk_nil active s⟩
  | cons n ns ih =>
    have hrest := fun m (hm : m ∈ ns) => hns m (List.mem_cons_of_mem _ hm)
    obtain ⟨hn, hnodup⟩ := List.nodup_cons.mp hnodup
    have hstay (h : n ≠ active → s.wal.segment n = []) : ∃ d s',
        Prog.exec (serve sink) (Shipper.truncateSegments acked active ns deleted) s = (.ok d, s') ∧
          Shrunk (n :: ns) active s s' := by
      obtain ⟨d, s', hexec, hs⟩ := ih hnodup deleted s hrest
      exact ⟨d, s', hexec, hs.cons_stay h⟩
    rw [Shipper.truncateSegments]
    split
    · rename_i he
      exact hstay fun hne => absurd he hne
    rename_i hne
    obtain ⟨hseq, rs, hrs, hall⟩ := hns n List.mem_cons_self hne
    have hread : Prog.exec (serve sink) (Shipper.readSegment n) s =
        (.ok (rs.map JsonObject.toJson), s) := by
      rw [exec_readSegment, hrs, SegmentedWal.readSegment_logBytes]
    rw [Prog.exec_bind, hread, Prog.andThen]
    split
    · rename_i h0
      apply hstay
      intro _
      rw [hrs, List.map_eq_nil_iff.mp h0, logBytes_nil]
    rw [allIn_of_acked hall]
    obtain ⟨d, s', hexec, h⟩ := ih hnodup (deleted + 1) (unlinkIn s n
      ((s.stats.add (s.wal.segment n).length .bytesReclaimed).add 1 .segmentsDeleted)) (by
      intro m hm hma
      obtain ⟨hms, rs', hrs', hall'⟩ := hrest m hm hma
      have hmn : m ≠ n := by
        rintro rfl
        exact hn hm
      exact ⟨hms, rs', by rw [segment_unlinkIn, if_neg hmn, hrs'], hall'⟩)
    exact ⟨d, s', hexec, h.cons_unlink hseq⟩

/-- **A truncation where everything is acknowledged.** -/
theorem exec_truncate (sink : Sink) {acked : PySet} {s : World} (hm : Marked acked s)
    (hall : ∀ n ∈ s.wal.dir, n ≠ s.wal.seq →
      ∃ rs, s.wal.segment n = logBytes rs ∧ ∀ r ∈ rs, r.Acked acked) :
    ∃ d s', Prog.exec (serve sink) Shipper.truncate s = (.ok d, s') ∧
      Shrunk (segments s.wal.dir) s.wal.seq s s' := by
  have hread : Prog.exec (serve sink) Shipper.readWatermark s = (.ok acked, s) := by
    rw [exec_readWatermark]
    exact Prod.ext hm rfl
  obtain ⟨d, s', hexec, h⟩ := exec_truncateSegments sink acked s.wal.seq
    (nodup_segments s.wal.dir) 0 s fun n hn hne => ⟨hne, hall n (mem_segments.mp hn) hne⟩
  refine ⟨d, s', ?_, h⟩
  rw [Shipper.truncate, Prog.exec_bind, hread, Prog.andThen, exec_ask_bind, exec_ask_bind]
  exact hexec

/-- Each record has a segment of its own. -/
def tinySegments : Config where
  segment := { segmentBytes := 1 }

end Shipping
