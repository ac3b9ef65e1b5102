import PreauthGateway.Shipping.MemorySink

/-!
# The disk

Every byte that is appended lies on the disk until a truncation reclaims it, and the counters say
how many did. A segment is closed when it has reached its size, so each closed one is full, and none
is longer than its last record makes it.

## Main definitions

* `diskBytes`: the bytes of the segments
* `DiskBooks`: the books of the disk

## Main results

* `uses_shipOnce`: a pass deletes nothing
* `books_truncateSegments`: a truncation counts what it deletes
* `Depot.disk_books`: **the books balance after every run**
-/

open Json

/-- The bytes of the segments. -/
def diskBytes (d : SegmentDir) : ℕ := (d.keys.map fun n => ((d.lookup n).getD []).length).sum

section DiskBytes

variable {d : SegmentDir} {n : ℕ}

/-- The bytes of the other segments. -/
def otherBytes (d : SegmentDir) (n : ℕ) : ℕ :=
  ((d.keys.erase n).map fun m => ((d.lookup m).getD []).length).sum

theorem diskBytes_of_mem (h : n ∈ d) :
    diskBytes d = ((d.lookup n).getD []).length + otherBytes d n := by
  have hkeys : d.keys.Perm (n :: d.keys.erase n) := List.perm_cons_erase (AList.mem_keys.mp h)
  rw [diskBytes, (hkeys.map _).sum_eq, List.map_cons, List.sum_cons, otherBytes]

theorem diskBytes_insert (d : SegmentDir) (n : ℕ) (b : Bytes) :
    diskBytes (d.insert n b) = b.length + otherBytes d n := by
  rw [diskBytes, AList.keys_insert, List.map_cons, List.sum_cons, AList.lookup_insert,
    Option.getD_some, otherBytes]
  congr 2
  refine List.map_congr_left fun m hm => ?_
  rw [AList.lookup_insert_ne (d.keys_nodup.mem_erase_iff.mp hm).1]

theorem diskBytes_erase (d : SegmentDir) (n : ℕ) : diskBytes (d.erase n) = otherBytes d n := by
  rw [diskBytes, AList.keys_erase, otherBytes]
  congr 1
  refine List.map_congr_left fun m hm => ?_
  rw [AList.lookup_erase_ne (d.keys_nodup.mem_erase_iff.mp hm).1]

theorem otherBytes_of_notMem (h : n ∉ d) : otherBytes d n = diskBytes d := by
  rw [otherBytes, List.erase_of_not_mem fun hm => h (AList.mem_keys.mpr hm), diskBytes]

end DiskBytes

/-- The books of the disk: what was appended and is not reclaimed lies in the segments, each segment
that was opened is there or was deleted, and the sizes of the segments. -/
structure DiskBooks (config : SegmentConfig) (s : World) : Prop where
  settings : s.wal.config = config
  numbered : s.wal.WellNumbered
  bytes : diskBytes s.wal.dir + s.stats.bytesReclaimed = (logBytes s.appended).length
  opened : s.wal.dir.keys.length + s.stats.segmentsDeleted = s.wal.seq
  closed : ∀ n ∈ s.wal.dir, n ≠ s.wal.seq → config.segmentBytes ≤ (s.wal.segment n).length
  active : s.wal.segment s.wal.seq = [] ∨
    ((s.wal.segment s.wal.seq).length : ℤ) < config.segmentBytes
  fits : ∀ n ∈ s.wal.dir, ∃ rs, s.wal.segment n = logBytes rs ∧
    (rs.dropLast ≠ [] → ((logBytes rs.dropLast).length : ℤ) < config.segmentBytes)

/-! ## An append -/

section Append

variable {config : SegmentConfig} {s : World}

theorem length_keys_insert {d : SegmentDir} {n : ℕ} (h : n ∈ d) (b : Bytes) :
    (d.insert n b).keys.length = d.keys.length := by
  rw [AList.keys_insert, List.length_cons, List.length_erase_of_mem (AList.mem_keys.mp h)]
  have := List.length_pos_of_mem (AList.mem_keys.mp h)
  omega

/-- An append adds a line to the active segment, and closes the segment when it is full. -/
theorem DiskBooks.append (h : DiskBooks config s) (r : JsonObject) :
    DiskBooks config (s.append r) := by
  have hlinked := h.numbered.linked
  have hactive := h.numbered.active
  obtain ⟨rs, hrs, hfit⟩ := h.fits _ hactive
  have hlong : s.wal.segment s.wal.seq ++ logBytes [r] = logBytes (rs ++ [r]) := by
    rw [hrs, logBytes_append]
  have hgrown : diskBytes (s.wal.grown r) = diskBytes s.wal.dir + (logBytes [r]).length := by
    have hold : diskBytes s.wal.dir =
        (s.wal.segment s.wal.seq).length + otherBytes s.wal.dir s.wal.seq := diskBytes_of_mem hactive
    rw [SegmentedWal.grown, diskBytes_insert, List.length_append, hold]
    omega
  have hkeys : (s.wal.grown r).keys.length = s.wal.dir.keys.length := length_keys_insert hactive _
  have hbytes : (logBytes (s.append r).appended).length =
      (logBytes s.appended).length + (logBytes [r]).length := by
    rw [World.append, logBytes_append, List.length_append]
  have hbooks := h.bytes
  have hopened := h.opened
  have hsegment (n : ℕ) : (s.append r).wal.segment n =
      if n = s.wal.seq then logBytes (rs ++ [r]) else s.wal.segment n := by
    rw [World.append, SegmentedWal.segment_append hlinked]
    split
    · rename_i hn
      rw [hn, hlong]
    · rw [List.append_nil]
  have hnumbered : (s.append r).wal.WellNumbered := h.numbered.append r
  have hsettings : (s.append r).wal.config = config :=
    (SegmentedWal.append_cases hlinked r).1.trans h.settings
  have hmem (n : ℕ) : n ∈ (s.append r).wal.dir ↔
      n ∈ s.wal.dir ∨ n = s.wal.seq ∨ n = (s.append r).wal.seq := SegmentedWal.mem_append hlinked r
  -- the lines before the last one fit, in the active segment as in the others
  have hfits : ∀ n ∈ (s.append r).wal.dir, ∃ rs, (s.append r).wal.segment n = logBytes rs ∧
      (rs.dropLast ≠ [] → ((logBytes rs.dropLast).length : ℤ) < config.segmentBytes) := by
    intro n hn
    rw [hsegment]
    by_cases hseq : n = s.wal.seq
    · rw [if_pos hseq]
      refine ⟨rs ++ [r], rfl, fun hne => ?_⟩
      rw [List.dropLast_concat] at hne ⊢
      rcases h.active with hempty | hlt
      · exact absurd (logBytes_injective (hrs.symm.trans (hempty.trans logBytes_nil.symm))) hne
      · rw [← hrs]
        exact hlt
    · rw [if_neg hseq]
      by_cases hdir : n ∈ s.wal.dir
      · exact h.fits n hdir
      · refine ⟨[], ?_, fun hne => absurd rfl hne⟩
        rw [SegmentedWal.segment, AList.lookup_eq_none.mpr hdir]
        exact logBytes_nil.symm
  obtain ⟨k, hk⟩ := SegmentedWal.append_eq hlinked r
  have hopen : SegmentedWal.openFile { s.wal with dir := s.wal.grown r, sinceSync := k } =
      logBytes (rs ++ [r]) := by
    rw [SegmentedWal.openFile, hlinked, Option.getD_none, SegmentedWal.grown, AList.lookup_insert,
      Option.getD_some, hlong]
  rw [SegmentedWal.rotateIfNeeded, hopen] at hk
  by_cases hfull : config.segmentBytes ≤ (logBytes (rs ++ [r])).length
  · have hnew : s.wal.seq + 1 ∉ s.wal.grown r := by
      rw [SegmentedWal.grown, AList.mem_insert]
      rintro (hn | hn)
      · omega
      · have := h.numbered.last _ hn
        omega
    rw [if_pos (by rw [← h.settings] at hfull; exact hfull), SegmentedWal.openSegment, if_neg hnew] at hk
    have hseq : (s.append r).wal.seq = s.wal.seq + 1 := congrArg SegmentedWal.seq hk
    have hdir : (s.append r).wal.dir = (s.wal.grown r).insert (s.wal.seq + 1) [] :=
      congrArg SegmentedWal.dir hk
    refine ⟨hsettings, hnumbered, ?_, ?_, ?_, .inl ?_, hfits⟩
    · rw [hdir, diskBytes_insert, otherBytes_of_notMem hnew, hbytes]
      show _ + s.stats.bytesReclaimed = _
      rw [List.length_nil]
      omega
    · rw [hdir, hseq, AList.keys_insert, List.length_cons,
        List.erase_of_not_mem fun hm => hnew (AList.mem_keys.mpr hm), hkeys]
      show _ + s.stats.segmentsDeleted = _
      omega
    · intro n hn hne
      rw [hsegment]
      by_cases hn' : n = s.wal.seq
      · rw [if_pos hn']
        exact hfull
      · rw [if_neg hn']
        exact h.closed n (((hmem n).mp hn).resolve_right fun hor => hor.elim hn' hne) hn'
    · rw [hseq, hsegment, if_neg (Nat.succ_ne_self _), SegmentedWal.segment,
        AList.lookup_eq_none.mpr fun hm => absurd (h.numbered.last _ hm) (Nat.not_succ_le_self _)]
      rfl
  · rw [if_neg (by rw [← h.settings] at hfull; exact hfull)] at hk
    have hseq : (s.append r).wal.seq = s.wal.seq := by
      show (s.wal.append r).seq = _
      rw [hk]
    have hdir : (s.append r).wal.dir = s.wal.grown r := by
      show (s.wal.append r).dir = _
      rw [hk]
    refine ⟨hsettings, hnumbered, ?_, ?_, ?_, .inr ?_, hfits⟩
    · rw [hdir, hbytes, hgrown]
      show _ + s.stats.bytesReclaimed = _
      omega
    · rw [hdir, hseq, hkeys]
      exact hopened
    · intro n hn hne
      rw [hseq] at hne
      rw [hsegment, if_neg hne]
      refine h.closed n (((hmem n).mp hn).resolve_right fun hor => ?_) hne
      rw [hseq] at hor
      exact hor.elim hne hne
    · rw [hseq, hsegment, if_pos rfl]
      exact not_le.mp hfull

end Append

/-! ## A pass deletes nothing -/

/-- A call that neither deletes nor counts a deletion. -/
def Call.Keeps : Call → Prop
  | .unlink _ | .count .bytesReclaimed _ | .count .segmentsDeleted _ => False
  | _ => True

section Uses

open Prog (Uses)

theorem uses_readWatermark : Uses Call.Keeps Shipper.readWatermark :=
  .bind (.perform trivial) fun _ => .ofExcept _

theorem uses_readSegment (n : ℕ) : Uses Call.Keeps (Shipper.readSegment n) :=
  .bind (.perform trivial) fun _ => .ofExcept _

theorem uses_readAll (ns : List ℕ) : Uses Call.Keeps (Shipper.readAll ns) := by
  induction ns with
  | nil => trivial
  | cons n ns ih => exact .bind (uses_readSegment n) fun _ => .bind ih fun _ => trivial

theorem uses_unshipped : Uses Call.Keeps Shipper.unshipped :=
  .bind uses_readWatermark fun _ => .bind (.perform trivial) fun segs =>
    .bind (uses_readAll segs) fun _ => .ofExcept _

theorem uses_sendEach (rs newly : List Json) : Uses Call.Keeps (Shipper.sendEach rs newly) := by
  induction rs generalizing newly with
  | nil => trivial
  | cons r rs ih =>
    have hid : Uses Call.Keeps (do
        let i ← Prog.ofExcept (itemDecisionId r)
        Shipper.sendEach rs (newly ++ [i])) := .bind (.ofExcept _) fun i => ih _
    refine .bind (.perform trivial) fun result => ?_
    cases result with
    | returned => exact hid
    | rejected => exact .bind (.perform trivial) fun _ => .bind (.perform trivial) fun _ => hid
    | error => exact ih newly

theorem uses_sendBatch (batch newly : List Json) (attempts : ℕ) :
    Uses Call.Keeps (Shipper.sendBatch batch attempts newly) := by
  induction attempts with
  | zero => trivial
  | succ n ih =>
    refine .bind (.perform trivial) fun result => ?_
    cases result with
    | returned => exact .bind (.ofExcept _) fun _ => trivial
    | rejected => exact uses_sendEach batch newly
    | error => exact .bind (.perform trivial) fun _ => ih

theorem uses_sendBatches (maxAttempts : ℕ) (bs : List (List Json)) (newly : List Json) :
    Uses Call.Keeps (Shipper.sendBatches maxAttempts bs newly) := by
  induction bs generalizing newly with
  | nil => trivial
  | cons b bs ih =>
    exact .bind (.perform trivial) fun _ => .bind (uses_sendBatch b newly maxAttempts) fun _ => ih _

theorem uses_acknowledge (acked : PySet) (newly : List Json) :
    Uses Call.Keeps (Shipper.acknowledge acked newly) := by
  unfold Shipper.acknowledge
  split
  · trivial
  · have hwrite (ids : PySet) : Uses Call.Keeps (Shipper.writeWatermark ids) :=
      .bind (.ofExcept _) fun _ => .bind (.perform trivial) fun _ => .perform trivial
    exact .bind (.ofExcept _) fun ids => .bind (hwrite _) fun _ =>
      .bind (.perform trivial) fun _ => .bind (.perform trivial) fun _ => trivial

/-- **A pass deletes nothing.** -/
theorem uses_shipOnce (maxAttempts batchSize : ℕ) :
    Uses Call.Keeps (Shipper.shipOnce maxAttempts batchSize) := by
  refine .bind uses_unshipped fun pending => ?_
  split
  · trivial
  refine .bind uses_readWatermark fun acked => ?_
  split
  · trivial
  · exact .bind (uses_sendBatches maxAttempts _ []) fun newly => uses_acknowledge acked newly

end Uses

namespace Depot

variable {config : SegmentConfig} {d : Depot}

/-- A call that deletes nothing keeps the books. -/
theorem books_answer {o : Call} (ho : o.Keeps) (h : DiskBooks config d.world) :
    DiskBooks config (answer o d).2.world := by
  have hsame {s : World} (hwal : s.wal = d.world.wal)
      (hr : s.stats.bytesReclaimed = d.world.stats.bytesReclaimed)
      (hd : s.stats.segmentsDeleted = d.world.stats.segmentsDeleted)
      (ha : s.appended = d.world.appended) : DiskBooks config s := by
    obtain ⟨h₁, h₂, h₃, h₄, h₅, h₆, h₇⟩ := h
    constructor
    · rwa [hwal]
    · rwa [hwal]
    · rwa [hwal, hr, ha]
    · rwa [hwal, hd]
    · rwa [hwal]
    · rwa [hwal]
    · rwa [hwal]
  cases o with
  | readWatermark => exact hsame rfl rfl rfl rfl
  | listSegments => exact hsame rfl rfl rfl rfl
  | readSegment n => exact hsame rfl rfl rfl rfl
  | activeSegment => exact hsame rfl rfl rfl rfl
  | segmentSize n => exact hsame rfl rfl rfl rfl
  | send batch => exact hsame rfl rfl rfl rfl
  | poison r => exact hsame rfl rfl rfl rfl
  | writeTmp b => exact hsame rfl rfl rfl rfl
  | unlink n => exact ho.elim
  | replaceWatermark =>
    refine hsame ?_ ?_ ?_ ?_ <;>
      · show _ = _
        simp only [answer, handle, World.replaceWatermark]
        split <;> rfl
  | count c n =>
    cases c with
    | bytesReclaimed => exact ho.elim
    | segmentsDeleted => exact ho.elim
    | batches | shipped | retries | poisoned | watermarkWrites => exact hsame rfl rfl rfl rfl

/-- The deletion of a closed segment, after its bytes are counted and before it is counted
itself. -/
theorem books_unlink (h : DiskBooks config d.world) {n : ℕ} (hn : n ∈ d.world.wal.dir)
    (hne : n ≠ d.world.wal.seq) :
    DiskBooks config { d.world with
      wal := d.world.wal.unlink n
      stats := (d.world.stats.add (d.world.wal.segment n).length .bytesReclaimed).add 1
        .segmentsDeleted } := by
  have hdir : (d.world.wal.unlink n).dir = d.world.wal.dir.erase n := rfl
  have hbytes := h.bytes
  have hopened := h.opened
  have hmem (m : ℕ) : m ∈ (d.world.wal.unlink n).dir ↔ m ≠ n ∧ m ∈ d.world.wal.dir := AList.mem_erase
  refine ⟨h.settings, h.numbered.unlink hne, ?_, ?_, ?_, ?_, ?_⟩
  · rw [diskBytes_of_mem hn] at hbytes
    show diskBytes (d.world.wal.unlink n).dir +
      (d.world.stats.bytesReclaimed + (d.world.wal.segment n).length) =
        (logBytes d.world.appended).length
    rw [hdir, diskBytes_erase]
    unfold SegmentedWal.segment
    omega
  · show (d.world.wal.unlink n).dir.keys.length + (d.world.stats.segmentsDeleted + 1) = _
    have hpos := List.length_pos_of_mem (AList.mem_keys.mp hn)
    rw [hdir, AList.keys_erase, List.length_erase_of_mem (AList.mem_keys.mp hn)]
    show _ = d.world.wal.seq
    omega
  · intro m hm hseq
    dsimp only
    rw [SegmentedWal.segment_unlink, if_neg ((hmem m).mp hm).1]
    exact h.closed m ((hmem m).mp hm).2 hseq
  · have hsame : (d.world.wal.unlink n).segment d.world.wal.seq =
        d.world.wal.segment d.world.wal.seq := by
      rw [SegmentedWal.segment_unlink, if_neg hne.symm]
    show (d.world.wal.unlink n).segment d.world.wal.seq = [] ∨
      (((d.world.wal.unlink n).segment d.world.wal.seq).length : ℤ) < _
    rw [hsame]
    exact h.active
  · intro m hm
    dsimp only
    rw [SegmentedWal.segment_unlink, if_neg ((hmem m).mp hm).1]
    exact h.fits m ((hmem m).mp hm).2

theorem attempt_readSegment_eq (n : ℕ) (d : Depot) :
    Prog.attempt answer (Shipper.readSegment n) d =
      (SegmentedWal.readSegment (d.world.wal.segment n), d) :=
  Prog.attempt_ofExcept answer _ d

/-- **A truncation counts what it deletes**: the bytes of each segment just before its deletion, and
the segment just after. -/
theorem books_truncateSegments (acked : PySet) {active : ℕ} {ns : List ℕ} (deleted : ℕ)
    (h : DiskBooks config d.world) (hactive : active = d.world.wal.seq)
    (hns : ∀ n ∈ ns, n ∈ d.world.wal.dir) (hnodup : ns.Nodup) :
    DiskBooks config
      (Prog.attempt answer (Shipper.truncateSegments acked active ns deleted) d).2.world := by
  induction ns generalizing deleted d with
  | nil => exact h
  | cons n ns ih =>
    obtain ⟨hn, hnodup⟩ := List.nodup_cons.mp hnodup
    have hrest (deleted : ℕ) := ih deleted h hactive
      (fun m hm => hns m (List.mem_cons_of_mem n hm)) hnodup
    rw [Shipper.truncateSegments]
    split
    · exact hrest deleted
    rename_i hne
    rw [Prog.attempt_bind, attempt_readSegment_eq]
    cases SegmentedWal.readSegment (d.world.wal.segment n) with
    | error e => exact h
    | ok recs =>
      dsimp only
      split
      · exact hrest deleted
      rw [Prog.attempt_bind, Prog.attempt_ofExcept]
      cases allIn acked recs with
      | error e => exact h
      | ok all =>
        cases all with
        | false => exact hrest deleted
        | true =>
          have hgone := books_unlink h (hns n List.mem_cons_self) (hactive ▸ hne)
          refine ih (d := { d with world := _ }) (deleted + 1) hgone hactive (fun m hm => ?_) hnodup
          exact AList.mem_erase.mpr ⟨fun e => hn (e ▸ hm), hns m (List.mem_cons_of_mem n hm)⟩

/-- Whatever a run of the shipper meets, it keeps the books. -/
theorem books_run (maxAttempts batchSize : ℕ) (h : DiskBooks config d.world) :
    DiskBooks config (Prog.attempt answer (Shipper.run maxAttempts batchSize) d).2.world := by
  have hkeep {α : Type} {p : ShipperM α} (hp : Prog.Uses Call.Keeps p) (d : Depot)
      (h : DiskBooks config d.world) : DiskBooks config (Prog.attempt answer p d).2.world :=
    hp.keeps (h := answer) (J := fun d : Depot => DiskBooks config d.world)
      (fun o d ho hd => books_answer ho hd) h
  have htruncate (d : Depot) (h : DiskBooks config d.world) :
      DiskBooks config (Prog.attempt answer Shipper.truncate d).2.world := by
    refine Prog.attempt_bind_keeps answer (J := fun d : Depot => DiskBooks config d.world)
      (hkeep uses_readWatermark) (fun acked d h => ?_) h
    -- the active segment and the listing are read from the same files
    exact books_truncateSegments acked 0 h rfl (fun n hn => mem_segments.mp hn) (nodup_segments _)
  refine Prog.attempt_bind_keeps answer (J := fun d : Depot => DiskBooks config d.world)
    (hkeep (uses_shipOnce maxAttempts batchSize)) (fun shipped d h => ?_) h
  refine Prog.attempt_bind_keeps answer (J := fun d : Depot => DiskBooks config d.world)
    htruncate (fun deleted d h => ?_) h
  have hlast : Prog.Uses Call.Keeps (do
      let remaining ← Shipper.unshipped
      return (shipped, deleted, remaining.length) : ShipperM (ℕ × ℕ × ℕ)) :=
    .bind uses_unshipped fun remaining => trivial
  exact hkeep hlast d h

theorem books_init (c : Shipping.Config) (rejectIds : PySet) :
    DiskBooks c.segment (init c rejectIds).world := by
  have hopen : (init c rejectIds).world.wal = SegmentedWal.openAt c.segment ∅ := rfl
  have hempty (n : ℕ) : (init c rejectIds).world.wal.segment n = [] :=
    SegmentedWal.segment_openAt c.segment ∅ n
  refine ⟨rfl, SegmentedWal.openAt_empty_wellNumbered c.segment, ?_, rfl, ?_, .inl (hempty _), ?_⟩
  · rw [hopen, SegmentedWal.openAt_empty, diskBytes_insert]
    rfl
  · intro n hn hne
    rw [hopen, SegmentedWal.openAt_empty, AList.mem_insert] at hn
    exact absurd (hn.resolve_right (AList.notMem_empty n)) hne
  · intro n _
    exact ⟨[], (hempty n).trans logBytes_nil.symm, fun hne => absurd rfl hne⟩

/-- **The books of the disk balance after every run** of appends and passes, whatever the records,
however the sink answers and also where a pass raises: the bytes on the disk and those reclaimed are
the bytes appended, the segments on the disk and those deleted are the segments opened, each closed
segment is full, and none is longer than its last record makes it. -/
theorem disk_books (c : Shipping.Config) (rejectIds : PySet) (as : List Action) :
    DiskBooks c.segment (Machine.after (step c) (init c rejectIds) as).world := by
  refine Machine.invariant (P := fun _ _ => True) (I := fun d : Depot => DiskBooks c.segment d.world)
    (fun d a h _ => ?_) (books_init c rejectIds) fun _ _ _ _ => trivial
  cases a with
  | append r => exact h.append r
  | run batchSize => exact books_run c.maxAttempts batchSize h
  | setUp up => exact h
  | setFailNext n => exact h

end Depot
