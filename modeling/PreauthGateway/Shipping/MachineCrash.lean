import PreauthGateway.Program.Durability
import PreauthGateway.Shipping.SegmentedWal
import PreauthGateway.Wal.AuditWal

/-!
# What a machine crash may lose of the logs

Each append writes one record to a file and, when it is due, syncs that file. In the segmented log
the counter of the unsynced records goes on from one segment to the next, but a segment is synced
before the next one is opened.

## Main definitions

* `AuditWal.appendOps`, `SegmentedWal.appendOps`: the operations on files of an append
* `SegmentedWal.Backed`: a segmented log with what the device has of it
* `AuditWal.Guarded`, `SegmentedWal.Guarded`: the records at risk are counted, and their lines are
  what the device lacks

## Main results

* `AuditWal.guarded_after`, `SegmentedWal.guarded_after`: **the records at risk are those whose
  lines are not on the device**
* `machine_crash_bounded`: **an append leaves less than a batch of records at risk**
-/

open Json FileOp

/-! ## The plain log -/

namespace AuditWal

/-- The operations of `append` on its file. -/
def appendOps (c : AppendClock) (record : JsonObject) (w : AuditWal) : List (FileOp Unit JsonObject) :=
  .write () record :: if (w.writeLine record).shouldFsync c.check then [.sync ()] else []

/-- A log answers an append with what it did to its file. -/
def step (w : AuditWal) (p : AppendClock × JsonObject) : List (FileOp Unit JsonObject) × AuditWal :=
  (w.appendOps p.1 p.2, w.append p.1 p.2)

/-- The records at risk after some operations are those the counter counts, and their lines are what
the device lacks. -/
structure Guarded (ops : List (FileOp Unit JsonObject)) (w : AuditWal) : Prop where
  counted : (atRisk ops).length = w.sinceSync
  file : w.file = w.synced ++ logBytes ((atRisk ops).map Prod.snd)

variable {config : WalConfig} {now : ℚ} {file : Bytes} {w : AuditWal}
  {ops : List (FileOp Unit JsonObject)}

theorem guarded_openAt : Guarded [] (openAt config now file) :=
  ⟨rfl, (List.append_nil file).symm⟩

/-- The write and the flush of a line. -/
theorem Guarded.writeLine (h : Guarded ops w) (r : JsonObject) :
    Guarded (ops ++ [.write () r]) (w.writeLine r) := by
  constructor
  · rw [atRisk_write, List.length_append, List.length_singleton, h.counted]
    rfl
  · rw [atRisk_write, List.map_append, logBytes_append, ← List.append_assoc]
    have hline : (w.writeLine r).file = w.file ++ logBytes [r] := by
      rw [logBytes, logText_singleton]
      rfl
    rw [hline, h.file]
    rfl

/-- A sync covers everything. -/
theorem guarded_syncNow (ops : List (FileOp Unit JsonObject)) (w : AuditWal) (now : ℚ) :
    Guarded (ops ++ [.sync ()]) (w.syncNow now) := by
  have hnone : atRisk (ops ++ [.sync ()]) = [] := atRisk_sync fun _ _ => rfl
  constructor
  · rw [hnone]
    rfl
  · rw [hnone]
    exact (List.append_nil _).symm

theorem Guarded.append (h : Guarded ops w) (c : AppendClock) (r : JsonObject) :
    Guarded (ops ++ w.appendOps c r) (w.append c r) := by
  have hline := h.writeLine r
  rw [appendOps, List.append_cons, AuditWal.append]
  by_cases hdue : (w.writeLine r).shouldFsync c.check
  · rw [if_pos hdue, if_pos hdue]
    have hsync := guarded_syncNow (ops ++ [.write () r]) (w.writeLine r) c.sync
    exact ⟨hsync.counted, hsync.file⟩
  · rw [if_neg hdue, if_neg hdue, List.append_nil]
    exact ⟨hline.counted, hline.file⟩

/-- An append leaves the counter below the size of a batch. -/
theorem sinceSync_append (w : AuditWal) (c : AppendClock) (r : JsonObject) :
    (w.config.fsync = .always → (w.append c r).sinceSync = 0) ∧
      (w.config.fsync = .batch → 1 ≤ w.config.batchSize →
        ((w.append c r).sinceSync : ℤ) ≤ w.config.batchSize - 1) := by
  have hconfig : (w.writeLine r).config = w.config := rfl
  rw [AuditWal.append]
  by_cases hdue : (w.writeLine r).shouldFsync c.check
  · rw [if_pos hdue]
    refine ⟨fun _ => rfl, fun _ hsize => ?_⟩
    have hzero : ((w.writeLine r).syncNow c.sync).sinceSync = 0 := rfl
    rw [hzero]
    omega
  · rw [if_neg hdue]
    refine ⟨fun halways => ?_, fun hbatch _ => ?_⟩
    · rw [shouldFsync, hconfig, halways] at hdue
      exact absurd rfl hdue
    · rw [shouldFsync, hconfig, hbatch] at hdue
      simp only [Bool.or_eq_true, decide_eq_true_eq, not_or, not_le] at hdue
      exact Int.le_sub_one_of_lt hdue.1

theorem config_append (w : AuditWal) (c : AppendClock) (r : JsonObject) :
    (w.append c r).config = w.config := by
  rw [AuditWal.append]
  split <;> rfl

/-- **The records at risk are those whose lines are not on the device**, after any appends to an
open log. -/
theorem guarded_after (config : WalConfig) (now : ℚ) (file : Bytes)
    (rs : List (AppendClock × JsonObject)) :
    Guarded (Machine.trace step (openAt config now file) rs)
      (Machine.after step (openAt config now file) rs) := by
  induction rs using List.reverseRecOn with
  | nil => exact guarded_openAt
  | append_singleton rs p ih =>
    rw [Machine.trace_concat, Machine.after_concat]
    exact ih.append p.1 p.2

theorem config_after (w : AuditWal) (rs : List (AppendClock × JsonObject)) :
    (Machine.after step w rs).config = w.config := by
  induction rs using List.reverseRecOn with
  | nil => rfl
  | append_singleton rs p ih =>
    rw [Machine.after_concat]
    exact (config_append _ p.1 p.2).trans ih

/-- After any appends to an open log the counter is below the size of a batch. -/
theorem sinceSync_after (config : WalConfig) (now : ℚ) (file : Bytes)
    (rs : List (AppendClock × JsonObject)) :
    let w := Machine.after step (openAt config now file) rs
    (config.fsync = .always → w.sinceSync = 0) ∧
      (config.fsync = .batch → 1 ≤ config.batchSize →
        (w.sinceSync : ℤ) ≤ config.batchSize - 1) := by
  rcases List.eq_nil_or_concat rs with rfl | ⟨rs, p, rfl⟩
  · exact ⟨fun _ => rfl, fun _ hsize => Int.sub_nonneg_of_le hsize⟩
  · have hlast := sinceSync_append (Machine.after step (openAt config now file) rs) p.1 p.2
    rw [config_after] at hlast
    rw [List.concat_eq_append, Machine.after_concat]
    exact hlast

end AuditWal

/-! ## The segmented log -/

namespace SegmentedWal

/-- The operations of `syncIfDue`. -/
def syncOps (w : SegmentedWal) : List (FileOp ℕ JsonObject) :=
  if w.config.fsync = "always" ∨ (w.config.fsync = "batch" ∧ w.config.batchSize ≤ w.sinceSync) then
    [.sync w.seq]
  else []

/-- The operations of `rotateIfNeeded`: `_open_segment` syncs the file that it closes. -/
def rotateOps (w : SegmentedWal) : List (FileOp ℕ JsonObject) :=
  if w.config.segmentBytes ≤ w.openFile.length then [.sync w.seq] else []

/-- The operations of `append` on the segments. -/
def appendOps (record : JsonObject) (w : SegmentedWal) : List (FileOp ℕ JsonObject) :=
  .write w.seq record :: ((w.writeLine record).syncOps ++ (w.writeLine record).syncIfDue.rotateOps)

/-- A log answers an append with what it did to its segments. -/
def step (w : SegmentedWal) (record : JsonObject) : List (FileOp ℕ JsonObject) × SegmentedWal :=
  (w.appendOps record, w.append record)

/-- A segmented log, and the bytes of each segment that the device has. -/
structure Backed where
  log : SegmentedWal
  synced : ℕ → Bytes

namespace Backed

/-- The device has what the log is opened on. -/
def openAt (config : SegmentConfig) (dir : SegmentDir) : Backed where
  log := SegmentedWal.openAt config dir
  synced := (SegmentedWal.openAt config dir).segment

/-- `os.fsync` of the open file. -/
def fsync (b : Backed) : Backed :=
  { b with synced := Function.update b.synced b.log.seq b.log.openFile }

def writeLine (record : JsonObject) (b : Backed) : Backed :=
  { b with log := b.log.writeLine record }

def syncIfDue (b : Backed) : Backed :=
  if b.log.config.fsync = "always" ∨
      (b.log.config.fsync = "batch" ∧ b.log.config.batchSize ≤ b.log.sinceSync) then
    { b.fsync with log := b.log.syncIfDue }
  else b

def rotateIfNeeded (b : Backed) : Backed :=
  if b.log.config.segmentBytes ≤ b.log.openFile.length then
    { b.fsync with log := b.log.rotateIfNeeded }
  else b

/-- `append`, with its syncs. -/
def append (record : JsonObject) (b : Backed) : Backed :=
  (b.writeLine record).syncIfDue.rotateIfNeeded

def step (b : Backed) (record : JsonObject) : List (FileOp ℕ JsonObject) × Backed :=
  (b.log.appendOps record, b.append record)

end Backed

/-- The records at risk after some operations are in the active segment, the counter has all of
them, and their lines are what the device lacks. -/
structure Guarded (ops : List (FileOp ℕ JsonObject)) (b : Backed) : Prop where
  linked : b.log.unlinked = none
  active : ∀ p ∈ atRisk ops, p.1 = b.log.seq
  counted : (atRisk ops).length ≤ b.log.sinceSync
  file : ∀ n, b.log.segment n =
    b.synced n ++ logBytes (((atRisk ops).filter fun p => p.1 = n).map Prod.snd)

variable {w : SegmentedWal} {b : Backed} {ops : List (FileOp ℕ JsonObject)}

theorem guarded_openAt (config : SegmentConfig) (dir : SegmentDir) :
    Guarded [] (.openAt config dir) where
  linked := rfl
  active _ hp := absurd hp List.not_mem_nil
  counted := Nat.zero_le _
  file _ := (List.append_nil _).symm

/-- The write of a line. -/
theorem Guarded.writeLine (h : Guarded ops b) (r : JsonObject) :
    Guarded (ops ++ [.write b.log.seq r]) (b.writeLine r) := by
  have hlog : (b.writeLine r).log =
      { b.log with dir := b.log.grown r, sinceSync := b.log.sinceSync + 1 } := writeLine_eq h.linked r
  refine ⟨?_, ?_, ?_, fun n => ?_⟩
  · rw [hlog]
    exact h.linked
  · rw [atRisk_write, hlog]
    intro p hp
    rcases List.mem_append.mp hp with hp | hp
    · exact h.active p hp
    · rw [List.mem_singleton.mp hp]
  · rw [atRisk_write, hlog, List.length_append, List.length_singleton]
    exact Nat.succ_le_succ h.counted
  · have hseg : (b.writeLine r).log.segment n =
        b.log.segment n ++ if n = b.log.seq then logBytes [r] else [] := by
      rw [hlog]
      exact lookup_grown r n
    rw [hseg, h.file n, atRisk_write, List.filter_append, List.map_append, logBytes_append,
      List.append_assoc]
    by_cases hn : n = b.log.seq
    · simp [hn, Backed.writeLine]
    · simp [hn, Ne.symm hn, Backed.writeLine]

/-- **A sync of the open file leaves nothing at risk**: the other segments are on the device
already. -/
theorem Guarded.fsync (h : Guarded ops b) : Guarded (ops ++ [.sync b.log.seq]) b.fsync := by
  have hnone := atRisk_sync h.active
  refine ⟨h.linked, ?_, ?_, fun n => ?_⟩
  · rw [hnone]
    exact fun p hp => absurd hp List.not_mem_nil
  · rw [hnone]
    exact Nat.zero_le _
  · rw [hnone, List.filter_nil, List.map_nil, logBytes_nil, List.append_nil]
    by_cases hn : n = b.log.seq
    · have hopen : b.log.openFile = b.log.segment b.log.seq := by
        rw [openFile, h.linked, Option.getD_none, segment]
      have hsynced : b.fsync.synced b.log.seq = b.log.openFile := Function.update_self _ _ _
      rw [hn, hsynced, hopen]
      rfl
    · have hother : ((atRisk ops).filter fun p => p.1 = n) = [] := by
        refine List.filter_eq_nil_iff.mpr fun p hp => ?_
        rw [h.active p hp]
        simpa using Ne.symm hn
      have hfile := h.file n
      rw [hother, List.map_nil, logBytes_nil, List.append_nil] at hfile
      exact hfile.trans (Function.update_of_ne hn _ _).symm

theorem Guarded.syncIfDue (h : Guarded ops b) : Guarded (ops ++ b.log.syncOps) b.syncIfDue := by
  rw [syncOps, Backed.syncIfDue, SegmentedWal.syncIfDue]
  split
  · have hsync := h.fsync
    have hnone := atRisk_sync h.active
    exact ⟨hsync.linked, hsync.active, by rw [hnone]; exact Nat.zero_le _, hsync.file⟩
  · rw [List.append_nil]
    exact h

/-- The segment that is left is synced before the next one is opened, so that nothing in it stays at
risk while the counter goes on. -/
theorem Guarded.rotateIfNeeded (h : Guarded ops b) :
    Guarded (ops ++ b.log.rotateOps) b.rotateIfNeeded := by
  rw [rotateOps, Backed.rotateIfNeeded, SegmentedWal.rotateIfNeeded]
  split
  · have hsync := h.fsync
    have hnone := atRisk_sync h.active
    refine ⟨rfl, by rw [hnone]; exact fun p hp => absurd hp List.not_mem_nil, hsync.counted,
      fun n => ?_⟩
    exact (lookup_openDir b.log.dir (b.log.seq + 1) n).trans (hsync.file n)
  · rw [List.append_nil]
    exact h

theorem Backed.log_syncIfDue (b : Backed) : b.syncIfDue.log = b.log.syncIfDue := by
  unfold Backed.syncIfDue SegmentedWal.syncIfDue
  split <;> rfl

theorem Backed.log_rotateIfNeeded (b : Backed) : b.rotateIfNeeded.log = b.log.rotateIfNeeded := by
  unfold Backed.rotateIfNeeded SegmentedWal.rotateIfNeeded
  split <;> rfl

theorem Backed.log_append (b : Backed) (r : JsonObject) : (b.append r).log = b.log.append r := by
  rw [Backed.append, log_rotateIfNeeded, log_syncIfDue, append_eq_steps]
  rfl

theorem Guarded.append (h : Guarded ops b) (r : JsonObject) :
    Guarded (ops ++ b.log.appendOps r) (b.append r) := by
  have hrotate := (h.writeLine r).syncIfDue.rotateIfNeeded
  rw [Backed.log_syncIfDue] at hrotate
  rw [appendOps, List.append_cons, ← List.append_assoc]
  exact hrotate

theorem rotateIfNeeded_fields (w : SegmentedWal) :
    w.rotateIfNeeded.sinceSync = w.sinceSync ∧ w.rotateIfNeeded.config = w.config := by
  unfold SegmentedWal.rotateIfNeeded
  split <;> exact ⟨rfl, rfl⟩

theorem syncIfDue_config (w : SegmentedWal) : w.syncIfDue.config = w.config := by
  unfold SegmentedWal.syncIfDue
  split <;> rfl

theorem config_writeLine (w : SegmentedWal) (r : JsonObject) : (w.writeLine r).config = w.config := by
  unfold writeLine write
  split <;> rfl

theorem config_append (w : SegmentedWal) (r : JsonObject) : (w.append r).config = w.config := by
  rw [append_eq_steps, (rotateIfNeeded_fields _).2, syncIfDue_config, config_writeLine]

/-- An append leaves the counter below the size of a batch, whether it opens a segment or not. -/
theorem sinceSync_append (w : SegmentedWal) (r : JsonObject) :
    (w.config.fsync = "always" → (w.append r).sinceSync = 0) ∧
      (w.config.fsync = "batch" → 1 ≤ w.config.batchSize →
        ((w.append r).sinceSync : ℤ) ≤ w.config.batchSize - 1) := by
  rw [append_eq_steps, (rotateIfNeeded_fields _).1, SegmentedWal.syncIfDue, config_writeLine]
  split
  · refine ⟨fun _ => rfl, fun _ hsize => ?_⟩
    exact Int.sub_nonneg_of_le hsize
  · rename_i hdue
    rw [not_or, not_and, not_le] at hdue
    exact ⟨fun halways => absurd halways hdue.1, fun hbatch _ => Int.le_sub_one_of_lt (hdue.2 hbatch)⟩

/-- The operations, and the log, are those without the device. -/
theorem Backed.trace_eq (b : Backed) (rs : List JsonObject) :
    Machine.trace Backed.step b rs = Machine.trace SegmentedWal.step b.log rs ∧
      (Machine.after Backed.step b rs).log = Machine.after SegmentedWal.step b.log rs := by
  induction rs using List.reverseRecOn with
  | nil => exact ⟨rfl, rfl⟩
  | append_singleton rs r ih =>
    obtain ⟨htrace, hlog⟩ := ih
    rw [Machine.trace_concat, Machine.trace_concat, Machine.after_concat, Machine.after_concat, htrace]
    constructor
    · rw [Backed.step, hlog]
      rfl
    · rw [← hlog]
      exact Backed.log_append _ r

/-- **The records at risk are in the active segment, and are those whose lines are not on the
device**, after any appends to an open log. -/
theorem guarded_after (config : SegmentConfig) (dir : SegmentDir) (rs : List JsonObject) :
    Guarded (Machine.trace step (openAt config dir) rs)
      (Machine.after Backed.step (.openAt config dir) rs) := by
  have htrace := (Backed.trace_eq (.openAt config dir) rs).1
  have hlog : (Backed.openAt config dir).log = openAt config dir := rfl
  rw [← hlog, ← htrace]
  induction rs using List.reverseRecOn with
  | nil => exact guarded_openAt config dir
  | append_singleton rs r ih =>
    rw [Machine.trace_concat, Machine.after_concat]
    exact (ih (Backed.trace_eq _ rs).1).append r

theorem config_after (w : SegmentedWal) (rs : List JsonObject) :
    (Machine.after step w rs).config = w.config := by
  induction rs using List.reverseRecOn with
  | nil => rfl
  | append_singleton rs r ih =>
    rw [Machine.after_concat]
    exact (config_append _ r).trans ih

/-- After any appends to an open log the counter is below the size of a batch. -/
theorem sinceSync_after (config : SegmentConfig) (dir : SegmentDir) (rs : List JsonObject) :
    let w := Machine.after step (openAt config dir) rs
    (config.fsync = "always" → w.sinceSync = 0) ∧
      (config.fsync = "batch" → 1 ≤ config.batchSize →
        (w.sinceSync : ℤ) ≤ config.batchSize - 1) := by
  rcases List.eq_nil_or_concat rs with rfl | ⟨rs, r, rfl⟩
  · exact ⟨fun _ => rfl, fun _ hsize => Int.sub_nonneg_of_le hsize⟩
  · have hlast := sinceSync_append (Machine.after step (openAt config dir) rs) r
    rw [config_after] at hlast
    rw [List.concat_eq_append, Machine.after_concat]
    exact hlast

end SegmentedWal

/-! ## Both logs -/

/-- **A machine crash loses less than a batch of the records appended.** After any appends to an
open log of either kind, with any readings of the clock and any rotations, no record is at risk when
every append syncs, and fewer than a batch when a batch does; in the segmented log those are in the
active segment. -/
theorem machine_crash_bounded :
    (∀ (config : WalConfig) (now : ℚ) (file : Bytes) (rs : List (AppendClock × JsonObject)),
      let lost := atRisk (Machine.trace AuditWal.step (AuditWal.openAt config now file) rs)
      (config.fsync = .always → lost = []) ∧
        (config.fsync = .batch → 1 ≤ config.batchSize →
          (lost.length : ℤ) ≤ config.batchSize - 1)) ∧
    ∀ (config : SegmentConfig) (dir : SegmentDir) (rs : List JsonObject),
      let w := SegmentedWal.openAt config dir
      let lost := atRisk (Machine.trace SegmentedWal.step w rs)
      (config.fsync = "always" → lost = []) ∧
        (config.fsync = "batch" → 1 ≤ config.batchSize →
          (lost.length : ℤ) ≤ config.batchSize - 1) ∧
        ∀ p ∈ lost, p.1 = (Machine.after SegmentedWal.step w rs).activeSegment := by
  refine ⟨fun config now file rs => ?_, fun config dir rs => ?_⟩
  · -- the counter counts what is at risk, and is below a batch after an append
    have hguard := AuditWal.guarded_after config now file rs
    obtain ⟨halways, hbatch⟩ := AuditWal.sinceSync_after config now file rs
    refine ⟨fun h => ?_, fun h hsize => ?_⟩
    · rw [← List.length_eq_zero_iff, hguard.counted]
      exact halways h
    · rw [hguard.counted]
      exact hbatch h hsize
  · -- here it counts also what a rotation has synced
    have hguard := SegmentedWal.guarded_after config dir rs
    have hlog : (Machine.after SegmentedWal.Backed.step (.openAt config dir) rs).log =
        Machine.after SegmentedWal.step (SegmentedWal.openAt config dir) rs :=
      (SegmentedWal.Backed.trace_eq (.openAt config dir) rs).2
    have hle := hguard.counted
    have hactive := hguard.active
    rw [hlog] at hle hactive
    obtain ⟨halways, hbatch⟩ := SegmentedWal.sinceSync_after config dir rs
    refine ⟨fun h => ?_, fun h hsize => ?_, hactive⟩
    · have hzero := halways h
      rw [hzero] at hle
      exact List.length_eq_zero_iff.mp (Nat.le_zero.mp hle)
    · exact (Nat.cast_le.mpr hle).trans (hbatch h hsize)

/-- Batches of two: of three records, appended with a segment for each, at most one is at risk. -/
theorem machine_crash_bounded_three :
    let r : JsonObject := ⟨[], rfl⟩
    let plain := AuditWal.openAt { batchSize := 2 } 0 []
    let segmented := SegmentedWal.openAt { segmentBytes := 1, batchSize := 2 } ∅
    ((atRisk (Machine.trace AuditWal.step plain
        [(⟨0, 0, 0, 0⟩, r), (⟨1, 1, 1, 1⟩, r), (⟨2, 2, 2, 2⟩, r)])).length : ℤ) ≤ 2 - 1 ∧
      ((atRisk (Machine.trace SegmentedWal.step segmented [r, r, r])).length : ℤ) ≤ 2 - 1 := by
  obtain ⟨hplain, hsegmented⟩ := machine_crash_bounded
  exact ⟨(hplain { batchSize := 2 } 0 [] _).2 rfl (by decide),
    (hsegmented { segmentBytes := 1, batchSize := 2 } ∅ _).2.1 rfl (by decide)⟩
