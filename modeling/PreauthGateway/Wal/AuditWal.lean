import PreauthGateway.Wal.Records

/-!
# The write-ahead log of audit records

`AuditWal` appends one line per record to a file, flushes it to the operating system, and syncs it
to the device as often as its `fsync` setting says. `DurableAuditLog` keeps the records it has
written in a buffer, which `drain` moves to the list of shipped records; `recover` reads the log
back and returns the records whose id is not among those of the shipped ones.

The clock is an input: each operation takes the readings of `time.perf_counter` it makes. The file
is the one the open handle appends to, so `records` always finds it.

## Main definitions

* `AuditWal`, `AuditWal.openAt`, `AuditWal.append`, `AuditWal.records`, `AuditWal.unshipped`
* `DurableAuditLog`, `DurableAuditLog.write`, `DurableAuditLog.drain`, `DurableAuditLog.recover`

## Main results

* `AuditWal.file_appendAll`: appending adds one line per record
* `AuditWal.records_of_file`: what `records` reads back
-/

open Json

/-- `"never"`, `"batch"` or `"always"`. -/
inductive FsyncMode
  | never
  | batch
  | always
deriving DecidableEq

/-- The check of the `fsync` argument. -/
def FsyncMode.ofString (s : String) : Except PyError FsyncMode :=
  if s = "never" then .ok .never
  else if s = "batch" then .ok .batch
  else if s = "always" then .ok .always
  else .error (.valueError "fsync must be never | batch | always")

structure WalStats where
  appended : ℕ := 0
  fsyncs : ℕ := 0
  shipped : ℕ := 0
  truncated : ℕ := 0
  appendMs : List ℚ := []
deriving DecidableEq

/-- The settings of a log. -/
structure WalConfig where
  fsync : FsyncMode := .batch
  batchSize : ℤ := 50
  batchMs : ℚ := 200

/-- The readings of the clock one `append` makes, in seconds: before the lock, in `_should_fsync`,
after a sync, and at the end. -/
structure AppendClock where
  t0 : ℚ
  check : ℚ
  sync : ℚ
  done : ℚ

/-- A log: its settings and counters, what its file holds, and the part of the file that is on the
device. -/
structure AuditWal where
  config : WalConfig
  stats : WalStats := {}
  sinceSync : ℕ := 0
  lastSync : ℚ
  file : Bytes
  synced : Bytes

namespace AuditWal

/-- `AuditWal(path, …)` on a file that holds `file`, empty when there was none. -/
def openAt (config : WalConfig) (now : ℚ) (file : Bytes) : AuditWal :=
  { config, lastSync := now, file, synced := file }

/-- `_should_fsync`, after the counter was raised. -/
def shouldFsync (w : AuditWal) (now : ℚ) : Bool :=
  match w.config.fsync with
  | .always => true
  | .never => false
  | .batch => w.config.batchSize ≤ w.sinceSync || w.config.batchMs ≤ (now - w.lastSync) * 1000

/-- The write and the flush of one line. -/
def writeLine (w : AuditWal) (record : JsonObject) : AuditWal :=
  { w with file := w.file ++ Utf8.encode (line record), sinceSync := w.sinceSync + 1 }

/-- `os.fsync` and what follows it. -/
def syncNow (w : AuditWal) (now : ℚ) : AuditWal :=
  { w with
    synced := w.file
    stats := { w.stats with fsyncs := w.stats.fsyncs + 1 }
    sinceSync := 0
    lastSync := now }

/-- `append`. -/
def append (c : AppendClock) (record : JsonObject) (w : AuditWal) : AuditWal :=
  let w := w.writeLine record
  let w := if w.shouldFsync c.check then w.syncNow c.sync else w
  { w with stats := { w.stats with
      appended := w.stats.appended + 1
      appendMs := w.stats.appendMs ++ [(c.done - c.t0) * 1000] } }

/-- The appends of a list of records, each with its readings of the clock. -/
def appendAll (w : AuditWal) (rs : List (AppendClock × JsonObject)) : AuditWal :=
  rs.foldl (fun w p => w.append p.1 p.2) w

/-- `records`: everything on disk, with the torn lines counted. -/
def records (w : AuditWal) : Except PyError (List Json × AuditWal) :=
  match readLog w.file with
  | none => .error .unicodeDecodeError
  | some (out, torn) =>
    .ok (out, { w with stats := { w.stats with truncated := w.stats.truncated + torn } })

/-- `unshipped`. -/
def unshipped (w : AuditWal) (shippedIds : PySet) : Except PyError (List Json × AuditWal) := do
  let (out, w) ← w.records
  let pending ← notIn shippedIds out
  return (pending, w)

section Append

variable (w : AuditWal) (c : AppendClock) (r : JsonObject)

/-- An append adds one line to the file. -/
@[simp] theorem file_append : (w.append c r).file = w.file ++ logBytes [r] := by
  rw [logBytes, logText_singleton]
  simp only [append]
  split <;> rfl

end Append

/-- **Appending adds one line per record.** -/
theorem file_appendAll (w : AuditWal) (rs : List (AppendClock × JsonObject)) :
    (w.appendAll rs).file = w.file ++ logBytes (rs.map Prod.snd) := by
  induction rs generalizing w with
  | nil => simp [appendAll]
  | cons p rs ih =>
    have h := ih (w.append p.1 p.2)
    rw [file_append, List.append_assoc, ← logBytes_append] at h
    exact h

/-- What `records` reads back. -/
theorem records_of_file {w : AuditWal} {out : List Json} {torn : ℕ}
    (h : readLog w.file = some (out, torn)) :
    w.records =
      .ok (out, { w with stats := { w.stats with truncated := w.stats.truncated + torn } }) := by
  rw [records, h]

end AuditWal

/-- The audit log of the service: a log, the records not yet drained, and those drained. -/
structure DurableAuditLog where
  wal : AuditWal
  buffer : List JsonObject := []
  shipped : List JsonObject := []
  sinkUp : Bool := true

namespace DurableAuditLog

/-- `write`: durable first, then the buffer. -/
def write (c : AppendClock) (record : JsonObject) (d : DurableAuditLog) : DurableAuditLog :=
  { d with wal := d.wal.append c record, buffer := d.buffer ++ [record] }

/-- `drain`, with the number of records it moved. -/
def drain (d : DurableAuditLog) : ℕ × DurableAuditLog :=
  if d.sinkUp then
    (d.buffer.length, { d with
      shipped := d.shipped ++ d.buffer
      buffer := []
      wal := { d.wal with stats := { d.wal.stats with
        shipped := d.wal.stats.shipped + d.buffer.length } } })
  else (0, d)

/-- `{r.get("decision_id") for r in self.shipped}`. -/
def shippedIds (d : DurableAuditLog) : Except PyError PySet :=
  match PySet.ofList (d.shipped.map JsonObject.decisionId) with
  | some ids => .ok ids
  | none => .error .typeError

/-- `recover`. -/
def recover (d : DurableAuditLog) : Except PyError (List Json × DurableAuditLog) := do
  let ids ← d.shippedIds
  let (out, wal) ← d.wal.unshipped ids
  return (out, { d with wal })

end DurableAuditLog
