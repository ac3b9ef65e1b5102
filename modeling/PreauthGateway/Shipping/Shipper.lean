import PreauthGateway.Program.Calls
import PreauthGateway.Shipping.SegmentedWal
import PreauthGateway.Shipping.Watermark

/-!
# The shipper

A pass reads the watermark and the log, sends what is not acknowledged in batches, and writes the
watermark once at its end. Truncation deletes the segments, other than the active one, whose records
are all acknowledged. Both are programs that call their environment: every access to a file, the
sink, the poison list and the counters is one call.

The sleep between two attempts has no effect here. A segment that is read or deleted exists, since
nothing else deletes one.

## Main definitions

* `Call`, `Call.Answer`: what the shipper asks of its environment
* `Shipper.shipOnce`, `Shipper.truncate`, `Shipper.run`: the programs
-/

open Json

/-- The counters of `ShipperStats`. -/
inductive Counter
  | batches
  | shipped
  | retries
  | poisoned
  | segmentsDeleted
  | bytesReclaimed
  | watermarkWrites
deriving DecidableEq

/-- `send` returns, raises `SinkError` or raises `SinkRejected`. -/
inductive SendResult
  | returned
  | error
  | rejected
deriving DecidableEq

/-- The calls of the shipper. -/
inductive Call
  | readWatermark
  | listSegments
  | readSegment (n : ℕ)
  | activeSegment
  | send (batch : List Json)
  | poison (r : Json)
  | writeTmp (b : Bytes)
  | replaceWatermark
  | segmentSize (n : ℕ)
  | unlink (n : ℕ)
  | count (c : Counter) (n : ℕ)

/-- What each call returns. -/
abbrev Call.Answer : Call → Type
  | .readWatermark => Option Bytes
  | .listSegments => List ℕ
  | .readSegment _ => Bytes
  | .activeSegment => ℕ
  | .send _ => SendResult
  | .segmentSize _ => ℕ
  | .poison _ | .writeTmp _ | .replaceWatermark | .unlink _ | .count _ _ => Unit

/-- A program of the shipper. -/
abbrev ShipperM := Prog Call Call.Answer PyError

open Prog (ofExcept)

/-- One call. -/
def ask (o : Call) : ShipperM o.Answer := Prog.perform o

/-- `r["decision_id"]`. -/
def itemDecisionId : Json → Except PyError Json
  | .obj kvs =>
    match Json.get? decisionIdKey kvs with
    | some v => .ok v
    | none => .error .keyError
  | _ => .error .typeError

/-- `[r["decision_id"] for r in batch]`. -/
def itemDecisionIds : List Json → Except PyError (List Json)
  | [] => .ok []
  | r :: rs => do
    let i ← itemDecisionId r
    let is ← itemDecisionIds rs
    return i :: is

/-- `all(r.get("decision_id") in ids for r in recs)`, which stops at the first that is not. -/
def allIn (ids : PySet) : List Json → Except PyError Bool
  | [] => .ok true
  | r :: rs => do
    if ← idIn ids r then allIn ids rs else return false

/-- `pending[i:i + size]` for `i` in `range(0, len(pending), size)`. -/
def batches (size : ℕ) (pending : List Json) : List (List Json) :=
  (List.range ((pending.length + size - 1) / size)).map fun i =>
    (pending.drop (i * size)).take size

namespace Shipper

/-- `self.watermark.read()`. -/
def readWatermark : ShipperM PySet := do
  let file ← ask .readWatermark
  ofExcept (Watermark.read file)

/-- `self.wal.read_segment(seg)`. -/
def readSegment (n : ℕ) : ShipperM (List Json) := do
  let b ← ask (.readSegment n)
  ofExcept (SegmentedWal.readSegment b)

/-- The loop of `self.wal.records()`. -/
def readAll : List ℕ → ShipperM (List Json)
  | [] => return []
  | n :: ns => do
    let out ← readSegment n
    let rest ← readAll ns
    return out ++ rest

/-- `unshipped`. -/
def unshipped : ShipperM (List Json) := do
  let acked ← readWatermark
  let segs ← ask .listSegments
  let recs ← readAll segs
  ofExcept (notIn acked recs)

/-- The records of a rejected batch, sent one at a time. -/
def sendEach : List Json → List Json → ShipperM (List Json)
  | [], newly => return newly
  | r :: rs, newly => do
    match ← ask (.send [r]) with
    | .returned =>
      let i ← ofExcept (itemDecisionId r)
      sendEach rs (newly ++ [i])
    | .rejected =>
      ask (.poison r)
      ask (.count .poisoned 1)
      let i ← ofExcept (itemDecisionId r)
      sendEach rs (newly ++ [i])
    | .error => sendEach rs newly

/-- The attempts to send one batch. -/
def sendBatch (batch : List Json) : ℕ → List Json → ShipperM (List Json)
  | 0, newly => return newly
  | attempts + 1, newly => do
    match ← ask (.send batch) with
    | .returned =>
      let is ← ofExcept (itemDecisionIds batch)
      return newly ++ is
    | .rejected => sendEach batch newly
    | .error =>
      -- after the last attempt the records stay unshipped
      ask (.count .retries 1)
      sendBatch batch attempts newly

/-- The loop over the batches; `newly` are the ids to acknowledge. -/
def sendBatches (maxAttempts : ℕ) : List (List Json) → List Json → ShipperM (List Json)
  | [], newly => return newly
  | b :: bs, newly => do
    ask (.count .batches 1)
    let newly ← sendBatch b maxAttempts newly
    sendBatches maxAttempts bs newly

/-- `self.watermark.write(ids)`. -/
def writeWatermark (ids : PySet) : ShipperM Unit := do
  let b ← ofExcept (Watermark.payload ids)
  ask (.writeTmp b)
  ask .replaceWatermark

/-- The end of a pass: `newly` is added to the watermark, unless it is empty. -/
def acknowledge (acked : PySet) (newly : List Json) : ShipperM ℕ := do
  if newly = [] then return 0
  else
    let ids ← ofExcept (Watermark.setOf newly)
    writeWatermark (acked.union ids)
    ask (.count .watermarkWrites 1)
    ask (.count .shipped newly.length)
    return newly.length

/-- `ship_once`. -/
def shipOnce (maxAttempts batchSize : ℕ) : ShipperM ℕ := do
  let pending ← unshipped
  if pending = [] then return 0
  else
    let acked ← readWatermark
    if batchSize = 0 then Prog.raise (.valueError "range() arg 3 must not be zero")
    else
      let newly ← sendBatches maxAttempts (batches batchSize pending) []
      acknowledge acked newly

/-- The loop of `truncate`. -/
def truncateSegments (acked : PySet) (active : ℕ) : List ℕ → ℕ → ShipperM ℕ
  | [], deleted => return deleted
  | n :: ns, deleted => do
    if n = active then truncateSegments acked active ns deleted
    else
      let recs ← readSegment n
      if recs = [] then truncateSegments acked active ns deleted
      else
        if ← ofExcept (allIn acked recs) then
          let size ← ask (.segmentSize n)
          ask (.count .bytesReclaimed size)
          ask (.unlink n)
          ask (.count .segmentsDeleted 1)
          truncateSegments acked active ns (deleted + 1)
        else truncateSegments acked active ns deleted

/-- `truncate`. -/
def truncate : ShipperM ℕ := do
  let acked ← readWatermark
  let active ← ask .activeSegment
  let segs ← ask .listSegments
  truncateSegments acked active segs 0

/-- `run`: ship, then truncate; with the two counts it returns what remains unshipped. -/
def run (maxAttempts batchSize : ℕ) : ShipperM (ℕ × ℕ × ℕ) := do
  let shipped ← shipOnce maxAttempts batchSize
  let deleted ← truncate
  let remaining ← unshipped
  return (shipped, deleted, remaining.length)

end Shipper
