import PreauthGateway.Gateway.Decision
import PreauthGateway.Json.RoundTrip
import PreauthGateway.Program.Framing

/-!
# The binary transport

`BinaryModelClient` sends one frame for each call of `score` over a socket that it keeps, and reads
one frame back; whatever raises makes it forget the socket. The server has a handler for each
connection, which reads a frame, scores the features in it and writes a frame back. A connection is
a pair of byte streams. What one side has written the other reads in chunks of any size, at any
later time, whether the writer still has the connection or not.

The score is any that `burn_and_score` may return for the features; when it raises the handler ends.
How `float` reads a string is a parameter. Every byte of a request carries the number of the call
that wrote it, which only the history looks at.

## Main definitions

* `BinaryTransport.Conn`, `BinaryTransport.Conn.serve`: a connection, and the steps of its handler
* `BinaryTransport.step`: the steps of the client and of the handlers
* `BinaryTransport.Scored`, `BinaryTransport.Returned`: what was computed, and what was returned

## Main results

* `BinaryTransport.decodeReply_replyPayload`: the client reads the score that the server wrote
-/

open Json Framing

namespace BinaryTransport

/-! ## Payloads -/

/-- `json.loads` of UTF-8. -/
def loadsBytes (b : Bytes) : Option Json := (Utf8.decode b).bind loads

/-- `json.dumps(features).encode()`. -/
def requestPayload (features : Json) : Bytes := Utf8.encode (dumps .spaced features)

/-- `MODEL_VERSION` of the server. -/
def modelVersion : String := "preauth-model-0.3.0"

/-- `{"score": score, "model_version": MODEL_VERSION}`. -/
def answer (score : Score) : Json :=
  .obj [(PyStr.ofString "score", .float score.lit),
    (PyStr.ofString "model_version", jsonText modelVersion)]

/-- What the server writes after the length. -/
def replyPayload (score : Score) : Bytes := Utf8.encode (dumps .spaced (answer score))

/-- The value of a float's text. -/
def floatValue (lit : List Char) : PyFloat :=
  match floatKey lit with
  | .num q => .num (Double.finite q)
  | .inf neg => .num (if neg then ⊥ else ⊤)
  | .nan | .none | .str _ => .nan

/-- `float(v)`; `ofText` reads a string. -/
def toFloat (ofText : PyStr → Option PyFloat) : Json → Option PyFloat
  | .float lit => some (floatValue lit)
  | .int i => (Double.round i).map fun q => .num (Double.finite q)
  | .bool b => some (.num (Double.finite (if b then 1 else 0)))
  | .str s => ofText s
  | .null | .arr _ | .obj _ => none

/-- `float(json.loads(body)["score"])`; `none` where one of the three raises. -/
def decodeReply (ofText : PyStr → Option PyFloat) (body : Bytes) : Option PyFloat :=
  match loadsBytes body with
  | some (.obj kvs) => (Json.get? (PyStr.ofString "score") kvs).bind (toFloat ofText)
  | _ => none

theorem answer_valid (score : Score) : (answer score).Valid := by
  have hscore : isValid (.float score.lit) = true := score.valid
  have hversion : isValid (jsonText modelVersion) = true := valid_jsonText _
  have hkeys : [PyStr.ofString "score", PyStr.ofString "model_version"].Nodup := by decide +kernel
  rw [answer, valid_obj]
  refine ⟨hkeys, ?_⟩
  simp only [isValidMembers, hscore, hversion, PyStr.unicode_ofString, decide_true, Bool.and_true]

/-- What the server writes is read as it was. -/
theorem loadsBytes_dumps {v : Json} (h : v.Valid) :
    loadsBytes (Utf8.encode (dumps .spaced v)) = some v := by
  rw [loadsBytes, Utf8.decode_encode, Option.bind_some, loads_dumps _ h]

/-- **The client reads the score that the server wrote.** -/
theorem decodeReply_replyPayload (ofText : PyStr → Option PyFloat) (score : Score) :
    decodeReply ofText (replyPayload score) = some score.value := by
  rw [decodeReply, replyPayload, loadsBytes_dumps (answer_valid score)]
  simp only [answer, Json.get?, if_true, Option.bind_some, toFloat]
  rfl

/-! ## Connections -/

/-- Bytes of requests, each with the number of the call that wrote it. -/
abbrev Marked := List (UInt8 × ℕ)

/-- Bytes that one call wrote. -/
def mark (call : ℕ) (b : Bytes) : Marked := b.map fun x => (x, call)

/-- The bytes alone. -/
def unmark (m : Marked) : Bytes := m.map Prod.fst

/-- Where a handler is in its loop. -/
inductive Handler
  | reading (r : Reader)
  | scoring (features : Json)
  | sending (rest : Bytes)
  | closed

/-- A connection: what is under way in both directions, and its handler with the bytes that it has
read since its last reply. -/
structure Conn where
  toServer : Marked := []
  toClient : Bytes := []
  handler : Handler := .reading (.header [])
  read : Marked := []

/-- A score that the server computed, and the bytes it read for it. -/
structure Scored where
  frame : Marked
  features : Json
  score : Score

/-- What a handler does next: `recv` or `sendall` move some bytes, `burn_and_score` returns or
raises, or the handler ends. -/
inductive HandlerAction
  | received (n : ℕ)
  | computed (score : Option Score)
  | sent (n : ℕ)
  | closed

namespace Conn

/-- The handler has a whole request. -/
def request (body : Bytes) (c : Conn) : Conn :=
  match loadsBytes body with
  | some features => { c with handler := .scoring features }
  | none => { c with handler := .closed }

/-- The handler has a score; a reply that is too long for its header raises. -/
def reply (score : Score) (c : Conn) : Conn :=
  if (replyPayload score).length < 2 ^ 32 then
    { c with handler := .sending (frame (replyPayload score)) }
  else { c with handler := .closed }

/-- One step of the handler, and what it computed. -/
def serve (c : Conn) : HandlerAction → Option (Conn × List Scored)
  | .received n =>
    match c.handler with
    | .reading r =>
      if 0 < n ∧ n ≤ r.need ∧ n ≤ c.toServer.length then
        let next := { c with toServer := c.toServer.drop n, read := c.read ++ c.toServer.take n }
        match r.feed (unmark (c.toServer.take n)) with
        | .inl r => some ({ next with handler := .reading r }, [])
        | .inr body => some (next.request body, [])
      else none
    | _ => none
  | .computed score =>
    match c.handler, score with
    | .scoring features, some score => some (c.reply score, [⟨c.read, features, score⟩])
    | .scoring _, none => some ({ c with handler := .closed }, [])
    | _, _ => none
  | .sent n =>
    match c.handler with
    | .sending rest =>
      if 0 < n ∧ n ≤ rest.length then
        let next := { c with toClient := c.toClient ++ rest.take n }
        if rest.drop n = [] then
          some ({ next with handler := .reading (.header []), read := [] }, [])
        else some ({ next with handler := .sending (rest.drop n) }, [])
      else none
    | _ => none
  | .closed => some ({ c with handler := .closed }, [])

end Conn

/-! ## The client -/

/-- Where a call of `score` is. -/
inductive Phase
  | connecting
  | sending (rest : Bytes)
  | receiving (r : Reader)

/-- A call of `score` that is under way. -/
structure ScoreCall where
  number : ℕ
  features : Json
  phase : Phase

/-- A call of `score` that returned. -/
structure Returned where
  number : ℕ
  features : Json
  value : PyFloat

/-- The client, the connections it has ever opened and the history; `sock` is the number of a
connection. -/
structure Transport where
  sock : Option ℕ := none
  call : Option ScoreCall := none
  conns : List Conn := []
  calls : ℕ := 0
  scored : List Scored := []
  returned : List Returned := []

/-- What happens next: `score` is called, an operation of the client succeeds, moving some bytes, or
fails, the client is closed, or a handler makes a step. -/
inductive Action
  | score (features : Json)
  | connected
  | sent (n : ℕ)
  | received (n : ℕ)
  | failed
  | close
  | handler (k : ℕ) (a : HandlerAction)

namespace Transport

/-- The call raises, and the socket is forgotten. -/
def giveUp (t : Transport) : Transport := { t with sock := none, call := none }

/-- The call has a socket and starts to send; a request that is too long for its header raises. -/
def send (number : ℕ) (features : Json) (t : Transport) : Transport :=
  if (requestPayload features).length < 2 ^ 32 then
    { t with call := some ⟨number, features, .sending (frame (requestPayload features))⟩ }
  else t.giveUp

/-- The call has a whole reply. -/
def finish (ofText : PyStr → Option PyFloat) (call : ScoreCall) (body : Bytes) (t : Transport) :
    Transport :=
  match decodeReply ofText body with
  | some value =>
    { t with
      call := none
      returned := t.returned ++ [⟨call.number, call.features, value⟩] }
  | none => t.giveUp

end Transport

/-- One step; `none` where the action is not possible. -/
def step (ofText : PyStr → Option PyFloat) (t : Transport) : Action → Option Transport
  | .score features =>
    match t.call, t.sock with
    | none, none =>
      some { t with call := some ⟨t.calls, features, .connecting⟩, calls := t.calls + 1 }
    | none, some _ => some (Transport.send t.calls features { t with calls := t.calls + 1 })
    | some _, _ => none
  | .connected =>
    match t.call with
    | some ⟨number, features, .connecting⟩ => some (Transport.send number features
        { t with sock := some t.conns.length, conns := t.conns ++ [{}] })
    | _ => none
  | .sent n =>
    match t.call, t.sock with
    | some ⟨number, features, .sending rest⟩, some k =>
      if 0 < n ∧ n ≤ rest.length then
        some { t with
          conns := t.conns.modify k fun c =>
            { c with toServer := c.toServer ++ mark number (rest.take n) }
          call := some ⟨number, features,
            if rest.drop n = [] then .receiving (.header []) else .sending (rest.drop n)⟩ }
      else none
    | _, _ => none
  | .received n =>
    match t.call, t.sock with
    | some ⟨number, features, .receiving r⟩, some k =>
      match t.conns[k]? with
      | some c =>
        if 0 < n ∧ n ≤ r.need ∧ n ≤ c.toClient.length then
          let next := { t with
            conns := t.conns.modify k fun c => { c with toClient := c.toClient.drop n } }
          match r.feed (c.toClient.take n) with
          | .inl r => some { next with call := some ⟨number, features, .receiving r⟩ }
          | .inr body => some (next.finish ofText ⟨number, features, .receiving r⟩ body)
        else none
      | none => none
    | _, _ => none
  | .failed => if t.call.isSome then some t.giveUp else none
  | .close => if t.call.isSome then none else some t.giveUp
  | .handler k a =>
    match t.conns[k]? with
    | some c =>
      match c.serve a with
      | some (c', scored) =>
        some { t with conns := t.conns.set k c', scored := t.scored ++ scored }
      | none => none
    | none => none

end BinaryTransport
