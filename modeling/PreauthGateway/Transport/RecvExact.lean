import PreauthGateway.Program.Sockets

/-!
# Reading frames on both sides

The client and the server have a `_recv_exact` each, with the same loop. When the stream ends the
one of the client raises and the one of the server returns `None`.

## Main definitions

* `BinaryModelClient.recvExact`, `BinaryModelClient.readFrame`: the client's loop, and the reply it
  reads
* `ModelServer.recvExact`, `ModelServer.readFrame`: the server's loop, and the request it reads

## Main results

* `BinaryModelClient.readFrames_eq`, `ModelServer.readFrames_eq`: the two sides read alike
* `frames_round_trip`: **both sides read back what was framed**, and report a stream that is cut
-/

open Framing

/-- `ModelTransportError(text)`. -/
structure ModelTransportError where
  text : String
deriving DecidableEq

namespace BinaryModelClient

/-- What `_recv_exact` raises when the stream ends. -/
def closedMidFrame : ModelTransportError := ⟨"connection closed mid-frame"⟩

/-- `BinaryModelClient._recv_exact`. -/
def recvExact : ℕ → Socket → Except ModelTransportError (List UInt8) × Socket :=
  Framing.recvExact closedMidFrame

/-- The header and the body that `score` reads. -/
def readFrame (s : Socket) : Except ModelTransportError (List UInt8) × Socket :=
  match recvExact 4 s with
  | (.error e, s) => (.error e, s)
  | (.ok header, s) => recvExact (unpack header) s

/-- At most so many frames, and what is raised. -/
def readFrames : ℕ → Socket → (List (List UInt8) × Option ModelTransportError) × Socket
  | 0, s => (([], none), s)
  | k + 1, s =>
    match readFrame s with
    | (.error e, s) => (([], some e), s)
    | (.ok payload, s) =>
      let (out, s) := readFrames k s
      ((payload :: out.1, out.2), s)

theorem readFrame_eq (s : Socket) : readFrame s = Framing.readFrame closedMidFrame s := by
  rw [readFrame, recvExact, Framing.readFrame]
  obtain ⟨result, s'⟩ := Framing.recvExact closedMidFrame 4 s
  cases result <;> rfl

/-- **The client reads what the loop reads**, and raises where that reports. -/
theorem readFrames_eq (k : ℕ) (s : Socket) :
    readFrames k s = Framing.readFrames closedMidFrame k s := by
  induction k generalizing s with
  | zero => rfl
  | succ k ih =>
    rw [readFrames, readFrame_eq, Framing.readFrames]
    obtain ⟨result, s'⟩ := Framing.readFrame closedMidFrame s
    cases result with
    | error e => rfl
    | ok payload =>
      dsimp only
      rw [ih]

end BinaryModelClient

namespace ModelServer

/-- `_recv_exact` of the server; `none` is its `None`. -/
def recvExact (n : ℕ) (s : Socket) : Option (List UInt8) × Socket :=
  ((Framing.recvExact () n s).1.toOption, (Framing.recvExact () n s).2)

/-- The header and the body that a handler reads. -/
def readFrame (s : Socket) : Option (List UInt8) × Socket :=
  match recvExact 4 s with
  | (none, s) => (none, s)
  | (some header, s) => recvExact (unpack header) s

/-- At most so many frames, and whether a `None` ended the loop. -/
def readFrames : ℕ → Socket → (List (List UInt8) × Bool) × Socket
  | 0, s => (([], false), s)
  | k + 1, s =>
    match readFrame s with
    | (none, s) => (([], true), s)
    | (some payload, s) =>
      let (out, s) := readFrames k s
      ((payload :: out.1, out.2), s)

theorem readFrame_eq (s : Socket) :
    readFrame s = ((Framing.readFrame () s).1.toOption, (Framing.readFrame () s).2) := by
  rw [readFrame, recvExact, Framing.readFrame]
  obtain ⟨result, s'⟩ := Framing.recvExact () 4 s
  cases result <;> rfl

/-- **The server reads what the loop reads**, and gets a `None` where that reports. -/
theorem readFrames_eq (k : ℕ) (s : Socket) :
    readFrames k s = (((Framing.readFrames () k s).1.1, (Framing.readFrames () k s).1.2.isSome),
      (Framing.readFrames () k s).2) := by
  induction k generalizing s with
  | zero => rfl
  | succ k ih =>
    rw [readFrames, readFrame_eq, Framing.readFrames]
    obtain ⟨result, s'⟩ := Framing.readFrame () s
    cases result with
    | error e => rfl
    | ok payload =>
      dsimp only [Except.toOption]
      rw [ih]

end ModelServer

/-- **Frames make the round trip, however the stream is cut into chunks.** The client and the server
read back the payloads in order and leave what follows them; and where the stream ends inside a
frame, they read the payloads before it and report the end, the client with its exception and the
server with a `None`. -/
theorem frames_round_trip (payloads : List (List UInt8)) (h : ∀ p ∈ payloads, p.length < 2 ^ 32)
    (sizes : ℕ → ℕ) :
    (∀ rest : List UInt8,
      (∃ sizes', BinaryModelClient.readFrames payloads.length ⟨payloads.flatMap frame ++ rest, sizes⟩ =
        ((payloads, none), ⟨rest, sizes'⟩)) ∧
      ∃ sizes', ModelServer.readFrames payloads.length ⟨payloads.flatMap frame ++ rest, sizes⟩ =
        ((payloads, false), ⟨rest, sizes'⟩)) ∧
    ∀ (payload front : List UInt8) (k : ℕ), payload.length < 2 ^ 32 → front <+: frame payload →
      front ≠ frame payload → payloads.length < k →
      (∃ sizes', BinaryModelClient.readFrames k ⟨payloads.flatMap frame ++ front, sizes⟩ =
        ((payloads, some BinaryModelClient.closedMidFrame), ⟨[], sizes'⟩)) ∧
      ∃ sizes', ModelServer.readFrames k ⟨payloads.flatMap frame ++ front, sizes⟩ =
        ((payloads, true), ⟨[], sizes'⟩) := by
  refine ⟨fun rest => ⟨?_, ?_⟩, fun payload front k hlen hfront hcut hk => ⟨?_, ?_⟩⟩
  · rw [BinaryModelClient.readFrames_eq]
    exact readFrames_frames _ h rest sizes
  · obtain ⟨sizes', hread⟩ := readFrames_frames () h rest sizes
    exact ⟨sizes', by rw [ModelServer.readFrames_eq, hread]; rfl⟩
  · rw [BinaryModelClient.readFrames_eq]
    exact readFrames_cut _ h hlen hfront hcut hk sizes
  · obtain ⟨sizes', hread⟩ := readFrames_cut () h hlen hfront hcut hk sizes
    exact ⟨sizes', by rw [ModelServer.readFrames_eq, hread]; rfl⟩

/-- An empty payload and one of a byte, then the header of a third frame, one byte at a time. -/
theorem frames_round_trip_bytewise :
    (∃ sizes', BinaryModelClient.readFrames 2
        ⟨[[], [7]].flatMap frame ++ [0, 0], fun _ => 1⟩ = (([[], [7]], none), ⟨[0, 0], sizes'⟩)) ∧
      ∃ sizes', ModelServer.readFrames 3 ⟨[[], [7]].flatMap frame ++ [0, 0], fun _ => 1⟩ =
        (([[], [7]], true), ⟨[], sizes'⟩) := by
  have hshort : ∀ p ∈ ([[], [7]] : List (List UInt8)), p.length < 2 ^ 32 := by simp
  obtain ⟨hread, hcut⟩ := frames_round_trip [[], [7]] hshort fun _ => 1
  exact ⟨(hread [0, 0]).1,
    (hcut [5] [0, 0] 3 (by simp) ⟨[0, 1, 5], rfl⟩ (by decide) (by decide)).2⟩
