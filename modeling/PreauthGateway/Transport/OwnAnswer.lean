import PreauthGateway.Program.Runs
import PreauthGateway.Transport.Binary

/-!
# Every answer belongs to its own request

The stream has no request ids. What keeps the answers apart is that a socket is only kept when
nothing is left on it: no reply that was not read, and no request that was not sent whole. Then the
next frame that the handler reads is the next request, and the next frame that the client reads is
its reply. A call that fails at any point forgets its socket, and whatever still arrives there is
never read.

## Main definitions

* `BinaryTransport.Own`: the server computed the score from the bytes that the call wrote
* `BinaryTransport.Conn.Pending`, `BinaryTransport.Conn.Scoring`, `BinaryTransport.Conn.Replying`:
  how far the exchange on a connection is
* `BinaryTransport.Attended`: the invariant

## Main results

* `BinaryTransport.Conn.Pending.serve`, `BinaryTransport.Conn.Replying.serve`: what a handler's step
  does to an exchange
* `BinaryTransport.answers_own_request`: **what a call returns was computed for that call**
-/

open Json Framing

namespace BinaryTransport

/-- The server computed the score that the call returned, and the bytes it read for it are the frame
of the call's features, all written by that call. -/
structure Own (r : Returned) (s : Scored) : Prop where
  frame : s.frame = mark r.number (frame (requestPayload r.features))
  features : r.features.Valid → s.features = r.features
  value : r.value = s.score.value

@[simp] theorem unmark_mark (call : ℕ) (b : Bytes) : unmark (mark call b) = b := by
  rw [unmark, mark, List.map_map]
  exact List.map_id b

theorem unmark_append (m m' : Marked) : unmark (m ++ m') = unmark m ++ unmark m' := List.map_append

theorem mark_append (call : ℕ) (b b' : Bytes) : mark call (b ++ b') = mark call b ++ mark call b' :=
  List.map_append

/-! ## An exchange -/

namespace Conn

variable {c c' : Conn} {a : HandlerAction} {scored : List Scored} {bytes : Marked}

/-- Nothing is on its way back, and the bytes written since the last reply are `bytes`, of which the
handler has no whole frame yet. -/
structure Pending (c : Conn) (bytes : Marked) : Prop where
  silent : c.toClient = []
  reading : c.handler = .closed ∨ ∃ r : Reader, c.handler = .reading r ∧
    r.HasRead (unmark c.read) ∧ c.read ++ c.toServer = bytes

/-- The handler scores the features of the frame `bytes`. -/
structure Scoring (c : Conn) (bytes : Marked) (features : Json) : Prop where
  silent : c.toClient = []
  handler : c.handler = .scoring features
  read : c.read = bytes
  rest : c.toServer = []

/-- The handler sends a reply, of which the client has read `got`. -/
structure Replying (c : Conn) (payload got : Bytes) : Prop where
  stream : ∃ rest, got ++ c.toClient ++ rest = frame payload ∧ (c.handler = .closed ∨
    c.toServer = [] ∧ (c.handler = .sending rest ∧ rest ≠ [] ∨
      c.handler = .reading (.header []) ∧ c.read = [] ∧ rest = []))

theorem pending_closed (h : c.toClient = []) : Pending { c with handler := .closed } bytes :=
  ⟨h, Or.inl rfl⟩

/-- A new connection. -/
theorem pending_new : Pending {} [] :=
  ⟨rfl, Or.inr ⟨.header [], rfl, Reader.hasRead_nil, rfl⟩⟩

/-- The client writes some more. -/
theorem Pending.write (h : c.Pending bytes) (more : Marked) :
    Pending { c with toServer := c.toServer ++ more } (bytes ++ more) := by
  refine ⟨h.silent, h.reading.imp id ?_⟩
  rintro ⟨r, hr, hread, rfl⟩
  exact ⟨r, hr, hread, (List.append_assoc ..).symm⟩

/-- **A handler that waits for a request**: while this is not written whole the handler goes on
waiting, and it has no other request than this one. -/
theorem Pending.serve (h : c.Pending bytes) {payload rest : Bytes}
    (hlen : payload.length < 2 ^ 32) (hb : unmark bytes ++ rest = frame payload)
    (hs : c.serve a = some (c', scored)) :
    scored = [] ∧ (c'.Pending bytes ∨
      rest = [] ∧ ∃ features, loadsBytes payload = some features ∧ c'.Scoring bytes features) := by
  rcases h.reading with hclosed | ⟨r, hr, hread, rfl⟩
  · cases a with
    | closed =>
      cases hs
      exact ⟨rfl, Or.inl (pending_closed h.silent)⟩
    | received n => simp [Conn.serve, hclosed] at hs
    | computed score => simp [Conn.serve, hclosed] at hs
    | sent n => simp [Conn.serve, hclosed] at hs
  cases a with
  | closed =>
    cases hs
    exact ⟨rfl, Or.inl (pending_closed h.silent)⟩
  | computed score => simp [Conn.serve, hr] at hs
  | sent n => simp [Conn.serve, hr] at hs
  | received n =>
    simp only [Conn.serve, hr] at hs
    split at hs
    · rename_i hn
      obtain ⟨-, hneed, -⟩ := hn
      have hchunk : (unmark (c.toServer.take n)).length ≤ r.need := by
        rw [unmark, List.length_map]
        exact (List.length_take_le n _).trans hneed
      have hbytes : c.read ++ c.toServer.take n ++ c.toServer.drop n = c.read ++ c.toServer := by
        rw [List.append_assoc, List.take_append_drop]
      split at hs
      · rename_i r' hf
        cases hs
        refine ⟨rfl, Or.inl ⟨h.silent, Or.inr ⟨r', rfl, ?_, hbytes⟩⟩⟩
        rw [unmark_append]
        exact Reader.feed_inl hread hchunk hf
      · rename_i body hf
        have hcomplete := Reader.feed_inr hread hchunk hf
        rw [← unmark_append] at hcomplete
        rw [← hbytes, unmark_append, List.append_assoc] at hb
        obtain ⟨rfl, -, hrest⟩ := hcomplete.eq_frame hb hlen
        obtain ⟨hdrop, rfl⟩ := List.append_eq_nil_iff.mp hrest
        have hdrop' : c.toServer.drop n = [] := List.map_eq_nil_iff.mp hdrop
        simp only [Option.some.injEq, Prod.mk.injEq] at hs
        obtain ⟨rfl, rfl⟩ := hs
        refine ⟨rfl, ?_⟩
        rw [request]
        cases hload : loadsBytes body with
        | none => exact Or.inl (pending_closed h.silent)
        | some features =>
          refine Or.inr ⟨rfl, features, rfl, h.silent, rfl, ?_, hdrop'⟩
          rw [← hbytes, hdrop', List.append_nil]
    · cases hs

/-- A handler that waits for a request of which nothing is written goes on waiting. -/
theorem Pending.serve_nil (h : c.Pending []) (hs : c.serve a = some (c', scored)) :
    scored = [] ∧ c'.Pending [] := by
  have hframe : unmark [] ++ frame [] = frame [] := rfl
  obtain ⟨hscored, hp | ⟨hrest, -⟩⟩ := h.serve (by decide) hframe hs
  · exact ⟨hscored, hp⟩
  · exact absurd hrest (frame_ne_nil [])

/-- **A handler that scores**: it ends, or computes a score from what it has read and replies. -/
theorem Scoring.serve {features : Json} (h : c.Scoring bytes features)
    (hs : c.serve a = some (c', scored)) :
    scored = [] ∧ c'.Pending bytes ∨
      ∃ score, scored = [⟨bytes, features, score⟩] ∧ (c'.Pending bytes ∨
        (replyPayload score).length < 2 ^ 32 ∧ c'.Replying (replyPayload score) []) := by
  cases a with
  | closed =>
    cases hs
    exact Or.inl ⟨rfl, pending_closed h.silent⟩
  | received n => simp [Conn.serve, h.handler] at hs
  | sent n => simp [Conn.serve, h.handler] at hs
  | computed score =>
    cases score with
    | none =>
      simp only [Conn.serve, h.handler, Option.some.injEq, Prod.mk.injEq] at hs
      obtain ⟨rfl, rfl⟩ := hs
      exact Or.inl ⟨rfl, pending_closed h.silent⟩
    | some score =>
      simp only [Conn.serve, h.handler, Option.some.injEq, Prod.mk.injEq] at hs
      obtain ⟨rfl, rfl⟩ := hs
      refine Or.inr ⟨score, by rw [h.read], ?_⟩
      rw [reply]
      split
      · rename_i hlen
        refine Or.inr ⟨hlen, ⟨frame (replyPayload score), ?_, Or.inr ⟨h.rest, ?_⟩⟩⟩
        · rw [h.silent]
          rfl
        · exact Or.inl ⟨rfl, frame_ne_nil _⟩
      · exact Or.inl (pending_closed h.silent)

/-- **A handler that replies** goes on with the reply, and computes nothing. -/
theorem Replying.serve {payload got : Bytes} (h : c.Replying payload got)
    (hs : c.serve a = some (c', scored)) : scored = [] ∧ c'.Replying payload got := by
  obtain ⟨rest, hstream, hcase⟩ := h.stream
  cases a with
  | closed =>
    cases hs
    exact ⟨rfl, ⟨rest, hstream, Or.inl rfl⟩⟩
  | computed score =>
    rcases hcase with hc | ⟨-, ⟨hc, -⟩ | ⟨hc, -, -⟩⟩ <;> simp [Conn.serve, hc] at hs
  | received n =>
    -- nothing was written since the request
    rcases hcase with hc | ⟨hnil, ⟨hc, -⟩ | ⟨hc, -, -⟩⟩
    · simp [Conn.serve, hc] at hs
    · simp [Conn.serve, hc] at hs
    · simp only [Conn.serve, hc, hnil, List.length_nil] at hs
      rw [if_neg (by omega)] at hs
      cases hs
  | sent n =>
    rcases hcase with hc | ⟨hnil, ⟨hc, -⟩ | ⟨hc, -, -⟩⟩
    · simp [Conn.serve, hc] at hs
    · simp only [Conn.serve, hc] at hs
      have hmoved : got ++ (c.toClient ++ rest.take n) ++ rest.drop n = frame payload := by
        rw [← hstream, List.append_assoc, List.append_assoc, List.take_append_drop,
          List.append_assoc]
      split at hs
      · split at hs
        · rename_i hdrop
          cases hs
          exact ⟨rfl, ⟨rest.drop n, hmoved, Or.inr ⟨hnil, Or.inr ⟨rfl, rfl, hdrop⟩⟩⟩⟩
        · rename_i hdrop
          cases hs
          exact ⟨rfl, ⟨rest.drop n, hmoved, Or.inr ⟨hnil, Or.inl ⟨rfl, hdrop⟩⟩⟩⟩
      · cases hs
    · simp [Conn.serve, hc] at hs

/-- The client reads some of the reply. -/
theorem Replying.read {payload got : Bytes} (h : c.Replying payload got) (n : ℕ) :
    Replying { c with toClient := c.toClient.drop n } payload (got ++ c.toClient.take n) := by
  obtain ⟨rest, hstream, hcase⟩ := h.stream
  refine ⟨rest, ?_, hcase⟩
  show got ++ c.toClient.take n ++ c.toClient.drop n ++ rest = _
  rw [List.append_assoc got, List.take_append_drop]
  exact hstream

/-- The client has read the reply: nothing is left on the connection. -/
theorem Replying.finished {payload got body : Bytes} (h : c.Replying payload got)
    (hlen : payload.length < 2 ^ 32) (hgot : Complete got body) : body = payload ∧ c.Pending [] := by
  obtain ⟨rest, hstream, hcase⟩ := h.stream
  rw [List.append_assoc] at hstream
  obtain ⟨rfl, -, hrest⟩ := hgot.eq_frame hstream hlen
  obtain ⟨hsilent, rfl⟩ := List.append_eq_nil_iff.mp hrest
  refine ⟨rfl, hsilent, ?_⟩
  rcases hcase with hc | ⟨hnil, ⟨-, hne⟩ | ⟨hc, hread, -⟩⟩
  · exact Or.inl hc
  · exact absurd rfl hne
  · refine Or.inr ⟨.header [], hc, ?_, ?_⟩
    · rw [hread]
      exact Reader.hasRead_nil
    · rw [hread, hnil]
      rfl

end Conn

/-! ## The invariant -/

/-- The server computed this score from the bytes that the call wrote. -/
def ScoredFor (call : ScoreCall) (s : Scored) : Prop :=
  s.frame = mark call.number (frame (requestPayload call.features)) ∧
    loadsBytes (requestPayload call.features) = some s.features

/-- The request is written whole, and the client has read `got` of the reply. -/
inductive Awaiting (scored : List Scored) (call : ScoreCall) (c : Conn) (got : Bytes) : Prop
  | pending (hgot : got = [])
      (h : c.Pending (mark call.number (frame (requestPayload call.features))))
  | scoring (features : Json) (hgot : got = [])
      (hload : loadsBytes (requestPayload call.features) = some features)
      (h : c.Scoring (mark call.number (frame (requestPayload call.features))) features)
  | replying (s : Scored) (hs : s ∈ scored) (hfor : ScoredFor call s)
      (hlen : (replyPayload s.score).length < 2 ^ 32) (h : c.Replying (replyPayload s.score) got)

/-- The connection of a call that has one. -/
def Exchange (scored : List Scored) (call : ScoreCall) (c : Conn) : Prop :=
  (requestPayload call.features).length < 2 ^ 32 ∧
    match call.phase with
    | .connecting => False
    | .sending rest => rest ≠ [] ∧ ∃ written, c.Pending (mark call.number written) ∧
        written ++ rest = frame (requestPayload call.features)
    | .receiving r => ∃ got, r.HasRead got ∧ Awaiting scored call c got

/-- The socket that is kept: without a call nothing is on it. -/
def Kept (t : Transport) : Prop :=
  match t.sock, t.call with
  | none, none => True
  | none, some call => call.phase = .connecting
  | some k, none => ∃ c, t.conns[k]? = some c ∧ c.Pending []
  | some k, some call => ∃ c, t.conns[k]? = some c ∧ Exchange t.scored call c

/-- The invariant. -/
structure Attended (t : Transport) : Prop where
  own : ∀ r ∈ t.returned, ∃ s ∈ t.scored, Own r s
  kept : Kept t

theorem Awaiting.mono {scored new : List Scored} {call : ScoreCall} {c : Conn} {got : Bytes}
    (h : Awaiting scored call c got) : Awaiting (scored ++ new) call c got := by
  cases h with
  | pending hgot h => exact .pending hgot h
  | scoring features hgot hload h => exact .scoring features hgot hload h
  | replying s hs hfor hlen h => exact .replying s (List.mem_append_left _ hs) hfor hlen h

theorem Exchange.mono {scored new : List Scored} {call : ScoreCall} {c : Conn}
    (h : Exchange scored call c) : Exchange (scored ++ new) call c := by
  obtain ⟨hlen, hphase⟩ := h
  refine ⟨hlen, ?_⟩
  cases hp : call.phase with
  | connecting =>
    rw [hp] at hphase
    exact hphase
  | sending rest =>
    rw [hp] at hphase
    exact hphase
  | receiving r =>
    rw [hp] at hphase
    obtain ⟨got, hread, hawait⟩ := hphase
    exact ⟨got, hread, hawait.mono⟩

/-- What a handler does while the client waits for its reply. -/
theorem Awaiting.serve {scored new : List Scored} {call : ScoreCall} {c c' : Conn} {got : Bytes}
    {a : HandlerAction} (h : Awaiting scored call c got)
    (hlen : (requestPayload call.features).length < 2 ^ 32) (hs : c.serve a = some (c', new)) :
    Awaiting (scored ++ new) call c' got := by
  cases h with
  | pending hgot h =>
    have hwhole : unmark (mark call.number (frame (requestPayload call.features))) ++ [] =
        frame (requestPayload call.features) := by
      rw [unmark_mark, List.append_nil]
    obtain ⟨rfl, h | ⟨-, features, hload, h⟩⟩ := h.serve hlen hwhole hs
    · exact .pending hgot h
    · exact .scoring features hgot hload h
  | scoring features hgot hload h =>
    rcases h.serve hs with ⟨rfl, h⟩ | ⟨score, rfl, h | ⟨hreply, h⟩⟩
    · exact .pending hgot h
    · exact .pending hgot h
    · rw [hgot]
      exact .replying _ (List.mem_append_right _ (List.mem_singleton_self _)) ⟨rfl, hload⟩ hreply h
  | replying s hmem hfor hreply h =>
    obtain ⟨rfl, h⟩ := h.serve hs
    exact .replying s (List.mem_append_left _ hmem) hfor hreply h

/-- **What a handler does to the exchange of a call.** -/
theorem Exchange.serve {scored new : List Scored} {call : ScoreCall} {c c' : Conn}
    {a : HandlerAction} (h : Exchange scored call c) (hs : c.serve a = some (c', new)) :
    Exchange (scored ++ new) call c' := by
  obtain ⟨hlen, hphase⟩ := h
  refine ⟨hlen, ?_⟩
  cases hp : call.phase with
  | connecting =>
    rw [hp] at hphase
    exact hphase
  | sending rest =>
    rw [hp] at hphase
    obtain ⟨hne, written, hpend, hframe⟩ := hphase
    obtain ⟨-, hpend | ⟨hnil, -⟩⟩ := hpend.serve hlen (by rw [unmark_mark]; exact hframe) hs
    · exact ⟨hne, written, hpend, hframe⟩
    · exact absurd hnil hne
  | receiving r =>
    rw [hp] at hphase
    obtain ⟨got, hread, hawait⟩ := hphase
    exact ⟨got, hread, hawait.serve hlen hs⟩

namespace Attended

variable {t : Transport}

theorem giveUp (h : Attended t) : Attended t.giveUp := ⟨h.own, trivial⟩

/-- A call starts on a socket on which nothing is left. -/
theorem send {number k : ℕ} {features : Json} {c : Conn} (h : Attended t) (hk : t.sock = some k)
    (hc : t.conns[k]? = some c) (hpend : c.Pending []) : Attended (t.send number features) := by
  rw [Transport.send]
  split
  · rename_i hlen
    refine ⟨h.own, ?_⟩
    simp only [Kept, hk]
    exact ⟨c, hc, hlen, frame_ne_nil _, [], hpend, rfl⟩
  · exact h.giveUp

/-- **A handler's step**, on the socket that is kept or on another one. -/
theorem handler {k : ℕ} {a : HandlerAction} {c c' : Conn} {new : List Scored} (h : Attended t)
    (hc : t.conns[k]? = some c) (hs : c.serve a = some (c', new)) :
    Attended { t with conns := t.conns.set k c', scored := t.scored ++ new } := by
  refine ⟨?_, ?_⟩
  · intro r hr
    obtain ⟨s, hmem, hown⟩ := h.own r hr
    exact ⟨s, List.mem_append_left _ hmem, hown⟩
  have hkept := h.kept
  have hget (j : ℕ) (d : Conn) (hd : t.conns[j]? = some d) :
      j = k ∧ d = c ∧ (t.conns.set k c')[j]? = some c' ∨
        (t.conns.set k c')[j]? = some d := by
    rcases eq_or_ne j k with rfl | hne
    · rw [hc, Option.some.injEq] at hd
      refine Or.inl ⟨rfl, hd.symm, ?_⟩
      rw [List.getElem?_set_self (List.getElem?_eq_some_iff.mp hc).1]
    · exact Or.inr (by rw [List.getElem?_set_ne hne.symm, hd])
  unfold Kept at hkept ⊢
  dsimp only
  cases hsock : t.sock with
  | none =>
    rw [hsock] at hkept
    cases hcall : t.call with
    | none => trivial
    | some call =>
      rw [hcall] at hkept
      exact hkept
  | some j =>
    rw [hsock] at hkept
    cases hcall : t.call with
    | none =>
      rw [hcall] at hkept
      obtain ⟨d, hd, hpend⟩ := hkept
      rcases hget j d hd with ⟨-, rfl, hset⟩ | hset
      · exact ⟨c', hset, (hpend.serve_nil hs).2⟩
      · exact ⟨d, hset, hpend⟩
    | some call =>
      rw [hcall] at hkept
      obtain ⟨d, hd, hex⟩ := hkept
      rcases hget j d hd with ⟨-, rfl, hset⟩ | hset
      · exact ⟨c', hset, hex.serve hs⟩
      · exact ⟨d, hset, hex.mono⟩

/-- `score` is called. -/
theorem score (h : Attended t) (features : Json) {t' : Transport}
    {ofText : PyStr → Option PyFloat} (hs : step ofText t (.score features) = some t') :
    Attended t' := by
  have hkept := h.kept
  unfold Kept at hkept
  rw [step] at hs
  split at hs
  · rename_i hcall hsock
    cases hs
    refine ⟨h.own, ?_⟩
    simp only [Kept, hsock]
  · rename_i k hcall hsock
    cases hs
    rw [hsock, hcall] at hkept
    obtain ⟨c, hc, hpend⟩ := hkept
    have hnext : Attended { t with calls := t.calls + 1 } := ⟨h.own, h.kept⟩
    exact hnext.send hsock hc hpend
  · cases hs

/-- A new connection. -/
theorem connected (h : Attended t) {t' : Transport} {ofText : PyStr → Option PyFloat}
    (hs : step ofText t .connected = some t') : Attended t' := by
  rw [step] at hs
  split at hs
  · rename_i number features hcall
    cases hs
    have hget : (t.conns ++ [({} : Conn)])[t.conns.length]? = some {} := List.getElem?_concat_length
    rw [Transport.send]
    split
    · rename_i hlen
      exact ⟨h.own, _, hget, hlen, frame_ne_nil _, [], Conn.pending_new, rfl⟩
    · exact ⟨h.own, trivial⟩
  · cases hs

/-- Some bytes of the request go out. -/
theorem sent (h : Attended t) (n : ℕ) {t' : Transport} {ofText : PyStr → Option PyFloat}
    (hs : step ofText t (.sent n) = some t') : Attended t' := by
  have hkept := h.kept
  unfold Kept at hkept
  rw [step] at hs
  split at hs
  · rename_i number features rest k hcall hsock
    split at hs
    · cases hs
      rw [hsock, hcall] at hkept
      obtain ⟨c, hc, hlen, -, written, hpend, hframe⟩ := hkept
      have hget : (t.conns.modify k fun c =>
          { c with toServer := c.toServer ++ mark number (rest.take n) })[k]? =
            some { c with toServer := c.toServer ++ mark number (rest.take n) } := by
        rw [List.getElem?_modify_eq, hc]
        rfl
      have hnext := hpend.write (mark number (rest.take n))
      rw [← mark_append] at hnext
      have hwhole : written ++ rest.take n ++ rest.drop n = frame (requestPayload features) := by
        rw [List.append_assoc, List.take_append_drop]
        exact hframe
      refine ⟨h.own, ?_⟩
      simp only [Kept, hsock]
      refine ⟨_, hget, hlen, ?_⟩
      by_cases hdrop : rest.drop n = []
      · rw [hdrop, List.append_nil] at hwhole
        rw [if_pos hdrop]
        refine ⟨[], Reader.hasRead_nil, .pending rfl ?_⟩
        rw [← hwhole]
        exact hnext
      · rw [if_neg hdrop]
        exact ⟨hdrop, _, hnext, hwhole⟩
    · cases hs
  · cases hs

/-- The call has read a whole reply. -/
theorem finish {ofText : PyStr → Option PyFloat} {call : ScoreCall} {k : ℕ} {c : Conn} {body : Bytes}
    {s : Scored} (h : Attended { t with call := none }) (hsock : t.sock = some k)
    (hc : t.conns[k]? = some c) (hpend : c.Pending []) (hs : s ∈ t.scored) (hfor : ScoredFor call s)
    (hbody : body = replyPayload s.score) : Attended (t.finish ofText call body) := by
  rw [Transport.finish, hbody, decodeReply_replyPayload]
  refine ⟨?_, ?_⟩
  · intro r hr
    rcases List.mem_append.mp hr with hr | hr
    · exact h.own r hr
    · rw [List.mem_singleton.mp hr]
      refine ⟨s, hs, hfor.1, ?_, rfl⟩
      intro hvalid
      have hload := hfor.2
      rw [requestPayload, loadsBytes_dumps hvalid] at hload
      exact (Option.some.inj hload).symm
  · simp only [Kept, hsock]
    exact ⟨c, hc, hpend⟩

/-- Some bytes of the reply come in. -/
theorem received (h : Attended t) (n : ℕ) {t' : Transport} {ofText : PyStr → Option PyFloat}
    (hs : step ofText t (.received n) = some t') : Attended t' := by
  have hkept := h.kept
  unfold Kept at hkept
  rw [step] at hs
  split at hs
  · rename_i number features r k hcall hsock
    rw [hsock, hcall] at hkept
    obtain ⟨c, hc, hlen, got, hread, hawait⟩ := hkept
    rw [hc] at hs
    dsimp only at hs
    split at hs
    · rename_i hn
      obtain ⟨hpos, hneed, havail⟩ := hn
      have hchunk : (c.toClient.take n).length ≤ r.need := (List.length_take_le n _).trans hneed
      have hget : (t.conns.modify k fun c => { c with toClient := c.toClient.drop n })[k]? =
          some { c with toClient := c.toClient.drop n } := by
        rw [List.getElem?_modify_eq, hc]
        rfl
      -- there are bytes to read, so the handler has replied
      cases hawait with
      | pending _ hp =>
        rw [hp.silent, List.length_nil] at havail
        omega
      | scoring _ _ _ hp =>
        rw [hp.silent, List.length_nil] at havail
        omega
      | replying s hmem hfor hreply hp =>
        have hnext := hp.read n
        split at hs
        · rename_i r' hf
          cases hs
          refine ⟨h.own, ?_⟩
          simp only [Kept, hsock]
          exact ⟨_, hget, hlen, _, Reader.feed_inl hread hchunk hf,
            .replying s hmem hfor hreply hnext⟩
        · rename_i body hf
          cases hs
          obtain ⟨hbody, hpend⟩ := hnext.finished hreply (Reader.feed_inr hread hchunk hf)
          refine finish (k := k) ⟨h.own, ?_⟩ hsock hget hpend hmem hfor hbody
          simp only [Kept, hsock]
          exact ⟨_, hget, hpend⟩
    · cases hs
  · cases hs

/-- **Every step keeps the invariant.** -/
theorem step {ofText : PyStr → Option PyFloat} {a : Action} {t' : Transport} (h : Attended t)
    (hs : BinaryTransport.step ofText t a = some t') : Attended t' := by
  cases a with
  | score features => exact h.score features hs
  | connected => exact h.connected hs
  | sent n => exact h.sent n hs
  | received n => exact h.received n hs
  | failed =>
    -- a failed call leaves the connection, as `close` does
    rw [BinaryTransport.step] at hs
    split at hs
    · cases hs
      exact h.giveUp
    · cases hs
  | close =>
    rw [BinaryTransport.step] at hs
    split at hs
    · cases hs
    · cases hs
      exact h.giveUp
  | handler k a =>
    rw [BinaryTransport.step] at hs
    split at hs
    · rename_i c hc
      split at hs
      · rename_i c' new hserve
        cases hs
        exact h.handler hc hserve
      · cases hs
    · cases hs

end Attended

/-- **What a call returns was computed for that call.** Whatever fails and however the bytes are
cut, for every value that a call of `score` returned the server computed that score from the bytes
of this call and of no other, and they are the frame of its features. -/
theorem answers_own_request (ofText : PyStr → Option PyFloat) (as : List Action) (t : Transport)
    (h : Runs.run (step ofText) {} as = some t) :
    ∀ r ∈ t.returned, ∃ s ∈ t.scored, Own r s := by
  have h0 : Attended {} := by
    refine ⟨?_, trivial⟩
    intro r hr
    cases hr
  exact (Runs.preserved (P := Attended) (fun _ _ _ ht hs => ht.step hs) h0 h).own

/-- The score `0.5`. -/
def half : Score := ⟨"0.5".toList, by decide +kernel⟩

/-- The score `0.25`. -/
def quarter : Score := ⟨"0.25".toList, by decide +kernel⟩

/-- The features `{"amount": 7}`. -/
def amountFeatures : Json := .obj [(PyStr.ofString "amount", .int 7)]

/-- A call gives up after its request is sent, and the next one, for other features, opens another
connection. The reply to the first arrives before that to the second. -/
def lateReply : List Action :=
  [.score (.obj []), .connected, .sent 6, .failed, .score amountFeatures, .connected, .sent 17,
    .handler 0 (.received 4), .handler 0 (.received 2), .handler 0 (.computed (some half)),
    .handler 0 (.sent 58), .handler 1 (.received 4), .handler 1 (.received 13),
    .handler 1 (.computed (some quarter)), .handler 1 (.sent 59), .received 4, .received 55]

/-- The second call returns the second score. -/
theorem answers_own_request_late :
    ∃ t, Runs.run (step fun _ => none) {} lateReply = some t ∧
      t.returned.map (fun r => (r.features, r.value)) = [(amountFeatures, quarter.value)] ∧
      ∀ r ∈ t.returned, ∃ s ∈ t.scored, Own r s := by
  have hrun : (Runs.run (step fun _ => none) {} lateReply).map
      (fun t => t.returned.map fun r => (r.features, r.value)) =
        some [(amountFeatures, quarter.value)] := by decide +kernel
  obtain ⟨t, ht, hreturned⟩ := Option.map_eq_some_iff.mp hrun
  exact ⟨t, ht, hreturned, answers_own_request _ _ t ht⟩

end BinaryTransport
