import PreauthGateway.Number.Bounds
import PreauthGateway.Transport.OwnAnswer

/-!
# A model behind the binary transport

`RemoteModelService` gives the gateway a client in the place of the model in its own process. The
server computes the score from the features it reads: the amount over 200000, more for some devices,
and what the busy loop leaves over. As the features arrive as they were sent, the score a call
returns is the one of its own request.

How `float` reads a string, and what `str` makes of a value that is no string, are parameters.

## Main definitions

* `RemoteModelService.features`: what is sent for a request
* `ModelServer.burnAndScore`: the score of the features
* `RemoteModelService.Returns`: a score that a run of the transport returned for a request

## Main results

* `RemoteModelService.Returns.own_score`: **it is the score of that request**
-/

open Json

/-- `0.4 if device.endswith("9") else 0.0`. -/
def deviceTerm (device : PyStr) : PyFloat :=
  if PyStr.ofString "9" <:+ device then .ofRat (2 / 5) else .ofInt 0

namespace ModelServer

/-- `str(v)`. -/
def toStr (textOf : Json → PyStr) : Json → PyStr
  | .str s => s
  | v => textOf v

/-- `burn_and_score`, where `abs(acc) % 1.0` came to `u`; `none` where it raises. -/
def burnAndScore (ofText : PyStr → Option PyFloat) (textOf : Json → PyStr) (u : ℚ) :
    Json → Option PyFloat
  | .obj features => do
    let amount ← BinaryTransport.toFloat ofText
      ((Json.get? (PyStr.ofString "amount_minor") features).getD (.int 0))
    let device := toStr textOf
      ((Json.get? (PyStr.ofString "device_id") features).getD (.str []))
    let z := ((amount.divBy 200000).add (deviceTerm device)).add
      ((PyFloat.ofRat u).mul (.ofRat (1 / 20)))
    some ((PyFloat.ofRat (999 / 1000)).min ((PyFloat.ofInt 0).max z))
  | _ => none

end ModelServer

namespace RemoteModelService

/-- What `score` sends. -/
def features (req : Request) : Json :=
  .obj [(PyStr.ofString "amount_minor", .int req.amountMinor),
    (PyStr.ofString "device_id", .str req.deviceId), (PyStr.ofString "card_id", .str req.cardId)]

/-- Text that was read from JSON is sent as it is. -/
theorem features_valid {req : Request} (hdevice : req.deviceId.Unicode) (hcard : req.cardId.Unicode) :
    (features req).Valid := by
  have hkeys : [PyStr.ofString "amount_minor", PyStr.ofString "device_id",
      PyStr.ofString "card_id"].Nodup := by decide +kernel
  rw [features, valid_obj]
  refine ⟨hkeys, ?_⟩
  simp [isValidMembers, isValid, PyStr.unicode_ofString, hdevice, hcard]

variable (ofText : PyStr → Option PyFloat) (textOf : Json → PyStr)

/-- The score of a request, where `abs(acc) % 1.0` came to `u`. -/
def score (u : ℚ) (req : Request) : Option PyFloat :=
  (BinaryTransport.toFloat ofText (.int req.amountMinor)).map fun amount =>
    (PyFloat.ofRat (999 / 1000)).min ((PyFloat.ofInt 0).max
      (((amount.divBy 200000).add (deviceTerm req.deviceId)).add
        ((PyFloat.ofRat u).mul (.ofRat (1 / 20)))))

theorem burnAndScore_features (u : ℚ) (req : Request) :
    ModelServer.burnAndScore ofText textOf u (features req) = score ofText u req := by
  have hkeys : PyStr.ofString "amount_minor" ≠ PyStr.ofString "device_id" := by decide +kernel
  rw [features, ModelServer.burnAndScore]
  simp only [Json.get?, if_true, if_neg hkeys, Option.getD_some, ModelServer.toStr, score]
  cases BinaryTransport.toFloat ofText (.int req.amountMinor) <;> rfl

/-- In some run of the transport, with a server that computes every score with `burn_and_score`, a
call of `score` with the features of the request returned `x`. -/
def Returns (req : Request) (x : PyFloat) : Prop :=
  ∃ (as : List BinaryTransport.Action) (t : BinaryTransport.Transport),
    Runs.run (BinaryTransport.step ofText) {} as = some t ∧
      (∀ s ∈ t.scored, ∃ u : ℚ, 0 ≤ u ∧ u < 1 ∧
        ModelServer.burnAndScore ofText textOf u s.features = some s.score.value) ∧
      ∃ r ∈ t.returned, r.features = features req ∧ r.value = x

variable {ofText textOf}

/-- **What is returned for a request is the score of that request**, whatever other calls there
were, on how many connections, and whatever failed. -/
theorem Returns.own_score {req : Request} {x : PyFloat} (hdevice : req.deviceId.Unicode)
    (hcard : req.cardId.Unicode) (h : Returns ofText textOf req x) :
    ∃ u : ℚ, 0 ≤ u ∧ u < 1 ∧ score ofText u req = some x := by
  obtain ⟨as, t, hrun, hscored, r, hr, hfeatures, rfl⟩ := h
  have h0 : BinaryTransport.Attended {} := by
    refine ⟨?_, trivial⟩
    intro r hr
    cases hr
  have hattended : BinaryTransport.Attended t :=
    Runs.preserved (P := BinaryTransport.Attended) (fun _ _ _ ht hs => ht.step hs) h0 hrun
  obtain ⟨s, hs, hown⟩ := hattended.own r hr
  obtain ⟨u, hu, hu', hburn⟩ := hscored s hs
  have hread : s.features = features req := by
    rw [hown.features (by rw [hfeatures]; exact features_valid hdevice hcard), hfeatures]
  refine ⟨u, hu, hu', ?_⟩
  rw [← burnAndScore_features ofText textOf, ← hread, hburn, hown.value]

end RemoteModelService
