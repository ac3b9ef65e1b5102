import PreauthGateway.Shipping.Passes

/-!
# What a pass delivers

What the sends of a pass settle depends on the sink alone: a batch settles when its send returns,
and the records of a rejected batch are sent again one at a time. The code does more with each of
them, it looks up an id, and the pass raises on the first settled record that has none.

## Main definitions

* `Sink`, `serve`: a sink that answers from what it was sent before, and the calls it serves
* `Delivery`, `deliver`: the sends of a pass and what they settle, whatever becomes of the ids
* `Delivers`: a program makes the sends of a delivery and collects the ids of what it settles

## Main results

* `deliver_sound`, `deliver_from`: what a send that returned carried is settled, and comes from the
  batches
* `delivers_sendBatches`: **the loop over the batches makes the sends of `deliver`**
-/

open Json

namespace Shipping

/-- A sink: its answer to a batch, from the sends before it. -/
abbrev Sink := List (List Json × SinkAnswer) → List Json → SinkAnswer

/-- The sink's answer, should the call be a send. -/
def Sink.answer (sink : Sink) : Call → World → SinkAnswer
  | .send batch, s => sink s.sends batch
  | _, _ => { result := .returned }

/-- What a call returns and does when `sink` answers the sends. -/
def serve (sink : Sink) (o : Call) (s : World) : o.Answer × World := handle o (sink.answer o s) s

/-! ## What the sends settle -/

/-- The sends of a pass with their answers, the records rejected on their own, and the records whose
ids are to be acknowledged. -/
structure Delivery where
  sends : List (List Json × SinkAnswer) := []
  poison : List Json := []
  settled : List Json := []

namespace Delivery

instance : Append Delivery :=
  ⟨fun d d' => ⟨d.sends ++ d'.sends, d.poison ++ d'.poison, d.settled ++ d'.settled⟩⟩

@[simp] theorem append_sends (d d' : Delivery) : (d ++ d').sends = d.sends ++ d'.sends := rfl

@[simp] theorem append_poison (d d' : Delivery) : (d ++ d').poison = d.poison ++ d'.poison := rfl

@[simp] theorem append_settled (d d' : Delivery) :
    (d ++ d').settled = d.settled ++ d'.settled := rfl

/-- The world after it, with the counters `st`. -/
def after (d : Delivery) (s : World) (st : ShipperStats) : World :=
  { s with sends := s.sends ++ d.sends, poison := s.poison ++ d.poison, stats := st }

theorem after_after (d d' : Delivery) (s : World) (st st' : ShipperStats) :
    d'.after (d.after s st) st' = (d ++ d').after s st' := by
  simp only [after, append_sends, append_poison, List.append_assoc]

theorem after_nil (s : World) : ({} : Delivery).after s s.stats = s := by
  simp only [after, List.append_nil]

/-- What a send that returned carried is settled. -/
def Sound (d : Delivery) : Prop :=
  ∀ p ∈ d.sends, p.2.result = .returned → ∀ r ∈ p.1, r ∈ d.settled

theorem sound_nil : Sound {} := by
  intro p hp
  cases hp

theorem Sound.append {d d' : Delivery} (h : d.Sound) (h' : d'.Sound) : (d ++ d').Sound := by
  intro p hp hret r hr
  rcases List.mem_append.mp hp with hp | hp
  · exact List.mem_append_left _ (h p hp hret r hr)
  · exact List.mem_append_right _ (h' p hp hret r hr)

/-- One send. -/
theorem sound_single {batch poison settled : List Json} {a : SinkAnswer}
    (h : a.result = .returned → settled = batch) :
    Sound { sends := [(batch, a)], poison, settled } := by
  intro p hp hret r hr
  rw [List.mem_singleton.mp hp] at hret hr
  rw [h hret]
  exact hr

/-- What is sent and settled comes from `rs`. -/
structure From (d : Delivery) (rs : List Json) : Prop where
  sends : ∀ p ∈ d.sends, ∀ r ∈ p.1, r ∈ rs
  settled : ∀ r ∈ d.settled, r ∈ rs

theorem from_nil (rs : List Json) : From {} rs := by
  constructor <;> simp

theorem From.mono {d : Delivery} {rs rs' : List Json} (h : d.From rs) (hs : ∀ r ∈ rs, r ∈ rs') :
    d.From rs' :=
  ⟨fun p hp r hr => hs r (h.sends p hp r hr), fun r hr => hs r (h.settled r hr)⟩

theorem From.append {d d' : Delivery} {rs : List Json} (h : d.From rs) (h' : d'.From rs) :
    (d ++ d').From rs := by
  constructor
  · intro p hp
    exact (List.mem_append.mp hp).elim (h.sends p) (h'.sends p)
  · intro r hr
    exact (List.mem_append.mp hr).elim (h.settled r) (h'.settled r)

end Delivery

section Deliver

variable (sink : Sink)

/-- The records of a rejected batch, one at a time. -/
def deliverEach : List (List Json × SinkAnswer) → List Json → Delivery
  | _, [] => {}
  | hist, r :: rs =>
    let a := sink hist [r]
    let one : Delivery :=
      match a.result with
      | .returned => { sends := [([r], a)], settled := [r] }
      | .rejected => { sends := [([r], a)], poison := [r], settled := [r] }
      | .error => { sends := [([r], a)] }
    one ++ deliverEach (hist ++ [([r], a)]) rs

/-- The attempts to send one batch. -/
def deliverBatch (batch : List Json) : ℕ → List (List Json × SinkAnswer) → Delivery
  | 0, _ => {}
  | attempts + 1, hist =>
    let a := sink hist batch
    match a.result with
    | .returned => { sends := [(batch, a)], settled := batch }
    | .rejected =>
      { sends := [(batch, a)] } ++ deliverEach sink (hist ++ [(batch, a)]) batch
    | .error => { sends := [(batch, a)] } ++ deliverBatch batch attempts (hist ++ [(batch, a)])

/-- All batches in turn. -/
def deliver (maxAttempts : ℕ) : List (List Json × SinkAnswer) → List (List Json) → Delivery
  | _, [] => {}
  | hist, b :: bs =>
    let d := deliverBatch sink b maxAttempts hist
    d ++ deliver maxAttempts (hist ++ d.sends) bs

theorem deliverEach_sound (hist : List (List Json × SinkAnswer)) (rs : List Json) :
    (deliverEach sink hist rs).Sound := by
  induction rs generalizing hist with
  | nil => exact Delivery.sound_nil
  | cons r rs ih =>
    rw [deliverEach]
    apply Delivery.Sound.append _ (ih _)
    cases h : (sink hist [r]).result with
    | returned => exact Delivery.sound_single fun _ => rfl
    | rejected => exact Delivery.sound_single fun _ => rfl
    | error =>
      apply Delivery.sound_single
      rw [h]
      intro e
      cases e

theorem deliverBatch_sound (batch : List Json) (attempts : ℕ)
    (hist : List (List Json × SinkAnswer)) : (deliverBatch sink batch attempts hist).Sound := by
  have hfirst (a : SinkAnswer) (h : a.result ≠ .returned) :
      Delivery.Sound { sends := [(batch, a)] } :=
    Delivery.sound_single fun e => absurd e h
  induction attempts generalizing hist with
  | zero => exact Delivery.sound_nil
  | succ attempts ih =>
    rw [deliverBatch]
    cases h : (sink hist batch).result with
    | returned => exact Delivery.sound_single fun _ => rfl
    | rejected =>
      exact (hfirst _ (by rw [h]; decide)).append (deliverEach_sound sink _ batch)
    | error => exact (hfirst _ (by rw [h]; decide)).append (ih _)

theorem deliver_sound (maxAttempts : ℕ) (hist : List (List Json × SinkAnswer))
    (bs : List (List Json)) : (deliver sink maxAttempts hist bs).Sound := by
  induction bs generalizing hist with
  | nil => exact Delivery.sound_nil
  | cons b bs ih => exact (deliverBatch_sound sink b maxAttempts hist).append (ih _)

theorem deliverEach_from (hist : List (List Json × SinkAnswer)) (rs : List Json) :
    (deliverEach sink hist rs).From rs := by
  induction rs generalizing hist with
  | nil => exact Delivery.from_nil []
  | cons r rs ih =>
    rw [deliverEach]
    apply Delivery.From.append
    · cases (sink hist [r]).result <;> constructor <;> simp
    · exact (ih _).mono fun v hv => List.mem_cons_of_mem _ hv

theorem deliverBatch_from (batch : List Json) (attempts : ℕ)
    (hist : List (List Json × SinkAnswer)) : (deliverBatch sink batch attempts hist).From batch := by
  have hfirst (a : SinkAnswer) : Delivery.From { sends := [(batch, a)] } batch := by
    constructor <;> simp
  induction attempts generalizing hist with
  | zero => exact Delivery.from_nil batch
  | succ attempts ih =>
    rw [deliverBatch]
    cases (sink hist batch).result with
    | returned => constructor <;> simp
    | rejected => exact (hfirst _).append (deliverEach_from sink _ batch)
    | error => exact (hfirst _).append (ih _)

/-- Only records of the batches are sent and settled. -/
theorem deliver_from (maxAttempts : ℕ) (hist : List (List Json × SinkAnswer))
    (bs : List (List Json)) : (deliver sink maxAttempts hist bs).From bs.flatten := by
  induction bs generalizing hist with
  | nil => exact Delivery.from_nil []
  | cons b bs ih =>
    rw [deliver, List.flatten_cons]
    apply Delivery.From.append
    · exact (deliverBatch_from sink b maxAttempts hist).mono fun v => List.mem_append_left _
    · exact (ih _).mono fun v => List.mem_append_right _

end Deliver

/-! ## What a pass sends -/

theorem itemDecisionIds_append (rs rs' : List Json) :
    itemDecisionIds (rs ++ rs') = (do
      let is ← itemDecisionIds rs
      let is' ← itemDecisionIds rs'
      return is ++ is') := by
  induction rs with
  | nil =>
    rw [List.nil_append, itemDecisionIds]
    cases itemDecisionIds rs' <;> rfl
  | cons r rs ih =>
    rw [List.cons_append, itemDecisionIds, itemDecisionIds, ih]
    cases itemDecisionId r with
    | error e => rfl
    | ok i =>
      cases itemDecisionIds rs with
      | error e => rfl
      | ok is => cases itemDecisionIds rs' <;> rfl

/-- Started in `s` with the ids `newly`, the program makes the sends of `d` and adds the ids of what
they settle; if one of these has no id, it raises. -/
def Delivers (sink : Sink) (p : ShipperM (List Json)) (newly : List Json) (s : World)
    (d : Delivery) : Prop :=
  (∀ is, itemDecisionIds d.settled = .ok is →
    ∃ st, Prog.exec (serve sink) p s = (.ok (newly ++ is), d.after s st)) ∧
  ∀ e, itemDecisionIds d.settled = .error e → ∃ s', Prog.exec (serve sink) p s = (.error e, s')

section Exec

variable {sink : Sink} {newly : List Json} {s : World}

/-- The ids of what is settled are `is`. -/
theorem Delivers.of_ok {p : ShipperM (List Json)} {d : Delivery} {is : List Json}
    (hd : itemDecisionIds d.settled = .ok is) (st : ShipperStats)
    (h : Prog.exec (serve sink) p s = (.ok (newly ++ is), d.after s st)) :
    Delivers sink p newly s d := by
  constructor
  · intro is' his
    rw [hd] at his
    cases his
    exact ⟨st, h⟩
  · intro e he
    rw [hd] at he
    cases he

/-- Something is settled that has no id. -/
theorem Delivers.of_error {p : ShipperM (List Json)} {d : Delivery} {e : PyError}
    (hd : itemDecisionIds d.settled = .error e)
    (h : ∃ s', Prog.exec (serve sink) p s = (.error e, s')) : Delivers sink p newly s d := by
  constructor
  · intro is his
    rw [hd] at his
    cases his
  · intro e' he
    rw [hd] at he
    cases he
    exact h

theorem delivers_ret : Delivers sink (.ret newly) newly s {} := by
  refine .of_ok rfl s.stats ?_
  rw [Delivery.after_nil, List.append_nil]
  rfl

/-- **Sequencing.** -/
theorem Delivers.bind {p : ShipperM (List Json)} {f : List Json → ShipperM (List Json)}
    {d d' : Delivery} (h : Delivers sink p newly s d)
    (hf : ∀ is st, Delivers sink (f (newly ++ is)) (newly ++ is) (d.after s st) d') :
    Delivers sink (p >>= f) newly s (d ++ d') := by
  have hsplit := itemDecisionIds_append d.settled d'.settled
  cases hd : itemDecisionIds d.settled with
  | error e =>
    rw [hd] at hsplit
    obtain ⟨s', hs'⟩ := h.2 e hd
    constructor
    · intro is his
      rw [Delivery.append_settled, hsplit] at his
      cases his
    · intro e' he'
      rw [Delivery.append_settled, hsplit] at he'
      cases he'
      refine ⟨s', ?_⟩
      rw [Prog.exec_bind, hs']
      rfl
  | ok is =>
    rw [hd] at hsplit
    obtain ⟨st, hst⟩ := h.1 is hd
    have hexec : Prog.exec (serve sink) (p >>= f) s =
        Prog.exec (serve sink) (f (newly ++ is)) (d.after s st) := by
      rw [Prog.exec_bind, hst]
      rfl
    cases hd' : itemDecisionIds d'.settled with
    | error e =>
      rw [hd'] at hsplit
      constructor
      · intro is' his'
        rw [Delivery.append_settled, hsplit] at his'
        cases his'
      · intro e' he'
        rw [Delivery.append_settled, hsplit] at he'
        cases he'
        rw [hexec]
        exact (hf is st).2 e hd'
    | ok is' =>
      rw [hd'] at hsplit
      constructor
      · intro js hjs
        rw [Delivery.append_settled, hsplit] at hjs
        cases hjs
        obtain ⟨st', hst'⟩ := (hf is st).1 is' hd'
        refine ⟨st', ?_⟩
        rw [hexec, hst', List.append_assoc, Delivery.after_after]
      · intro e he
        rw [Delivery.append_settled, hsplit] at he
        cases he

/-- Steps that do what `d` says and settle nothing, before the rest. -/
theorem Delivers.of_exec {p q : ShipperM (List Json)} {d d' : Delivery} (st : ShipperStats)
    (hexec : Prog.exec (serve sink) p s = Prog.exec (serve sink) q (d.after s st))
    (hd : d.settled = []) (hq : Delivers sink q newly (d.after s st) d') :
    Delivers sink p newly s (d ++ d') := by
  have hset : (d ++ d').settled = d'.settled := by rw [Delivery.append_settled, hd, List.nil_append]
  rw [Delivers, hset, hexec]
  constructor
  · intro is his
    obtain ⟨st', hst'⟩ := hq.1 is his
    exact ⟨st', by rw [hst', Delivery.after_after]⟩
  · exact hq.2

/-- One record on its own, and what is added for it. -/
def sendOne (r : Json) (newly : List Json) : ShipperM (List Json) := do
  match ← ask (.send [r]) with
  | .returned =>
    let i ← Prog.ofExcept (itemDecisionId r)
    return newly ++ [i]
  | .rejected =>
    ask (.poison r)
    ask (.count .poisoned 1)
    let i ← Prog.ofExcept (itemDecisionId r)
    return newly ++ [i]
  | .error => return newly

theorem sendEach_cons (r : Json) (rs newly : List Json) :
    Shipper.sendEach (r :: rs) newly = sendOne r newly >>= Shipper.sendEach rs := by
  rw [Shipper.sendEach, sendOne]
  apply congrArg (Prog.call (Call.send [r]))
  funext result
  cases result <;> cases itemDecisionId r <;> rfl

theorem itemDecisionIds_singleton (r : Json) :
    itemDecisionIds [r] = (itemDecisionId r).map fun i => [i] := by
  rw [itemDecisionIds]
  cases itemDecisionId r <;> rfl

/-- What `deliverEach` says of one record. -/
def deliverOne (sink : Sink) (hist : List (List Json × SinkAnswer)) (r : Json) : Delivery :=
  let a := sink hist [r]
  match a.result with
  | .returned => { sends := [([r], a)], settled := [r] }
  | .rejected => { sends := [([r], a)], poison := [r], settled := [r] }
  | .error => { sends := [([r], a)] }

theorem deliverEach_cons (hist : List (List Json × SinkAnswer)) (r : Json) (rs : List Json) :
    deliverEach sink hist (r :: rs) = deliverOne sink hist r ++
      deliverEach sink (hist ++ (deliverOne sink hist r).sends) rs := by
  rw [deliverEach, deliverOne]
  cases h : (sink hist [r]).result <;> rfl

theorem exec_ask_bind {α : Type} (o : Call) (k : o.Answer → ShipperM α) (s : World) :
    Prog.exec (serve sink) (ask o >>= k) s =
      Prog.exec (serve sink) (k (serve sink o s).1) (serve sink o s).2 := rfl

theorem serve_send (batch : List Json) (s : World) :
    serve sink (.send batch) s =
      ((sink s.sends batch).result, s.send batch (sink s.sends batch)) := rfl

theorem delivers_sendOne (r : Json) :
    Delivers sink (sendOne r newly) newly s (deliverOne sink s.sends r) := by
  have hid := itemDecisionIds_singleton r
  rw [deliverOne]
  cases h : (sink s.sends [r]).result with
  | returned =>
    cases hr : itemDecisionId r with
    | ok i =>
      rw [hr] at hid
      refine .of_ok hid s.stats ?_
      rw [sendOne, exec_ask_bind, serve_send, h]
      simp [Delivery.after, World.send, Prog.ofExcept, hr]
    | error e =>
      rw [hr] at hid
      refine .of_error hid ?_
      rw [sendOne, exec_ask_bind, serve_send, h]
      simp only [hr]
      exact ⟨_, rfl⟩
  | rejected =>
    -- the record is poison, and counts as settled
    cases hr : itemDecisionId r with
    | ok i =>
      rw [hr] at hid
      refine .of_ok hid (s.stats.add 1 .poisoned) ?_
      rw [sendOne, exec_ask_bind, serve_send, h]
      simp only [hr]
      rfl
    | error e =>
      rw [hr] at hid
      refine .of_error hid ?_
      rw [sendOne, exec_ask_bind, serve_send, h]
      simp only [hr]
      exact ⟨_, rfl⟩
  | error =>
    have hnone : itemDecisionIds [] = .ok [] := rfl
    refine .of_ok hnone s.stats ?_
    rw [sendOne, exec_ask_bind, serve_send, h]
    simp [Delivery.after, World.send]

theorem delivers_sendEach (rs : List Json) :
    Delivers sink (Shipper.sendEach rs newly) newly s (deliverEach sink s.sends rs) := by
  -- each send is answered from the sends before it, so the history is general
  induction rs generalizing newly s with
  | nil => exact delivers_ret
  | cons r rs ih =>
    rw [sendEach_cons, deliverEach_cons]
    apply (delivers_sendOne r).bind
    intro is st
    exact ih

theorem delivers_sendBatch (batch : List Json) (attempts : ℕ) :
    Delivers sink (Shipper.sendBatch batch attempts newly) newly s
      (deliverBatch sink batch attempts s.sends) := by
  induction attempts generalizing s with
  | zero => exact delivers_ret
  | succ attempts ih =>
    have hsend : s.send batch (sink s.sends batch) =
        Delivery.after { sends := [(batch, sink s.sends batch)] } s s.stats := by
      simp only [World.send, Delivery.after, List.append_nil]
    rw [Shipper.sendBatch, deliverBatch]
    cases h : (sink s.sends batch).result with
    | returned =>
      cases hbatch : itemDecisionIds batch with
      | ok is =>
        refine .of_ok hbatch s.stats ?_
        rw [exec_ask_bind, serve_send, h]
        simp [Delivery.after, World.send, Prog.ofExcept]
      | error e =>
        refine .of_error hbatch ?_
        rw [exec_ask_bind, serve_send, h]
        exact ⟨_, rfl⟩
    | rejected =>
      apply Delivers.of_exec s.stats _ rfl (delivers_sendEach batch)
      rw [exec_ask_bind, serve_send, h, hsend]
    | error =>
      apply Delivers.of_exec (s.stats.add 1 .retries) _ rfl ih
      rw [exec_ask_bind, serve_send, h, hsend]
      rfl

theorem delivers_sendBatches (maxAttempts : ℕ) (bs : List (List Json)) :
    Delivers sink (Shipper.sendBatches maxAttempts bs newly) newly s
      (deliver sink maxAttempts s.sends bs) := by
  induction bs generalizing newly s with
  | nil => exact delivers_ret
  | cons b bs ih =>
    have hsend (st : ShipperStats) : Delivers sink (Shipper.sendBatch b maxAttempts newly) newly
        (Delivery.after {} s st) (deliverBatch sink b maxAttempts s.sends) := by
      have hsends : (Delivery.after {} s st).sends = s.sends := List.append_nil _
      rw [← hsends]
      exact delivers_sendBatch b maxAttempts
    have hbatch : Delivers sink (ask (.count .batches 1) >>= fun _ =>
        Shipper.sendBatch b maxAttempts newly) newly s (deliverBatch sink b maxAttempts s.sends) := by
      apply Delivers.of_exec (d := {}) (s.stats.add 1 .batches) _ rfl (hsend _)
      rw [exec_ask_bind, Delivery.after]
      simp only [List.append_nil]
      rfl
    rw [Shipper.sendBatches, deliver]
    apply hbatch.bind
    intro is st
    exact ih

end Exec

end Shipping
