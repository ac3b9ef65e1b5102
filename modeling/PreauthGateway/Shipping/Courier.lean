import PreauthGateway.Shipping.CleanPass
import PreauthGateway.Shipping.Contents
import PreauthGateway.Shipping.CrashSafety
import PreauthGateway.Shipping.Discipline
import PreauthGateway.Shipping.MemorySink

/-!
# Delivery through crashes

A process appends and ships to an idempotent sink, one call at a time. The process crashes at any
moment and starts again on its files; the sink is another process, which goes down, fails and comes
back at any moment, and no crash of the first makes it forget. Between a send and the watermark a
crash makes the next process send again, so a record may be sent more than once. The sink keeps it
once.

## Main definitions

* `Courier`, `Courier.step`: the process and the sink
* `Received`, `Refused`: the sink has the record, or never takes it
* `Courier.Honest`: the invariant

## Main results

* `Courier.settled_of_acked`: an acknowledged record was received, or is refused
* `Courier.exactly_once`: **every record is in the log or settled, received at most once, and one
  pass against a working sink settles them all**
-/

open Json

/-- The process, and the sink it sends to. -/
structure Courier where
  shipping : Shipping
  sink : MemorySink

namespace Courier

open Shipping

inductive Action
  | append (r : JsonObject)
  | shipOnce (batchSize : ℕ)
  | truncate
  | run (batchSize : ℕ)
  | call
  | crash
  | setUp (up : Bool)
  | setFailNext (n : ℤ)

/-- What the process does without the sink. -/
def Action.shipping : Action → Option Shipping.Action
  | .append r => some (.append r)
  | .shipOnce batchSize => some (.shipOnce batchSize)
  | .truncate => some .truncate
  | .run batchSize => some (.run batchSize)
  | .crash => some .crash
  | .call | .setUp _ | .setFailNext _ => none

/-- The sink's answer, should the call be a send; it may have kept records of a batch that it
rejects. -/
def reply (m : MemorySink) : Call → Except PyError SinkAnswer × MemorySink
  | .send batch =>
    ((m.send batch).1.map fun result =>
      { result, part := (m.send batch).2.received.map Prod.snd }, (m.send batch).2)
  | _ => (.ok { result := .returned }, m)

/-- One step. An exception of `MemorySink.send` that the shipper does not catch ends its program. -/
def step (c : Config) (s : Courier) : Action → Option Courier
  | .setUp up => some { s with sink := { s.sink with up } }
  | .setFailNext n => some { s with sink := { s.sink with failNext := n } }
  | .call =>
    match s.shipping.thread with
    | some (.call o _) =>
      match reply s.sink o with
      | (.ok a, m) => (s.shipping.step c (.call a)).map fun p => { shipping := p, sink := m }
      | (.error _, m) => some { shipping := { s.shipping with thread := none }, sink := m }
    | _ => none
  | a => a.shipping.bind fun b => (s.shipping.step c b).map fun p => { s with shipping := p }

/-- A first process on an empty directory, and an idempotent sink that rejects `rejectIds`. -/
def init (c : Config) (rejectIds : PySet) : Courier where
  shipping := Shipping.init c
  sink := { rejectIds }

/-- Appends carry fresh string ids and open no segment whose number has nine digits. -/
def Admitted (s : Courier) : Action → Prop
  | .append r => withinEightDigits.append s.shipping r
  | _ => True

/-! ## What the sink keeps -/

/-- The sink has the record, under its id. -/
def Received (m : MemorySink) (r : JsonObject) : Prop :=
  ∃ k, r.decisionId.key = some k ∧ (k, r.toJson) ∈ m.received

/-- The sink never takes the id of the record. -/
def Refused (rejectIds : PySet) (r : Json) : Prop := ∃ k, recordKey r = .ok k ∧ rejectIds.Mem k

/-- The ids in the order of their delivery are those of what was received. -/
def InOrder (m : MemorySink) : Prop := m.order.map Json.key = m.ids.map some

section Sink

variable {m m' : MemorySink} {batch : List Json}

/-- An idempotent sink notes each id once. -/
theorem inOrder_accept (hi : m.idempotent = true) (h : InOrder m) :
    InOrder (m.accept batch).2 ∧ (m.accept batch).2.idempotent = true := by
  induction batch generalizing m with
  | nil => exact ⟨h, hi⟩
  | cons r rs ih =>
    rw [MemorySink.accept]
    cases hr : getDecisionId r with
    | error e => exact ⟨h, hi⟩
    | ok rid =>
      dsimp only
      cases hk : hashKey rid with
      | error e => exact ⟨h, hi⟩
      | ok k =>
        dsimp only
        split
        · exact ⟨h, hi⟩
        split
        · exact ih hi h
        · rename_i hnew
          have hkey : rid.key = some k := by
            unfold hashKey at hk
            split at hk
            · rename_i l hl
              rw [hl, Except.ok.inj hk]
            · cases hk
          refine ih hi ?_
          have hset : m.received.set k r = m.received ++ [(k, r)] :=
            Dict.set_of_notMem (Dict.get?_eq_none.mp (Option.not_isSome_iff_eq_none.mp hnew)) r
          unfold InOrder MemorySink.ids
          dsimp only
          rw [hset, List.map_append, List.map_append, List.map_append, h]
          simp [hkey, MemorySink.ids]

theorem inOrder_send (hi : m.idempotent = true) (h : InOrder m) (batch : List Json) :
    InOrder (m.send batch).2 ∧ (m.send batch).2.idempotent = true := by
  unfold MemorySink.send
  split
  · exact ⟨h, hi⟩
  split
  · exact ⟨h, hi⟩
  · exact inOrder_accept hi h

end Sink

/-! ## The steps -/

/-- **What a step can do.** -/
theorem step_cases {c : Config} {s s' : Courier} {a : Action} (h : step c s a = some s') :
    (∃ b p, a.shipping = some b ∧ s.shipping.step c b = some p ∧ s' = { s with shipping := p }) ∨
    (∃ o k b m, a = .call ∧ s.shipping.thread = some (.call o k) ∧ reply s.sink o = (.ok b, m) ∧
      s' = ⟨⟨(handle o b s.shipping.world).2, resume (k (handle o b s.shipping.world).1)⟩, m⟩) ∨
    (∃ o k e m, a = .call ∧ s.shipping.thread = some (.call o k) ∧ reply s.sink o = (.error e, m) ∧
      s' = ⟨{ s.shipping with thread := none }, m⟩) ∨
    (a.shipping = none ∧ a ≠ .call ∧
      ∃ up n, s' = { s with sink := { s.sink with up := up, failNext := n } }) := by
  have hlift {b : Shipping.Action} (hb : a.shipping = some b)
      (h : (s.shipping.step c b).map (fun p => { s with shipping := p }) = some s') :
      ∃ b p, a.shipping = some b ∧ s.shipping.step c b = some p ∧ s' = { s with shipping := p } := by
    obtain ⟨p, hp, rfl⟩ := Option.map_eq_some_iff.mp h
    exact ⟨b, p, hb, hp, rfl⟩
  cases a with
  | append r => exact .inl (hlift rfl h)
  | shipOnce b => exact .inl (hlift rfl h)
  | truncate => exact .inl (hlift rfl h)
  | run b => exact .inl (hlift rfl h)
  | crash => exact .inl (hlift rfl h)
  | call =>
    rw [step] at h
    split at h
    · rename_i o k hk
      split at h
      · rename_i b m hb
        obtain ⟨p, hp, rfl⟩ := Option.map_eq_some_iff.mp h
        rw [Shipping.step, hk] at hp
        cases hp
        exact .inr (.inl ⟨o, k, b, m, rfl, hk, hb, rfl⟩)
      · rename_i e m he
        cases h
        exact .inr (.inr (.inl ⟨o, k, e, m, rfl, hk, he, rfl⟩))
    · cases h
  | setUp up =>
    cases h
    exact .inr (.inr (.inr ⟨rfl, by simp, up, s.sink.failNext, rfl⟩))
  | setFailNext n =>
    cases h
    exact .inr (.inr (.inr ⟨rfl, by simp, s.sink.up, n, rfl⟩))

/-- What the sink holds of the records: each under its id, once and in order, and whatever was
accepted. -/
structure Holds (rejectIds : PySet) (w : World) (m : MemorySink) : Prop where
  refuses : m.rejectIds = rejectIds
  received : ∀ p ∈ m.received, ∃ r ∈ w.appended,
    r.decisionId.key = some p.1 ∧ r.toJson = p.2 ∧ ¬ rejectIds.Mem p.1
  once : m.ids.Nodup
  order : m.idempotent = true ∧ InOrder m
  accepted : ∀ r : JsonObject, r.toJson ∈ w.accepted →
    ∀ k, r.decisionId.key = some k → k ∈ m.ids

/-- What the process knows: the records that were read are of the log, and what it takes for poison
is refused by the sink. -/
structure Knows (rejectIds : PySet) (w : World) (d : Diary) : Prop where
  sound : d.sound
  read : ∀ v ∈ d.read, ∃ r ∈ w.appended, v = r.toJson
  rejected : ∀ batch, d.rejected = some batch → ∃ r ∈ batch, Refused rejectIds r

/-- The invariant: the process is safe in crashes, its program disciplined with what it knows, and
the sink holds what it accepted. -/
structure Honest (rejectIds : PySet) (s : Courier) : Prop where
  safe : CrashSafe s.shipping.world
  thread : ThreadSafe withinEightDigits Appends CrashSafe s.shipping.world s.shipping.thread
  diary : ∃ d : Diary, Disciplined d s.shipping.thread ∧ Knows rejectIds s.shipping.world d
  named : ∀ r ∈ s.shipping.world.appended, ∃ x, r.decisionId = .str x
  distinct : (s.shipping.world.appended.map JsonObject.decisionId).Nodup
  sink : Holds rejectIds s.shipping.world s.sink
  poison : ∀ r ∈ s.shipping.world.poison, Refused rejectIds r
  written : ∀ w ∈ s.shipping.world.writes, ∀ r ∈ w.2, Refused rejectIds r

/-! ## What each step keeps -/

section Step

variable {rejectIds : PySet} {s : Courier}

theorem knows_nil (w : World) : Knows rejectIds w {} := ⟨trivial, nofun, nofun⟩

theorem Honest.append (h : Honest rejectIds s) {r : JsonObject}
    (hr : withinEightDigits.append s.shipping r) :
    Honest rejectIds { s with shipping := { s.shipping with world := s.shipping.world.append r } } := by
  obtain ⟨⟨hname, hfresh⟩, h8⟩ := hr
  obtain ⟨d, hd, hknows⟩ := h.diary
  have hmem : ∀ x ∈ s.shipping.world.appended, x ∈ (s.shipping.world.append r).appended :=
    fun x hx => List.mem_append_left _ hx
  refine ⟨h.safe.append h8, ?_, ⟨d, hd, hknows.sound, ?_, hknows.rejected⟩, ?_, ?_,
    ⟨h.sink.refuses, ?_, h.sink.once, h.sink.order, h.sink.accepted⟩, h.poison, h.written⟩
  · have hthread := h.thread
    dsimp only
    cases ht : s.shipping.thread with
    | none => trivial
    | some p =>
      rw [ht] at hthread
      exact hthread.rely (Relation.ReflTransGen.single ⟨r, ⟨hname, hfresh⟩, h8, rfl⟩)
  · intro v hv
    obtain ⟨x, hx, e⟩ := hknows.read v hv
    exact ⟨x, hmem x hx, e⟩
  · intro x hx
    rcases List.mem_append.mp hx with hx | hx
    · exact h.named x hx
    · rw [List.mem_singleton.mp hx]
      exact hname
  · show ((s.shipping.world.appended ++ [r]).map JsonObject.decisionId).Nodup
    rw [List.map_append]
    refine List.nodup_append.mpr ⟨h.distinct, List.nodup_singleton _, ?_⟩
    intro i hi j hj
    obtain ⟨x, hx, rfl⟩ := List.mem_map.mp hi
    rw [List.mem_singleton.mp hj]
    exact hfresh x hx
  · intro p hp
    obtain ⟨x, hx, hp⟩ := h.sink.received p hp
    exact ⟨x, hmem x hx, hp⟩

theorem Honest.crash (h : Honest rejectIds s) :
    Honest rejectIds { s with shipping := { world := s.shipping.world.crash } } where
  safe := h.safe.crash
  thread := trivial
  diary := ⟨{}, trivial, knows_nil _⟩
  named := h.named
  distinct := h.distinct
  sink := ⟨h.sink.refuses, h.sink.received, h.sink.once, h.sink.order, h.sink.accepted⟩
  poison := nofun
  written := h.written

/-- A program is started, or has ended. -/
theorem Honest.thread_eq (h : Honest rejectIds s) {p : Option (ShipperM Unit)}
    (hsafe : ThreadSafe withinEightDigits Appends CrashSafe s.shipping.world p)
    (hp : Disciplined {} p) :
    Honest rejectIds { s with shipping := { s.shipping with thread := p } } :=
  { h with thread := hsafe, diary := ⟨{}, hp, knows_nil _⟩ }

theorem Honest.settings (h : Honest rejectIds s) (up : Bool) (n : ℤ) :
    Honest rejectIds { s with sink := { s.sink with up := up, failNext := n } } :=
  { h with sink := ⟨h.sink.refuses, h.sink.received, h.sink.once, h.sink.order, h.sink.accepted⟩ }

/-- What a call of the shipper leaves of the history. -/
theorem handle_history (o : Call) (b : SinkAnswer) (w : World) :
    (handle o b w).2.appended = w.appended ∧
      ((∀ batch, o ≠ .send batch) → (handle o b w).2.sends = w.sends) ∧
      (∀ r ∈ (handle o b w).2.poison, r ∈ w.poison ∨ o = .poison r) ∧
      ∀ e ∈ (handle o b w).2.writes, e ∈ w.writes ∨ e.2 = w.poison := by
  have hsame {w' : World} (ha : w'.appended = w.appended) (hs : w'.sends = w.sends)
      (hp : w'.poison = w.poison) (hw : w'.writes = w.writes) :
      w'.appended = w.appended ∧ ((∀ batch, o ≠ .send batch) → w'.sends = w.sends) ∧
        (∀ r ∈ w'.poison, r ∈ w.poison ∨ o = .poison r) ∧
        ∀ e ∈ w'.writes, e ∈ w.writes ∨ e.2 = w.poison :=
    ⟨ha, fun _ => hs, fun r hr => .inl (hp ▸ hr), fun e he => .inl (hw ▸ he)⟩
  cases o with
  | readWatermark => exact hsame rfl rfl rfl rfl
  | listSegments => exact hsame rfl rfl rfl rfl
  | readSegment n => exact hsame rfl rfl rfl rfl
  | activeSegment => exact hsame rfl rfl rfl rfl
  | segmentSize n => exact hsame rfl rfl rfl rfl
  | writeTmp b => exact hsame rfl rfl rfl rfl
  | unlink n => exact hsame rfl rfl rfl rfl
  | count c n => exact hsame rfl rfl rfl rfl
  | send batch => exact ⟨rfl, fun h => absurd rfl (h batch), fun r hr => .inl hr, fun e he => .inl he⟩
  | poison r =>
    refine ⟨rfl, fun _ => rfl, fun x hx => ?_, fun e he => .inl he⟩
    rcases List.mem_append.mp hx with hx | hx
    · exact .inl hx
    · exact .inr (by rw [List.mem_singleton.mp hx])
  | replaceWatermark =>
    show w.replaceWatermark.appended = _ ∧ (_ → w.replaceWatermark.sends = _) ∧
      (∀ r ∈ w.replaceWatermark.poison, _) ∧ ∀ e ∈ w.replaceWatermark.writes, _
    cases ht : w.tmp with
    | none =>
      have hnone : w.replaceWatermark = w := by rw [World.replaceWatermark, ht]
      rw [hnone]
      exact ⟨rfl, fun _ => rfl, fun r hr => .inl hr, fun e he => .inl he⟩
    | some b =>
      rw [replaceWatermark_eq ht]
      refine ⟨rfl, fun _ => rfl, fun r hr => .inl hr, fun e he => ?_⟩
      rcases List.mem_append.mp he with he | he
      · exact .inl he
      · exact .inr (by rw [List.mem_singleton.mp he])

theorem hashable_of_named {r : JsonObject} (h : ∃ x, r.decisionId = .str x) : r.Hashable := by
  obtain ⟨x, hx⟩ := h
  rw [JsonObject.Hashable, hx]
  exact Option.some_ne_none _

/-- A send to the sink. -/
theorem Holds.send {w : World} {m m' : MemorySink} {batch : List Json} {b : SinkAnswer}
    (h : Holds rejectIds w m) (hbatch : ∀ v ∈ batch, ∃ r ∈ w.appended, v = r.toJson)
    (hnamed : ∀ r ∈ w.appended, ∃ x, r.decisionId = .str x)
    (hr : reply m (.send batch) = (.ok b, m')) :
    Holds rejectIds (w.send batch b) m' ∧
      (b.result = .rejected → ∃ r ∈ batch, Refused rejectIds r) := by
  obtain ⟨rs, rfl, hrs⟩ := fromLog_of_mem hbatch
  have hhash : ∀ r ∈ rs, r.Hashable := fun r hr => hashable_of_named (hnamed r (hrs r hr))
  obtain ⟨result, m₁, hsend, hg, hret, hrej⟩ := MemorySink.send_spec hhash m
  have horder := inOrder_send h.order.1 h.order.2 (rs.map JsonObject.toJson)
  rw [hsend] at horder
  rw [reply, hsend] at hr
  cases hr
  have hreceived : ∀ p ∈ m₁.received, ∃ r ∈ w.appended,
      r.decisionId.key = some p.1 ∧ r.toJson = p.2 ∧ ¬ rejectIds.Mem p.1 := by
    intro p hp
    rcases hg.new p hp with hp | ⟨r, hr, hk, he, hno⟩
    · exact h.received p hp
    · rw [h.refuses] at hno
      exact ⟨r, hrs r hr, hk, he, hno⟩
  refine ⟨⟨hg.rejectIds.trans h.refuses, hreceived, hg.once h.once, ⟨horder.2, horder.1⟩, ?_⟩, ?_⟩
  · intro r hr k hk
    rw [accepted_send] at hr
    rcases List.mem_append.mp hr with hr | hr
    · exact hg.old k (h.accepted r hr k hk)
    -- what a send that raised accepted is what the sink received of it
    have hpart (hr : r.toJson ∈ (m₁.received.map Prod.snd).filter
        fun v => v ∈ rs.map JsonObject.toJson) : k ∈ m₁.ids := by
      obtain ⟨p, hp, he⟩ := List.mem_map.mp (List.mem_of_mem_filter hr)
      obtain ⟨x, -, hxk, hxe, -⟩ := hreceived p hp
      rw [JsonObject.toJson_injective (hxe.trans he), hk, Option.some.injEq] at hxk
      rw [hxk]
      exact List.mem_map_of_mem hp
    unfold SinkAnswer.accepted at hr
    cases result with
    | returned =>
      obtain ⟨x, hx, he⟩ := List.mem_map.mp hr
      rw [JsonObject.toJson_injective he] at hx
      exact hret rfl r hx k hk
    | error => exact hpart hr
    | rejected => exact hpart hr
  · intro hb
    obtain ⟨r, hr, k, hk, hin⟩ := hrej hb
    rw [h.refuses] at hin
    exact ⟨r.toJson, List.mem_map_of_mem hr, k, recordKey_toJson hk, hin⟩

theorem Holds.mono {w w' : World} {m : MemorySink} (h : Holds rejectIds w m)
    (happ : w'.appended = w.appended) (hs : w'.sends = w.sends) : Holds rejectIds w' m := by
  refine ⟨h.refuses, ?_, h.once, h.order, ?_⟩
  · rw [happ]
    exact h.received
  · rw [World.accepted, hs]
    exact h.accepted

/-- What a call is answered is known: segments hold records of the log, and what was rejected the
sink refuses. -/
theorem Knows.enter {w : World} {d : Diary} {o : Call} {b : SinkAnswer} (h : Knows rejectIds w d)
    (hw : WholeSegments w) (hallows : d.Allows o)
    (hrej : ∀ batch, o = .send batch → b.result = .rejected → ∃ r ∈ batch, Refused rejectIds r) :
    Knows rejectIds (handle o b w).2 (d.enter o (handle o b w).1) := by
  have happ := (handle_history o b w).1
  refine ⟨⟨h.sound, hallows⟩, ?_, ?_⟩
  · rw [happ]
    cases o with
    | readSegment n =>
      intro v hv
      rcases List.mem_append.mp hv with hv | hv
      · exact h.read v hv
      · obtain ⟨rs, hrs, hmem⟩ := hw n
        have hread : SegmentedWal.readSegment (w.wal.segment n) = .ok (rs.map JsonObject.toJson) := by
          rw [hrs, SegmentedWal.readSegment_logBytes]
        change v ∈ (SegmentedWal.readSegment (w.wal.segment n)).toOption.getD [] at hv
        rw [hread] at hv
        obtain ⟨r, hr, rfl⟩ := List.mem_map.mp hv
        exact ⟨r, hmem r hr, rfl⟩
    | readWatermark => exact h.read
    | listSegments => exact h.read
    | activeSegment => exact h.read
    | segmentSize n => exact h.read
    | writeTmp b => exact h.read
    | unlink n => exact h.read
    | count c n => exact h.read
    | send batch => exact h.read
    | poison r => exact h.read
    | replaceWatermark => exact h.read
  · intro batch hbatch
    cases o with
    | send batch' =>
      have hhandle : (handle (.send batch') b w).1 = b.result := rfl
      rw [hhandle] at hbatch
      cases hb : b.result with
      | rejected =>
        rw [hb] at hbatch
        cases hbatch
        exact hrej _ rfl hb
      | returned =>
        rw [hb] at hbatch
        cases hbatch
      | error =>
        rw [hb] at hbatch
        cases hbatch
    | readSegment n => cases hbatch
    | readWatermark => cases hbatch
    | listSegments => cases hbatch
    | activeSegment => cases hbatch
    | segmentSize n => cases hbatch
    | writeTmp b => cases hbatch
    | unlink n => cases hbatch
    | count c n => cases hbatch
    | poison r => cases hbatch
    | replaceWatermark => cases hbatch

/-- The sink has an answer to whatever the program calls: the ids of the log can be looked up. -/
theorem Honest.replies (h : Honest rejectIds s) {o : Call} {k : o.Answer → ShipperM Unit}
    (ht : s.shipping.thread = some (.call o k)) : ∃ b m, reply s.sink o = (.ok b, m) := by
  by_cases ho : ∃ batch, o = .send batch
  · obtain ⟨batch, rfl⟩ := ho
    obtain ⟨d, hd, hknows⟩ := h.diary
    rw [ht] at hd
    obtain ⟨⟨-, hallows⟩, -⟩ := hd d rfl hknows.sound .returned _ rfl
    obtain ⟨rs, rfl, hrs⟩ := fromLog_of_mem fun v hv => hknows.read v (hallows v hv)
    obtain ⟨result, m, hsend, -⟩ :=
      MemorySink.send_spec (fun r hr => hashable_of_named (h.named r (hrs r hr))) s.sink
    exact ⟨⟨result, m.received.map Prod.snd⟩, m, by rw [reply, hsend]; rfl⟩
  · unfold reply
    split
    · exact absurd ⟨_, rfl⟩ ho
    · exact ⟨_, _, rfl⟩

/-- The sink answers a call that the program makes. -/
theorem Honest.call (h : Honest rejectIds s) {o : Call} {k : o.Answer → ShipperM Unit}
    (ht : s.shipping.thread = some (.call o k)) {b : SinkAnswer} {m : MemorySink}
    (hr : reply s.sink o = (.ok b, m)) :
    Honest rejectIds ⟨⟨(handle o b s.shipping.world).2,
      resume (k (handle o b s.shipping.world).1)⟩, m⟩ := by
  obtain ⟨d, hd, hknows⟩ := h.diary
  have hthread := h.thread
  rw [ht] at hd hthread
  obtain ⟨hsafe, hnext⟩ := hthread s.shipping.world (refl_of Appends _) h.safe
    (handle o b s.shipping.world).1 (handle o b s.shipping.world).2 ⟨trivial, b, rfl⟩
  obtain ⟨⟨-, hallows⟩, hrest⟩ := hd d rfl hknows.sound (handle o b s.shipping.world).1 _ rfl
  obtain ⟨happ, hsends, hpoison, hwrites⟩ := handle_history o b s.shipping.world
  have hsink : Holds rejectIds (handle o b s.shipping.world).2 m ∧
      ∀ batch, o = .send batch → b.result = .rejected → ∃ r ∈ batch, Refused rejectIds r := by
    by_cases ho : ∃ batch, o = .send batch
    · obtain ⟨batch, rfl⟩ := ho
      obtain ⟨hholds, hrej⟩ := h.sink.send (fun v hv => hknows.read v (hallows v hv)) h.named hr
      refine ⟨hholds, fun batch' e => ?_⟩
      cases e
      exact hrej
    · have ho : ∀ batch, o ≠ .send batch := fun batch e => ho ⟨batch, e⟩
      have hm : m = s.sink := by
        unfold reply at hr
        split at hr
        · exact absurd rfl (ho _)
        · cases hr
          rfl
      rw [hm]
      exact ⟨h.sink.mono happ (hsends ho), fun batch e => absurd e (ho batch)⟩
  refine ⟨hsafe, threadSafe_resume hnext, ⟨_, disciplined_resume hrest,
    hknows.enter h.safe.whole hallows hsink.2⟩, ?_, ?_, hsink.1, ?_, ?_⟩
  · dsimp only
    rw [happ]
    exact h.named
  · dsimp only
    rw [happ]
    exact h.distinct
  · intro r hr
    rcases hpoison r hr with hr | rfl
    · exact h.poison r hr
    · -- its rejection alone is the last thing that is known
      obtain ⟨x, hx, hrefused⟩ := hknows.rejected [r] hallows
      rw [List.mem_singleton.mp hx] at hrefused
      exact hrefused
  · intro e he
    rcases hwrites e he with he | he
    · exact h.written e he
    · rw [he]
      exact h.poison

/-- **Every step keeps the invariant.** -/
theorem Honest.step (h : Honest rejectIds s) {c : Config} {s' : Courier} {a : Action}
    (ha : Admitted s a) (hs : step c s a = some s') : Honest rejectIds s' := by
  rcases step_cases hs with ⟨b, p, hb, hp, rfl⟩ | ⟨o, k, b, m, rfl, ht, hr, rfl⟩ |
    ⟨o, k, e, m, rfl, ht, hr, rfl⟩ | ⟨-, -, up, n, rfl⟩
  · rcases Shipping.step_cases hp with ⟨r, rfl, rfl⟩ | ⟨q, hq, -, rfl⟩ | ⟨x, o, k, rfl, -, -⟩ |
      ⟨rfl, rfl⟩
    · refine h.append ?_
      cases a <;> cases hb
      exact ha
    · exact h.thread_eq (truncateRules.threadSafe_program hq h.safe) (disciplined_program hq)
    · cases a <;> cases hb
    · exact h.crash
  · exact h.call ht hr
  · obtain ⟨b, m', hb⟩ := h.replies ht
    rw [hb] at hr
    cases hr
  · exact h.settings up n

theorem honest_init (c : Config) (rejectIds : PySet) : Honest rejectIds (init c rejectIds) where
  safe := crashSafe_init c
  thread := trivial
  diary := ⟨{}, trivial, knows_nil _⟩
  named := nofun
  distinct := List.nodup_nil
  sink := ⟨rfl, nofun, List.nodup_nil, ⟨rfl, rfl⟩, nofun⟩
  poison := nofun
  written := nofun

theorem honest_run {c : Config} {rejectIds : PySet} {as : List Action} {s : Courier}
    (hm : Runs.Meets (step c) Admitted (init c rejectIds) as)
    (hrun : Runs.run (step c) (init c rejectIds) as = some s) : Honest rejectIds s :=
  Runs.invariant (fun _ _ _ h ha hs => h.step ha hs) (honest_init c rejectIds) hm hrun

/-! ## What is acknowledged -/

/-- **An acknowledged record was received, or is refused.** -/
theorem settled_of_acked (h : Honest rejectIds s) {acked : PySet}
    (hm : Marked acked s.shipping.world) {r : JsonObject} (hr : r ∈ s.shipping.world.appended)
    (hacked : r.Acked acked) : Received s.sink r ∨ Refused rejectIds r.toJson := by
  obtain ⟨k, hk, hin⟩ := hacked
  obtain ⟨acked', hm', hatt, -⟩ := h.safe.marked
  obtain rfl := marked_unique hm hm'
  rcases (hatt k hin).1 with ⟨x, hx, hxk⟩ | ⟨w, hw, x, hx, hxk⟩
  · obtain ⟨⟨l, v⟩, hp, rfl⟩ := List.mem_map.mp (h.sink.accepted x hx k hxk)
    obtain ⟨y, hy, hyk, rfl, -⟩ := h.sink.received _ hp
    have hsame : r.decisionId = y.decisionId := by
      obtain ⟨n, hn⟩ := h.named r hr
      rw [hn, key_str, Option.some.injEq] at hk
      rw [← hk, key_eq_str] at hyk
      rw [hn, hyk]
    have hry : r = y := List.inj_on_of_nodup_map h.distinct hr hy hsame
    exact .inl ⟨l, hk, hry ▸ hp⟩
  · obtain ⟨l, hl, hrej⟩ := h.written w hw _ hx
    rw [recordKey_toJson hxk] at hl
    cases hl
    exact .inr ⟨k, recordKey_toJson hk, hrej⟩

end Step

/-! ## A pass against a working sink -/

/-- The sink is up, and no failure is due. -/
def Working (m : MemorySink) : Prop := m.up = true ∧ m.failNext ≤ 0

/-- The sink after sends. -/
def resend (m : MemorySink) (sends : List (List Json × SinkAnswer)) : MemorySink :=
  sends.foldl (fun m p => (m.send p.1).2) m

theorem resend_append (m : MemorySink) (sends sends' : List (List Json × SinkAnswer)) :
    resend m (sends ++ sends') = resend (resend m sends) sends' := List.foldl_append

/-- The sink, as what answers from the sends of a world; `n` is the number of those before it. -/
def sinkFrom (m : MemorySink) (n : ℕ) : Sink := fun hist batch =>
  match (reply (resend m (hist.drop n)) (.send batch)).1 with
  | .ok b => b
  | .error _ => { result := .returned }

section Working

variable {m : MemorySink} {batch : List Json}

theorem accept_settings (m : MemorySink) (batch : List Json) :
    (m.accept batch).2.up = m.up ∧ (m.accept batch).2.failNext = m.failNext ∧
      (m.accept batch).1 ≠ .ok .error := by
  induction batch generalizing m with
  | nil => exact ⟨rfl, rfl, by simp [MemorySink.accept]⟩
  | cons r rs ih =>
    rw [MemorySink.accept]
    cases getDecisionId r with
    | error e => exact ⟨rfl, rfl, by simp⟩
    | ok rid =>
      dsimp only
      cases hashKey rid with
      | error e => exact ⟨rfl, rfl, by simp⟩
      | ok k =>
        dsimp only
        split
        · exact ⟨rfl, rfl, by simp⟩
        split
        · exact ih _
        · exact ih _

theorem Working.send (h : Working m) (batch : List Json) :
    Working (m.send batch).2 ∧ (m.send batch).1 ≠ .ok .error := by
  have hsend : m.send batch = m.accept batch := by
    rw [MemorySink.send, if_neg (not_not.mpr h.1), if_neg (not_lt.mpr h.2)]
  obtain ⟨hup, hfail, hne⟩ := accept_settings m batch
  rw [hsend]
  exact ⟨⟨hup.trans h.1, hfail.le.trans h.2⟩, hne⟩

theorem Working.resend (h : Working m) (sends : List (List Json × SinkAnswer)) :
    Working (resend m sends) := by
  induction sends generalizing m with
  | nil => exact h
  | cons p sends ih => exact ih (h.send p.1).1

/-- A working sink takes what it is sent, or rejects it for good. -/
theorem sinkFrom_answers (h : Working m) (n : ℕ) : (sinkFrom m n).Answers := by
  intro hist batch hb
  have hne := ((h.resend (hist.drop n)).send batch).2
  unfold sinkFrom reply at hb
  dsimp only at hb
  cases hs : ((Courier.resend m (hist.drop n)).send batch).1 with
  | error e =>
    rw [hs] at hb
    cases hb
  | ok result =>
    rw [hs] at hb
    exact hne (hs.trans (congrArg Except.ok hb))

end Working

section Pass

variable {c : Config} {rejectIds : PySet}

/-- Nothing but calls of the shipper. -/
def OnlyCalls (_ : Courier) (a : Action) : Prop := a = .call

/-- **What a program does at once it does call by call.** -/
theorem reaches_exec {m₀ : MemorySink} {n : ℕ} {α : Type} {p : ShipperM α} {w w' : World} {a : α}
    (hexec : Prog.exec (serve (sinkFrom m₀ n)) p w = (.ok a, w')) (f : α → ShipperM Unit)
    {m : MemorySink} (h : Honest rejectIds ⟨⟨w, resume (p >>= f)⟩, m⟩)
    (hm : m = resend m₀ (w.sends.drop n)) (hn : n ≤ w.sends.length) :
    ∃ m', Runs.Reaches (step c) OnlyCalls ⟨⟨w, resume (p >>= f)⟩, m⟩ ⟨⟨w', resume (f a)⟩, m'⟩ := by
  induction p generalizing w m with
  | ret b =>
    cases hexec
    exact ⟨m, .refl _⟩
  | raise e => cases hexec
  | call o k ih =>
    have ht : (⟨w, resume (Prog.call o k >>= f)⟩ : Shipping).thread =
        some (.call o fun r => k r >>= f) := rfl
    obtain ⟨b, m', hr⟩ := h.replies ht
    have hstep : step c ⟨⟨w, resume (Prog.call o k >>= f)⟩, m⟩ .call =
        some ⟨⟨(handle o b w).2, resume (k (handle o b w).1 >>= f)⟩, m'⟩ := by
      rw [step, ht]
      dsimp only
      rw [hr]
      rfl
    have hserve : serve (sinkFrom m₀ n) o w = handle o b w ∧
        m' = resend m₀ ((handle o b w).2.sends.drop n) ∧ n ≤ (handle o b w).2.sends.length := by
      by_cases ho : ∃ batch, o = .send batch
      · obtain ⟨batch, rfl⟩ := ho
        have hanswer : sinkFrom m₀ n w.sends batch = b := by
          rw [sinkFrom, ← hm, hr]
        have hafter : m' = (m.send batch).2 := (congrArg Prod.snd hr).symm
        refine ⟨by rw [serve, Sink.answer, hanswer], ?_, ?_⟩
        · show m' = resend m₀ ((w.sends ++ [(batch, b)]).drop n)
          rw [List.drop_append_of_le_length hn, resend_append, ← hm, hafter]
          rfl
        · exact hn.trans (List.prefix_append _ _).length_le
      · have ho : ∀ batch, o ≠ .send batch := fun batch e => ho ⟨batch, e⟩
        rw [(handle_history o b w).2.1 ho]
        have hreply : reply m o = (.ok { result := .returned }, m) := by
          unfold reply
          split
          · exact absurd rfl (ho _)
          · rfl
        have hanswer : Sink.answer (sinkFrom m₀ n) o w = { result := .returned } := by
          unfold Sink.answer
          split
          · exact absurd rfl (ho _)
          · rfl
        rw [hreply] at hr
        cases hr
        exact ⟨by rw [serve, hanswer], hm, hn⟩
    obtain ⟨hserve, hm', hn'⟩ := hserve
    rw [Prog.exec, hserve] at hexec
    obtain ⟨m'', hreach⟩ := ih _ hexec (h.step (show Admitted _ .call from trivial) hstep) hm' hn'
    exact ⟨m'', .head rfl hstep hreach⟩

/-- The log of a process that is safe in crashes can be read. -/
theorem exists_legible {s : Courier} (h : Honest rejectIds s) :
    ∃ recsOf, Legible s.shipping.world.wal recsOf ∧
      ∀ n, s.shipping.world.wal.segment n = logBytes (recsOf n) := by
  choose recsOf hrecs hmem using h.safe.whole
  refine ⟨recsOf, ⟨fun n _ => ?_, fun n _ r hr => h.named r (hmem n r hr)⟩, hrecs⟩
  rw [hrecs, SegmentedWal.readSegment_logBytes]

/-- Where nothing is unshipped, every record of a segment is acknowledged. -/
theorem acked_of_unshipped {s : Courier} (h : Honest rejectIds s)
    (hnone : pendingOf s.shipping.world = .ok []) {acked : PySet}
    (hm : Marked acked s.shipping.world) {r : JsonObject} (hr : InSegment s.shipping.world r) :
    r.Acked acked := by
  obtain ⟨recsOf, hlegible, hrecs⟩ := exists_legible h
  obtain ⟨n, rs, hrs, hmem⟩ := hr
  rw [hrecs n] at hrs
  rw [← logBytes_injective hrs] at hmem
  have hdir : n ∈ s.shipping.world.wal.dir := by
    by_contra hn
    have hempty := hrecs n
    rw [SegmentedWal.segment_eq_nil hn] at hempty
    rw [eq_nil_of_logBytes hempty] at hmem
    cases hmem
  have hread : Watermark.read s.shipping.world.watermark = .ok acked := hm
  rw [pendingOf, hread, hlegible.records] at hnone
  have hpending := (notIn_eq fun r hr => hlegible.hashable hr).symm.trans hnone
  by_contra hack
  have hin : r ∈ ((segments s.shipping.world.wal.dir).flatMap recsOf).filter
      fun r => ¬ r.Acked acked :=
    List.mem_filter.mpr ⟨List.mem_flatMap.mpr ⟨n, mem_segments.mpr hdir, hmem⟩, by simpa using hack⟩
  rw [List.map_eq_nil_iff.mp (Except.ok.inj hpending)] at hin
  cases hin

/-- Calls append nothing. -/
theorem appended_calls {s s' : Courier} (h : Honest rejectIds s)
    (hreach : Runs.Reaches (step c) OnlyCalls s s') :
    Honest rejectIds s' ∧ s'.shipping.world.appended = s.shipping.world.appended := by
  obtain ⟨as, hm, hrun⟩ := hreach
  refine Runs.invariant (P := fun t => Honest rejectIds t ∧
    t.shipping.world.appended = s.shipping.world.appended) ?_ ⟨h, rfl⟩ hm hrun
  rintro t a t' ⟨ht, happ⟩ rfl hs
  refine ⟨ht.step (show Admitted t .call from trivial) hs, ?_⟩
  rcases step_cases hs with ⟨b, p, hb, -, -⟩ | ⟨o, k, b, m, -, hk, hr, rfl⟩ |
    ⟨o, k, e, m, -, hk, hr, rfl⟩ | ⟨-, hne, -⟩
  · cases hb
  · exact (handle_history o b t.shipping.world).1.trans happ
  · exact happ
  · exact absurd rfl hne

/-- A pass against a working sink ends, with nothing unshipped. -/
theorem exec_run_clean {sink : Sink} (hsink : sink.Answers) {maxAttempts batchSize : ℕ}
    (ha : 0 < maxAttempts) (hb : 0 < batchSize) {w : World} {recsOf : ℕ → List JsonObject}
    (h : Legible w.wal recsOf) {acked : PySet} (hm : Marked acked w)
    (hacked : ∀ k, acked.Mem k → ∃ x, k = .str x) :
    ∃ counts w', Prog.exec (serve sink) (Shipper.run maxAttempts batchSize) w = (.ok counts, w') ∧
      pendingOf w' = .ok [] := by
  obtain ⟨shipped, w₁, acked', hship, hm₁, hwal, hall⟩ :=
    exec_shipOnce_clean hsink ha hb h hm hacked
  rw [← hwal] at hall h
  obtain ⟨st, htruncate⟩ := exec_truncate_clean sink h hm₁ hall
  set ds := reclaimable recsOf w₁.wal.seq (segments w₁.wal.dir) with hds
  -- the segments that are left were there before
  have hleft : ∀ r ∈ (segments (reclaim w₁ ds st).wal.dir).flatMap recsOf, r.Acked acked' := by
    intro r hr
    obtain ⟨n, hn, hrn⟩ := List.mem_flatMap.mp hr
    have hdir := (SegmentedWal.mem_unlinkAll.mp (mem_segments.mp hn)).2
    exact hall r (List.mem_flatMap.mpr ⟨n, mem_segments.mpr hdir, hrn⟩)
  have hpending : pendingOf (reclaim w₁ ds st) = .ok [] :=
    pendingOf_eq_nil (s := reclaim w₁ ds st) (h.unlinkAll ds) hm₁ hleft
  refine ⟨(shipped, ds.length, 0), reclaim w₁ ds st, ?_, hpending⟩
  rw [Shipper.run, Prog.exec_bind, hship, Prog.andThen, Prog.exec_bind, htruncate, Prog.andThen,
    Prog.exec_bind, exec_unshipped, hpending]
  rfl

/-- **One pass against a working sink settles every record.** -/
theorem pass_settles (hattempts : 0 < c.maxAttempts) {s : Courier} (h : Honest rejectIds s)
    (ht : s.shipping.thread = none) (hsink : Working s.sink) {batchSize : ℕ} (hb : 0 < batchSize) :
    ∃ t s', step c s (.run batchSize) = some t ∧ Runs.Reaches (step c) OnlyCalls t s' ∧
      s'.shipping.thread = none ∧ s'.shipping.world.appended = s.shipping.world.appended ∧
      ∀ r ∈ s.shipping.world.appended, Received s'.sink r ∨ Refused rejectIds r.toJson := by
  obtain ⟨acked, hmark, hknown, -⟩ := h.safe.marked
  obtain ⟨recsOf, hlegible, -⟩ := exists_legible h
  have hstr : ∀ k, acked.Mem k → ∃ x, k = .str x := by
    intro k hk
    obtain ⟨-, r, hr, hrk⟩ := hknown k hk
    obtain ⟨x, hx⟩ := h.named r hr
    rw [hx, key_str, Option.some.injEq] at hrk
    exact ⟨x, hrk.symm⟩
  obtain ⟨counts, w', hexec, hpending⟩ :=
    exec_run_clean (sinkFrom_answers hsink s.shipping.world.sends.length) hattempts hb hlegible hmark
      hstr
  have hstep : step c s (.run batchSize) =
      some ⟨⟨s.shipping.world, start (Shipper.run c.maxAttempts batchSize)⟩, s.sink⟩ := by
    rw [step, Action.shipping, Option.bind_some, Shipping.step, ht]
    · rfl
    all_goals simp
  have hstart := h.step (show Admitted s (.run batchSize) from trivial) hstep
  obtain ⟨m', hreach⟩ := reaches_exec (c := c) hexec (fun _ => .ret ()) hstart
    (by rw [List.drop_length]; rfl) le_rfl
  obtain ⟨hend, happ⟩ := appended_calls hstart hreach
  refine ⟨_, _, hstep, hreach, rfl, happ, fun r hr => ?_⟩
  obtain ⟨acked', hmark', -, hkept⟩ := hend.safe.marked
  have hr' : r ∈ w'.appended := happ ▸ hr
  refine settled_of_acked hend hmark' hr' ?_
  rcases hkept r hr' with hack | hin
  · exact hack
  · exact acked_of_unshipped hend hpending hmark' hin

end Pass

/-- What holds after a run: every record is in the log or settled; what the sink received are
records, each once, and so are their ids in the order of delivery; and one pass settles the rest. -/
structure ExactlyOnce (c : Config) (rejectIds : PySet) (s : Courier) : Prop where
  kept : ∀ r ∈ s.shipping.world.appended,
    InFile s.shipping.world r ∨ Received s.sink r ∨ Refused rejectIds r.toJson
  genuine : ∀ v ∈ s.sink.received.map Prod.snd, ∃ r ∈ s.shipping.world.appended,
    r.toJson = v ∧ ¬ Refused rejectIds v
  once : s.sink.order.Nodup ∧ InOrder s.sink
  settles : s.shipping.thread = none → Working s.sink → ∀ batchSize, 0 < batchSize →
    ∃ t s', step c s (.run batchSize) = some t ∧ Runs.Reaches (step c) OnlyCalls t s' ∧
      s'.shipping.thread = none ∧ s'.shipping.world.appended = s.shipping.world.appended ∧
      ∀ r ∈ s.shipping.world.appended, Received s'.sink r ∨ Refused rejectIds r.toJson

/-- **Exactly once.** After every run of appends, passes, truncations and crashes, one call of the
shipper at a time, against an idempotent sink that goes down, fails and comes back at any moment: no
record is lost, none is received twice, and one undisturbed pass against a working sink delivers all
that it does not refuse. -/
theorem exactly_once (c : Config) (hattempts : 0 < c.maxAttempts) (rejectIds : PySet)
    (as : List Action) (s : Courier) (hm : Runs.Meets (step c) Admitted (init c rejectIds) as)
    (hrun : Runs.run (step c) (init c rejectIds) as = some s) : ExactlyOnce c rejectIds s := by
  have h := honest_run hm hrun
  refine ⟨fun r hr => ?_, fun v hv => ?_, ⟨?_, ?_⟩,
    fun ht hsink batchSize hb => pass_settles hattempts h ht hsink hb⟩
  · obtain ⟨acked, hmark, -, hkept⟩ := h.safe.marked
    rcases hkept r hr with hack | hin
    · exact .inr (settled_of_acked h hmark hr hack)
    · exact .inl hin.inFile
  · obtain ⟨p, hp, rfl⟩ := List.mem_map.mp hv
    obtain ⟨r, hr, hk, he, hno⟩ := h.sink.received p hp
    refine ⟨r, hr, he, ?_⟩
    rintro ⟨l, hl, hin⟩
    rw [← he, recordKey_toJson hk] at hl
    cases hl
    exact hno hin
  · have hids : (s.sink.ids.map some).Nodup := h.sink.once.map (Option.some_injective Key)
    rw [← h.sink.order.2] at hids
    exact hids.of_map _
  · exact h.sink.order.2

instance (s : Courier) (a : Action) : Decidable (Admitted s a) :=
  match a with
  | .append r => inferInstanceAs (Decidable (withinEightDigits.append s.shipping r))
  | .shipOnce _ | .truncate | .run _ | .call | .crash | .setUp _ | .setFailNext _ => isTrue trivial

/-- Calls of the shipper. -/
def calls (n : ℕ) : List Action := List.replicate n .call

/-- The sink takes two of three records and rejects one, and the process crashes before it writes
the watermark; the next one crashes while the sink is down, and a third one works to the end. -/
def interrupted : List Action :=
  List.flatten [
    [.append (recordOf "d"), .append (recordOf "e"), .append (recordOf "f"), .run 2], calls 15,
    [.crash, .setUp false, .run 2], calls 10,
    [.crash, .setUp true, .run 2], calls 40]

/-- The two are received once, though they are sent again. -/
theorem exactly_once_interrupted : ∃ s : Courier,
    Runs.run (step oneEach) (init oneEach (oneId "e")) interrupted = some s ∧
      s.sink.received.map Prod.snd = [(recordOf "d").toJson, (recordOf "f").toJson] ∧
      ExactlyOnce oneEach (oneId "e") s := by
  have hrun : (Runs.run (step oneEach) (init oneEach (oneId "e")) interrupted).map
      (fun s => s.sink.received.map Prod.snd) =
        some [(recordOf "d").toJson, (recordOf "f").toJson] := by decide +kernel
  obtain ⟨s, hs, hreceived⟩ := Option.map_eq_some_iff.mp hrun
  exact ⟨s, hs, hreceived,
    exactly_once oneEach (by decide) (oneId "e") interrupted s (by decide +kernel) hs⟩

end Courier
