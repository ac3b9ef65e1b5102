import PreauthGateway.Program.Dict
import PreauthGateway.Program.Machine
import PreauthGateway.Program.Returns
import PreauthGateway.Shipping.System

/-!
# The sink in memory

`MemorySink` keeps the records it accepted by their ids, and can be told to fail. It rejects a batch
at the first record whose id is in `rejectIds`, having accepted those before it; a record whose id
it already has is counted and, for an idempotent sink, changes nothing else.

A process without crashes appends records and runs passes of its shipper against such a sink, whose
failures are set between the passes. The sink remembers what it received, so the history of the
sends is not kept here.

## Main definitions

* `MemorySink`, `MemorySink.send`: the sink
* `Depot`, `Depot.answer`: the files and the process with its sink, and what the shipper's calls do
* `Depot.Action`, `Depot.step`: what happens between two passes, and the passes

## Main results

* `MemorySink.send_spec`: **what a send does to what was received**
-/

open Json

/-- The key that a record's `r.get("decision_id")` is in a dict. -/
def recordKey (r : Json) : Except PyError Key := do
  let i ← getDecisionId r
  hashKey i

theorem recordKey_toJson {r : JsonObject} {k : Key} (h : r.decisionId.key = some k) :
    recordKey r.toJson = .ok k := by
  have hhash : hashKey r.decisionId = .ok k := by rw [hashKey, h]
  exact hhash

/-- A sink in memory; `received` is keyed by the ids. -/
structure MemorySink where
  idempotent : Bool := true
  received : Dict Key Json := []
  order : List Json := []
  up : Bool := true
  failNext : ℤ := 0
  rejectIds : PySet := .empty
  duplicateDeliveries : ℕ := 0

namespace MemorySink

/-- The ids of what was received. -/
def ids (m : MemorySink) : List Key := m.received.map Prod.fst

/-- The loop of `send`. -/
def accept : List Json → MemorySink → Except PyError SendResult × MemorySink
  | [], m => (.ok .returned, m)
  | r :: rs, m =>
    match getDecisionId r with
    | .error e => (.error e, m)
    | .ok rid =>
      match hashKey rid with
      | .error e => (.error e, m)
      | .ok k =>
        if m.rejectIds.Mem k then (.ok .rejected, m)
        else if (m.received.get? k).isSome then
          accept rs { m with
            duplicateDeliveries := m.duplicateDeliveries + 1
            order := if m.idempotent then m.order else m.order ++ [rid] }
        else accept rs { m with received := m.received.set k r, order := m.order ++ [rid] }

/-- `send`: it returns, or raises `SinkError` or `SinkRejected`. -/
def send (batch : List Json) (m : MemorySink) : Except PyError SendResult × MemorySink :=
  if ¬ m.up then (.ok .error, m)
  else if 0 < m.failNext then (.ok .error, { m with failNext := m.failNext - 1 })
  else m.accept batch

section Send

variable {m m' : MemorySink} {rs : List JsonObject} {result : SendResult}

/-- What sending `rs` can do to what was received: it stays, and records of `rs` are added that are
not rejected. -/
structure Grown (rs : List JsonObject) (m m' : MemorySink) : Prop where
  rejectIds : m'.rejectIds = m.rejectIds
  old : ∀ k ∈ m.ids, k ∈ m'.ids
  new : ∀ p ∈ m'.received, p ∈ m.received ∨
    ∃ r ∈ rs, r.decisionId.key = some p.1 ∧ r.toJson = p.2 ∧ ¬ m.rejectIds.Mem p.1
  once : m.ids.Nodup → m'.ids.Nodup

theorem grown_refl (rs : List JsonObject) (m : MemorySink) : Grown rs m m :=
  ⟨rfl, fun _ hk => hk, fun _ hp => Or.inl hp, id⟩

/-- The same with other settings and counters. -/
theorem grown_of_received (hr : m'.rejectIds = m.rejectIds) (h : m'.received = m.received) :
    Grown rs m m' := by
  refine ⟨hr, ?_, ?_, ?_⟩
  · rw [ids, ids, h]
    exact fun _ hk => hk
  · rw [h]
    exact fun _ hp => Or.inl hp
  · rw [ids, ids, h]
    exact id

/-- One record, and then the others. -/
theorem Grown.cons {r : JsonObject} {m₁ : MemorySink} (h : Grown [r] m m₁) (h' : Grown rs m₁ m') :
    Grown (r :: rs) m m' := by
  refine ⟨h'.rejectIds.trans h.rejectIds, fun k hk => h'.old k (h.old k hk), ?_,
    fun hn => h'.once (h.once hn)⟩
  intro p hp
  rcases h'.new p hp with hp | ⟨x, hx, hxk, hxv, hno⟩
  · rcases h.new p hp with hp | ⟨x, hx, hxk, hxv, hno⟩
    · exact Or.inl hp
    · rw [List.mem_singleton.mp hx] at hxk hxv
      exact Or.inr ⟨r, List.mem_cons_self, hxk, hxv, hno⟩
  · rw [h.rejectIds] at hno
    exact Or.inr ⟨x, List.mem_cons_of_mem _ hx, hxk, hxv, hno⟩

/-- The loop over a batch whose ids can be hashed. -/
theorem accept_spec (hh : ∀ r ∈ rs, r.Hashable) (m : MemorySink) :
    ∃ result m', m.accept (rs.map JsonObject.toJson) = (.ok result, m') ∧ Grown rs m m' ∧
      (result = .returned → ∀ r ∈ rs, ∀ k, r.decisionId.key = some k →
        k ∈ m'.ids) ∧
      (result = .rejected → ∃ r ∈ rs, ∃ k, r.decisionId.key = some k ∧ m.rejectIds.Mem k) := by
  induction rs generalizing m with
  | nil =>
    refine ⟨.returned, m, rfl, grown_refl [] m, ?_, ?_⟩
    · intro _ r hr
      cases hr
    · intro h
      cases h
  | cons r rs ih =>
    obtain ⟨k, hk⟩ := Option.ne_none_iff_exists'.mp (hh r List.mem_cons_self)
    have hhash : hashKey r.decisionId = .ok k := by rw [hashKey, hk]
    have hnext (m₁ : MemorySink) (h₁ : Grown [r] m m₁) (hin : k ∈ m₁.ids) :
        ∃ result m', m₁.accept (rs.map JsonObject.toJson) = (.ok result, m') ∧
          Grown (r :: rs) m m' ∧
          (result = .returned → ∀ x ∈ r :: rs, ∀ l, x.decisionId.key = some l →
            l ∈ m'.ids) ∧
          (result = .rejected → ∃ x ∈ r :: rs, ∃ l, x.decisionId.key = some l ∧
            m.rejectIds.Mem l) := by
      obtain ⟨result, m', he, hg, hret, hrej⟩ := ih (fun x hx => hh x (List.mem_cons_of_mem _ hx)) m₁
      refine ⟨result, m', he, h₁.cons hg, ?_, ?_⟩
      · intro e x hx l hl
        rcases List.mem_cons.mp hx with rfl | hx
        · rw [hk, Option.some.injEq] at hl
          rw [← hl]
          exact hg.old k hin
        · exact hret e x hx l hl
      · intro e
        obtain ⟨x, hx, l, hl, hlm⟩ := hrej e
        rw [h₁.rejectIds] at hlm
        exact ⟨x, List.mem_cons_of_mem _ hx, l, hl, hlm⟩
    rw [List.map_cons, accept, JsonObject.getDecisionId_toJson]
    dsimp only
    rw [hhash]
    dsimp only
    split
    · rename_i hrej
      refine ⟨.rejected, m, rfl, grown_refl _ m, ?_, ?_⟩
      · intro h
        cases h
      · exact fun _ => ⟨r, List.mem_cons_self, k, hk, hrej⟩
    rename_i hno
    split
    · rename_i hin
      apply hnext
      · exact grown_of_received rfl rfl
      · by_contra hout
        rw [Dict.get?_eq_none.mpr hout] at hin
        cases hin
    · rename_i hout
      apply hnext
      · refine ⟨rfl, ?_, ?_, fun hn => Dict.nodup_set hn _ _⟩
        · intro l hl
          exact Dict.mem_map_fst_set.mpr (Or.inr hl)
        · intro p hp
          rcases Dict.mem_set hp with rfl | hp
          · exact Or.inr ⟨r, List.mem_cons_self, hk, rfl, hno⟩
          · exact Or.inl hp
      · exact Dict.mem_map_fst_set.mpr (Or.inl rfl)

/-- **What a send does to what was received**: whatever it answers, only records of the batch that
are not rejected are added; when it returns all of the batch is there, and when it rejects the batch
one of its records is rejected. -/
theorem send_spec (hh : ∀ r ∈ rs, r.Hashable) (m : MemorySink) :
    ∃ result m', m.send (rs.map JsonObject.toJson) = (.ok result, m') ∧ Grown rs m m' ∧
      (result = .returned → ∀ r ∈ rs, ∀ k, r.decisionId.key = some k →
        k ∈ m'.ids) ∧
      (result = .rejected → ∃ r ∈ rs, ∃ k, r.decisionId.key = some k ∧ m.rejectIds.Mem k) := by
  have herror (m' : MemorySink) (hr : m'.rejectIds = m.rejectIds) (h : m'.received = m.received) :
      Grown rs m m' ∧
      (SendResult.error = .returned → ∀ r ∈ rs, ∀ k, r.decisionId.key = some k →
        k ∈ m'.ids) ∧
      (SendResult.error = .rejected →
        ∃ r ∈ rs, ∃ k, r.decisionId.key = some k ∧ m.rejectIds.Mem k) :=
    ⟨grown_of_received hr h, by simp, by simp⟩
  rw [send]
  split
  · exact ⟨.error, m, rfl, herror m rfl rfl⟩
  split
  · exact ⟨.error, _, rfl, herror _ rfl rfl⟩
  · exact accept_spec hh m

end Send

end MemorySink

/-! ## A process with its sink -/

/-- The files and the process, and the sink that its shipper sends to. -/
structure Depot where
  world : World
  sink : MemorySink

namespace Depot

/-- What a call of the shipper returns and does; `MemorySink.send` may raise other exceptions than
the two the shipper catches. -/
def answer : (o : Call) → Depot → Except PyError o.Answer × Depot
  | .send batch, d => ((d.sink.send batch).1, { d with sink := (d.sink.send batch).2 })
  | o, d => (.ok (handle o { result := .returned } d.world).1,
      { d with world := (handle o { result := .returned } d.world).2 })

inductive Action
  | append (r : JsonObject)
  | run (batchSize : ℕ)
  | setUp (up : Bool)
  | setFailNext (n : ℤ)

/-- One step, and what `run` returns. -/
def step (c : Shipping.Config) (d : Depot) :
    Action → Option (Except PyError (ℕ × ℕ × ℕ)) × Depot
  | .append r => (none, { d with world := d.world.append r })
  | .run batchSize =>
    let (report, d) := Prog.attempt answer (Shipper.run c.maxAttempts batchSize) d
    (some report, d)
  | .setUp up => (none, { d with sink := { d.sink with up } })
  | .setFailNext n => (none, { d with sink := { d.sink with failNext := n } })

/-- A first process, on an empty directory, with a sink that rejects `rejectIds`. -/
def init (c : Shipping.Config) (rejectIds : PySet) : Depot where
  world := (Shipping.init c).world
  sink := { rejectIds }

end Depot
