import PreauthGateway.Shipping.Contents
import PreauthGateway.Shipping.CrashSafety
import PreauthGateway.Shipping.MemorySink
import PreauthGateway.Shipping.ShipOnce
import PreauthGateway.Wal.Durable

/-!
# What a process without crashes has delivered

Every id that the watermark acknowledges was received by the sink or is in the poison list, and a
record is sent only while its id is not acknowledged. So no record is poisoned twice, none is both
received and poisoned, and once nothing is left to ship the two together are all that was appended.

A pass tells what it settled to the watermark only at its end. In between, the ids that it has
collected take the place of the acknowledged ones.

## Main definitions

* `Depot.Accounts`: what the sink, the poison list and the watermark have of the records
* `Depot.Tally`: the invariant, for the ids that are done with
* `Depot.Midway`, `Depot.Shelf`: the invariant in the middle of a pass, and between two

## Main results

* `Depot.returns_shipOnce`, `Depot.returns_truncate`: **a pass returns and keeps the invariant**
* `Depot.accounts_of_run`: **the accounts are in order after every run**
-/

open Json Prog
open Shipping (Marked Fresh)

namespace Depot

/-- The ids of the poison list. -/
def poisonKeys (s : World) : List (Except PyError Key) := s.poison.map recordKey

/-- What the sink, the poison list and the watermark have of the records that were appended. -/
structure Accounts (rejectIds : PySet) (d : Depot) : Prop where
  apart : ∀ k ∈ d.sink.ids, .ok k ∉ poisonKeys d.world
  once : (poisonKeys d.world).Nodup
  rejected : ∀ p ∈ poisonKeys d.world, ∃ k, p = .ok k ∧ rejectIds.Mem k
  marked : ∃ acked, Marked acked d.world ∧
    ∀ k, acked.Mem k → k ∈ d.sink.ids ∨ .ok k ∈ poisonKeys d.world
  same : ∀ k v, d.sink.received.get? k = some v →
    ∃ r ∈ d.world.appended, r.decisionId.key = some k ∧ r.toJson = v
  total : (Prog.attempt answer Shipper.unshipped d).1 = .ok [] →
    (∀ k, (k ∈ d.sink.ids ∨ .ok k ∈ poisonKeys d.world) ↔
      ∃ r ∈ d.world.appended, r.decisionId.key = some k) ∧
    d.sink.received.length + d.world.stats.poisoned = d.world.appended.length

/-- The record has a string id. -/
def Named (r : JsonObject) : Prop := ∃ x, r.decisionId = .str x

theorem Named.hashable {r : JsonObject} (h : Named r) : r.Hashable := by
  obtain ⟨x, hx⟩ := h
  rw [JsonObject.Hashable, hx]
  exact Option.some_ne_none _

theorem Named.item {r : JsonObject} (h : Named r) : itemDecisionId r.toJson = .ok r.decisionId := by
  obtain ⟨x, hx⟩ := h
  rw [JsonObject.toJson, itemDecisionId]
  rw [JsonObject.decisionId, JsonObject.get?] at hx ⊢
  cases hg : Json.get? decisionIdKey r.members with
  | none =>
    rw [hg] at hx
    cases hx
  | some v => rfl

theorem itemDecisionIds_named {rs : List JsonObject} (h : ∀ r ∈ rs, Named r) :
    itemDecisionIds (rs.map JsonObject.toJson) = .ok (rs.map JsonObject.decisionId) := by
  induction rs with
  | nil => rfl
  | cons r rs ih =>
    rw [List.map_cons, itemDecisionIds, (h r List.mem_cons_self).item,
      ih fun x hx => h x (List.mem_cons_of_mem _ hx)]
    rfl

/-! ## The tally -/

/-- The invariant, for the ids `done` that are not to be sent again: each of them was received or is
in the poison list, which has no others and has none twice. -/
structure Tally (rejectIds : PySet) (done : Key → Prop) (d : Depot) : Prop where
  rejects : d.sink.rejectIds = rejectIds
  once : (poisonKeys d.world).Nodup
  poisoned : ∀ v ∈ d.world.poison, ∃ r ∈ d.world.appended, r.toJson = v ∧
    ∃ k, r.decisionId.key = some k ∧ rejectIds.Mem k ∧ done k
  counted : d.world.stats.poisoned = d.world.poison.length
  receivedOnce : d.sink.ids.Nodup
  received : ∀ p ∈ d.sink.received, ¬ rejectIds.Mem p.1 ∧
    ∃ r ∈ d.world.appended, r.decisionId.key = some p.1 ∧ r.toJson = p.2
  settled : ∀ k, done k → k ∈ d.sink.ids ∨ .ok k ∈ poisonKeys d.world

namespace Tally

variable {rejectIds : PySet} {done done' : Key → Prop} {d d' : Depot}

/-- Every id of the poison list is rejected, and done with. -/
theorem of_mem_poisonKeys (h : Tally rejectIds done d) {p : Except PyError Key}
    (hp : p ∈ poisonKeys d.world) : ∃ k, p = .ok k ∧ rejectIds.Mem k ∧ done k ∧
      ∃ r ∈ d.world.appended, r.decisionId.key = some k := by
  obtain ⟨v, hv, rfl⟩ := List.mem_map.mp hp
  obtain ⟨r, hr, rfl, k, hk, hrej, hdone⟩ := h.poisoned v hv
  exact ⟨k, recordKey_toJson hk, hrej, hdone, r, hr, hk⟩

theorem of_mem_ids (h : Tally rejectIds done d) {k : Key} (hk : k ∈ d.sink.ids) :
    ¬ rejectIds.Mem k ∧ ∃ r ∈ d.world.appended, r.decisionId.key = some k := by
  obtain ⟨p, hp, rfl⟩ := List.mem_map.mp hk
  obtain ⟨hno, r, hr, hrk, -⟩ := h.received p hp
  exact ⟨hno, r, hr, hrk⟩

/-- What is done with was appended. -/
theorem appended_of_done (h : Tally rejectIds done d) {k : Key} (hk : done k) :
    ∃ r ∈ d.world.appended, r.decisionId.key = some k := by
  rcases h.settled k hk with hin | hin
  · exact (h.of_mem_ids hin).2
  · obtain ⟨l, hl, -, -, hr⟩ := h.of_mem_poisonKeys hin
    cases hl
    exact hr

/-- What changes neither the poison list nor the sink keeps the tally. -/
theorem of_world (h : Tally rejectIds done d) (hsink : d'.sink = d.sink)
    (hpois : d'.world.poison = d.world.poison)
    (hstats : d'.world.stats.poisoned = d.world.stats.poisoned)
    (happ : ∀ r ∈ d.world.appended, r ∈ d'.world.appended) : Tally rejectIds done d' := by
  have hkeys : poisonKeys d'.world = poisonKeys d.world := by rw [poisonKeys, hpois]; rfl
  refine ⟨hsink ▸ h.rejects, hkeys ▸ h.once, ?_, ?_, hsink ▸ h.receivedOnce, ?_, ?_⟩
  · intro v hv
    rw [hpois] at hv
    obtain ⟨r, hr, hrest⟩ := h.poisoned v hv
    exact ⟨r, happ r hr, hrest⟩
  · rw [hstats, hpois]
    exact h.counted
  · intro p hp
    rw [hsink] at hp
    obtain ⟨hno, r, hr, hrest⟩ := h.received p hp
    exact ⟨hno, r, happ r hr, hrest⟩
  · rw [hsink, hkeys]
    exact h.settled

/-- More ids are done with, all of them received or among the old ones. -/
theorem of_received (h : Tally rejectIds done d) (hold : ∀ k, done k → done' k)
    (hnew : ∀ k, done' k → done k ∨ k ∈ d.sink.ids) : Tally rejectIds done' d := by
  refine ⟨h.rejects, h.once, ?_, h.counted, h.receivedOnce, h.received, ?_⟩
  · intro v hv
    obtain ⟨r, hr, hrv, k, hk, hrej, hdone⟩ := h.poisoned v hv
    exact ⟨r, hr, hrv, k, hk, hrej, hold k hdone⟩
  · intro k hk
    exact (hnew k hk).elim (h.settled k) Or.inl

/-- Records of the log are sent. -/
theorem send (h : Tally rejectIds done d) {rs : List JsonObject} {m : MemorySink}
    (hg : MemorySink.Grown rs d.sink m) (hrs : ∀ r ∈ rs, r ∈ d.world.appended) :
    Tally rejectIds done { d with sink := m } := by
  refine ⟨hg.rejectIds.trans h.rejects, h.once, h.poisoned, h.counted, hg.once h.receivedOnce, ?_,
    fun k hk => (h.settled k hk).imp (hg.old k) id⟩
  intro p hp
  rcases hg.new p hp with hp | ⟨r, hr, hk, hv, hno⟩
  · exact h.received p hp
  · rw [h.rejects] at hno
    exact ⟨hno, r, hrs r hr, hk, hv⟩

/-- A record that was not done with is put in the poison list. -/
theorem poison (h : Tally rejectIds done d) {r : JsonObject} {k : Key} {st : ShipperStats}
    (hr : r ∈ d.world.appended) (hk : r.decisionId.key = some k) (hrej : rejectIds.Mem k)
    (hnew : ¬ done k) (hst : st.poisoned = d.world.stats.poisoned + 1)
    (hdone : ∀ l, done' l ↔ done l ∨ l = k) :
    Tally rejectIds done'
      { d with world := { d.world with poison := d.world.poison ++ [r.toJson], stats := st } } := by
  have hkeys (s : World) (hs : s.poison = d.world.poison ++ [r.toJson]) :
      poisonKeys s = poisonKeys d.world ++ [.ok k] := by
    rw [poisonKeys, hs, List.map_append, List.map_singleton, recordKey_toJson hk]
    rfl
  refine ⟨h.rejects, ?_, ?_, ?_, h.receivedOnce, h.received, ?_⟩
  · rw [hkeys _ rfl, List.nodup_append]
    refine ⟨h.once, List.nodup_singleton _, ?_⟩
    rintro p hp q hq rfl
    rw [List.mem_singleton.mp hq] at hp
    obtain ⟨l, hl, -, hdl, -⟩ := h.of_mem_poisonKeys hp
    cases hl
    exact hnew hdl
  · intro v hv
    rcases List.mem_append.mp hv with hv | hv
    · obtain ⟨x, hx, hxv, l, hl, hlrej, hld⟩ := h.poisoned v hv
      exact ⟨x, hx, hxv, l, hl, hlrej, (hdone l).mpr (Or.inl hld)⟩
    · exact ⟨r, hr, (List.mem_singleton.mp hv).symm, k, hk, hrej, (hdone k).mpr (Or.inr rfl)⟩
  · rw [hst, h.counted, List.length_append, List.length_singleton]
  · intro l hl
    rw [hkeys _ rfl]
    rcases (hdone l).mp hl with hl | rfl
    · exact (h.settled l hl).imp id (List.mem_append_left _)
    · exact Or.inr (List.mem_append_right _ (List.mem_singleton_self _))

end Tally

/-! ## A pass -/

/-- The ids that a pass has acknowledged or will. -/
def Done (acked : PySet) (newly : List Json) (k : Key) : Prop :=
  acked.Mem k ∨ ∃ i ∈ newly, i.key = some k

theorem done_nil {acked : PySet} {k : Key} : Done acked [] k ↔ acked.Mem k := by simp [Done]

theorem done_append {acked : PySet} {newly is : List Json} {k : Key} :
    Done acked (newly ++ is) k ↔ Done acked newly k ∨ ∃ i ∈ is, i.key = some k := by
  simp only [Done, List.mem_append, or_and_right, exists_or, or_assoc]

/-- In the middle of a pass that started in `w`: the ids `newly` are collected, and the records
`rest` are still to be sent. -/
structure Midway (rejectIds : PySet) (w : World) (acked : PySet) (newly : List Json)
    (rest : List JsonObject) (d : Depot) : Prop where
  tally : Tally rejectIds (Done acked newly) d
  wal : d.world.wal = w.wal
  watermark : d.world.watermark = w.watermark
  appended : d.world.appended = w.appended
  waiting : ∀ r ∈ rest, r ∈ w.appended ∧ ∃ k, r.decisionId.key = some k ∧ ¬ Done acked newly k
  distinct : DistinctIds rest
  ids : ∀ i ∈ newly, ∃ r ∈ w.appended, r.decisionId = i

namespace Midway

variable {rejectIds : PySet} {w : World} {acked : PySet} {newly : List Json}
  {rs rest : List JsonObject} {d : Depot}

/-- Records may be left to the next pass. -/
theorem drop (h : Midway rejectIds w acked newly (rs ++ rest) d) :
    Midway rejectIds w acked newly rest d := by
  refine ⟨h.tally, h.wal, h.watermark, h.appended, ?_, ?_, h.ids⟩
  · intro r hr
    exact h.waiting r (List.mem_append_right _ hr)
  · have hd := h.distinct
    rw [DistinctIds, List.map_append] at hd
    exact (List.nodup_append.mp hd).2.1

/-- The ids of records that are sent are not those of the others. -/
theorem key_ne (h : Midway rejectIds w acked newly (rs ++ rest) d) {r r' : JsonObject} (hr : r ∈ rs)
    (hr' : r' ∈ rest) : r.decisionId.key ≠ r'.decisionId.key := by
  have hd := h.distinct
  rw [DistinctIds, List.map_append] at hd
  exact (List.nodup_append.mp hd).2.2 _ (List.mem_map_of_mem hr) _ (List.mem_map_of_mem hr')

theorem count (h : Midway rejectIds w acked newly rest d) {c : Counter} (hc : c ≠ .poisoned) (n : ℕ) :
    Midway rejectIds w acked newly rest
      { d with world := { d.world with stats := d.world.stats.add n c } } := by
  refine ⟨h.tally.of_world rfl rfl ?_ fun _ hr => hr, h.wal, h.watermark, h.appended, h.waiting,
    h.distinct, h.ids⟩
  cases c
  case poisoned => exact absurd rfl hc
  all_goals rfl

theorem send (h : Midway rejectIds w acked newly rest d) {m : MemorySink}
    (hg : MemorySink.Grown rs d.sink m) (hrs : ∀ r ∈ rs, r ∈ w.appended) :
    Midway rejectIds w acked newly rest { d with sink := m } := by
  refine ⟨h.tally.send hg ?_, h.wal, h.watermark, h.appended, h.waiting, h.distinct, h.ids⟩
  rw [h.appended]
  exact hrs

/-- What is left waiting when the ids of `rs` are collected. -/
theorem waiting_of_append (h : Midway rejectIds w acked newly (rs ++ rest) d) {r : JsonObject}
    (hr : r ∈ rest) : r ∈ w.appended ∧ ∃ k, r.decisionId.key = some k ∧
      ¬ Done acked (newly ++ rs.map JsonObject.decisionId) k := by
  obtain ⟨happ, k, hk, hno⟩ := h.waiting r (List.mem_append_right _ hr)
  refine ⟨happ, k, hk, ?_⟩
  rw [done_append]
  rintro (hdone | ⟨i, hi, hik⟩)
  · exact hno hdone
  · obtain ⟨x, hx, rfl⟩ := List.mem_map.mp hi
    exact h.key_ne hx hr (hik.trans hk.symm)

theorem ids_append (h : Midway rejectIds w acked newly (rs ++ rest) d) :
    ∀ i ∈ newly ++ rs.map JsonObject.decisionId, ∃ r ∈ w.appended, r.decisionId = i := by
  intro i hi
  rcases List.mem_append.mp hi with hi | hi
  · exact h.ids i hi
  · obtain ⟨x, hx, rfl⟩ := List.mem_map.mp hi
    exact ⟨x, (h.waiting x (List.mem_append_left _ hx)).1, rfl⟩

/-- Records that the sink has are collected. -/
theorem accept (h : Midway rejectIds w acked newly (rs ++ rest) d)
    (hin : ∀ r ∈ rs, ∀ k, r.decisionId.key = some k → k ∈ d.sink.ids) :
    Midway rejectIds w acked (newly ++ rs.map JsonObject.decisionId) rest d := by
  refine ⟨?_, h.wal, h.watermark, h.appended, fun r hr => h.waiting_of_append hr, h.drop.distinct,
    h.ids_append⟩
  apply h.tally.of_received
  · intro k hk
    exact done_append.mpr (Or.inl hk)
  · intro k hk
    rcases done_append.mp hk with hk | ⟨i, hi, hik⟩
    · exact Or.inl hk
    · obtain ⟨x, hx, rfl⟩ := List.mem_map.mp hi
      exact Or.inr (hin x hx k hik)

/-- A rejected record is put in the poison list, counted and collected. -/
theorem poison {r : JsonObject} (h : Midway rejectIds w acked newly ([r] ++ rest) d)
    (hrej : ∃ k, r.decisionId.key = some k ∧ rejectIds.Mem k) :
    Midway rejectIds w acked (newly ++ [r.decisionId]) rest
      { d with world := { d.world with
          poison := d.world.poison ++ [r.toJson]
          stats := d.world.stats.add 1 .poisoned } } := by
  obtain ⟨k, hk, hkrej⟩ := hrej
  obtain ⟨happ, l, hl, hno⟩ := h.waiting r (List.mem_append_left _ (List.mem_singleton_self r))
  obtain rfl : k = l := Option.some.inj (hk.symm.trans hl)
  refine ⟨?_, h.wal, h.watermark, h.appended, fun x hx => h.waiting_of_append hx, h.drop.distinct,
    h.ids_append⟩
  apply h.tally.poison (h.appended ▸ happ) hk hkrej hno rfl
  intro j
  rw [done_append]
  apply or_congr_right
  constructor
  · rintro ⟨i, hi, hij⟩
    rw [List.mem_singleton.mp hi, hk] at hij
    exact (Option.some.inj hij).symm
  · rintro rfl
    exact ⟨_, List.mem_singleton_self _, hk⟩

end Midway

/-- After a pass that started in `w`: the watermark has the ids that are done with. -/
structure Passed (rejectIds : PySet) (w : World) (acked acked' : PySet) (d : Depot) : Prop where
  tally : Tally rejectIds acked'.Mem d
  marked : Marked acked' d.world
  old : ∀ k, acked.Mem k → acked'.Mem k
  wal : d.world.wal = w.wal
  appended : d.world.appended = w.appended

theorem Passed.count {rejectIds : PySet} {w : World} {acked acked' : PySet} {d : Depot}
    (h : Passed rejectIds w acked acked' d)
    {c : Counter} (hc : c ≠ .poisoned) (n : ℕ) : Passed rejectIds w acked acked'
      { d with world := { d.world with stats := d.world.stats.add n c } } := by
  refine ⟨h.tally.of_world rfl rfl ?_ fun _ hr => hr, h.marked, h.old, h.wal, h.appended⟩
  cases c
  case poisoned => exact absurd rfl hc
  all_goals rfl

section Pass

variable {rejectIds : PySet} {w : World} {acked : PySet} (named : ∀ r ∈ w.appended, Named r)

include named

/-- A send, and what is known from its outcome. -/
theorem returns_send (rs rest : List JsonObject) (newly : List Json) :
    Returns answer (Midway rejectIds w acked newly (rs ++ rest))
      (ask (.send (rs.map JsonObject.toJson))) fun result d =>
        Midway rejectIds w acked newly (rs ++ rest) d ∧
        (result = .returned → ∀ r ∈ rs, ∀ k, r.decisionId.key = some k → k ∈ d.sink.ids) ∧
        (result = .rejected → ∃ r ∈ rs, ∃ k, r.decisionId.key = some k ∧ rejectIds.Mem k) := by
  apply Returns.perform
  intro d hd
  have hrs : ∀ r ∈ rs, r ∈ w.appended := fun r hr => (hd.waiting r (List.mem_append_left _ hr)).1
  obtain ⟨result, m, hsend, hg, hret, hrej⟩ :=
    MemorySink.send_spec (fun r hr => (named r (hrs r hr)).hashable) d.sink
  refine ⟨result, { d with sink := m }, ?_, hd.send hg hrs, hret, ?_⟩
  · rw [answer, hsend]
  · intro e
    rw [← hd.tally.rejects]
    exact hrej e

/-- The records of a rejected batch, one at a time. -/
theorem returns_sendEach (rs rest : List JsonObject) (newly : List Json) :
    Returns answer (Midway rejectIds w acked newly (rs ++ rest))
      (Shipper.sendEach (rs.map JsonObject.toJson) newly)
      fun newly' => Midway rejectIds w acked newly' rest := by
  induction rs generalizing newly with
  | nil => exact Returns.ret fun _ hd => hd
  | cons r rs ih =>
    rw [List.map_cons, Shipper.sendEach]
    apply Returns.bind (returns_send named [r] (rs ++ rest) newly)
    intro result
    cases result with
    | returned =>
      apply Returns.bind (Ψ := fun i d => i = r.decisionId ∧
        Midway rejectIds w acked (newly ++ [r.decisionId]) (rs ++ rest) d)
      · apply Returns.ofExcept
        rintro d ⟨hd, hret, -⟩
        have hr := named r (hd.waiting r (List.mem_append_left _ (List.mem_singleton_self r))).1
        exact ⟨_, hr.item, rfl, hd.accept (hret rfl)⟩
      · intro i
        apply Returns.of_fact
        rintro rfl
        exact ih _
    | rejected =>
      -- the record is in the poison list before it is counted
      apply Returns.bind (Ψ := fun _ d => ∃ d₀ : Depot,
        (Midway rejectIds w acked newly ([r] ++ (rs ++ rest)) d₀ ∧
          ∃ k, r.decisionId.key = some k ∧ rejectIds.Mem k) ∧
        d = { d₀ with world := { d₀.world with poison := d₀.world.poison ++ [r.toJson] } })
      · apply Returns.perform
        rintro d ⟨hd, -, hrej⟩
        obtain ⟨x, hx, k, hk, hkrej⟩ := hrej rfl
        rw [List.mem_singleton.mp hx] at hk
        exact ⟨(), _, rfl, d, ⟨hd, k, hk, hkrej⟩, rfl⟩
      · intro _
        apply Returns.bind (Ψ := fun _ d => Named r ∧
          Midway rejectIds w acked (newly ++ [r.decisionId]) (rs ++ rest) d)
        · apply Returns.perform
          rintro _ ⟨d, ⟨hd, hrej⟩, rfl⟩
          have hr := named r (hd.waiting r (List.mem_append_left _ (List.mem_singleton_self r))).1
          exact ⟨(), _, rfl, hr, hd.poison hrej⟩
        · intro _
          apply Returns.of_fact
          intro hr
          rw [hr.item]
          exact ih _
    | error =>
      apply (ih newly).conseq
      · rintro d ⟨hd, -⟩
        exact hd.drop
      · exact fun _ _ hd => hd

/-- The attempts to send one batch. -/
theorem returns_sendBatch (rs rest : List JsonObject) (attempts : ℕ) (newly : List Json) :
    Returns answer (Midway rejectIds w acked newly (rs ++ rest))
      (Shipper.sendBatch (rs.map JsonObject.toJson) attempts newly)
      fun newly' => Midway rejectIds w acked newly' rest := by
  induction attempts with
  | zero => exact Returns.ret fun _ hd => hd.drop
  | succ attempts ih =>
    rw [Shipper.sendBatch]
    apply Returns.bind (returns_send named rs rest newly)
    intro result
    cases result with
    | returned =>
      apply Returns.bind (Ψ := fun is d => is = rs.map JsonObject.decisionId ∧
        Midway rejectIds w acked (newly ++ rs.map JsonObject.decisionId) rest d)
      · apply Returns.ofExcept
        rintro d ⟨hd, hret, -⟩
        have hrs : ∀ r ∈ rs, Named r :=
          fun r hr => named r (hd.waiting r (List.mem_append_left _ hr)).1
        exact ⟨_, itemDecisionIds_named hrs, rfl, hd.accept (hret rfl)⟩
      · intro is
        apply Returns.of_fact
        rintro rfl
        exact Returns.ret fun _ hd => hd
    | rejected =>
      apply (returns_sendEach named rs rest newly).conseq
      · rintro d ⟨hd, -⟩
        exact hd
      · exact fun _ _ hd => hd
    | error =>
      apply Returns.bind (Ψ := fun _ => Midway rejectIds w acked newly (rs ++ rest))
      · apply Returns.perform
        rintro d ⟨hd, -⟩
        exact ⟨(), _, rfl, hd.count (by decide) 1⟩
      · exact fun _ => ih

/-- The loop over the batches. -/
theorem returns_sendBatches (maxAttempts : ℕ) (bs : List (List JsonObject)) (newly : List Json) :
    Returns answer (Midway rejectIds w acked newly bs.flatten)
      (Shipper.sendBatches maxAttempts (bs.map (List.map JsonObject.toJson)) newly)
      fun newly' => Midway rejectIds w acked newly' [] := by
  induction bs generalizing newly with
  | nil => exact Returns.ret fun _ hd => hd
  | cons b bs ih =>
    rw [List.map_cons, Shipper.sendBatches, List.flatten_cons]
    apply Returns.bind (Ψ := fun _ => Midway rejectIds w acked newly (b ++ bs.flatten))
    · apply Returns.perform
      intro d hd
      exact ⟨(), _, rfl, hd.count (by decide) 1⟩
    · intro _
      apply Returns.bind (returns_sendBatch named b bs.flatten maxAttempts newly)
      exact ih

/-! ## The end of a pass -/

/-- The ids that were collected make a set with those of the watermark, which can be written and is
read back. -/
theorem exists_payload (hm : Marked acked w) {newly : List Json} {d : Depot}
    (h : Midway rejectIds w acked newly [] d) :
    ∃ ids b acked', Watermark.setOf newly = .ok ids ∧
      Watermark.payload (acked.union ids) = .ok b ∧ Watermark.read (some b) = .ok acked' ∧
      ∀ k, acked'.Mem k ↔ Done acked newly k := by
  have hkeys : ∀ i ∈ newly, i.key ≠ none := by
    intro i hi
    obtain ⟨r, hr, rfl⟩ := h.ids i hi
    exact (named r hr).hashable
  obtain ⟨ids, hids⟩ := PySet.exists_ofList hkeys
  have hunion (k : Key) : (acked.union ids).Mem k ↔ Done acked newly k := by
    rw [PySet.mem_union, PySet.mem_ofList hids]
    rfl
  have hstr (k : Key) (hk : (acked.union ids).Mem k) : k.kind = .str := by
    obtain ⟨r, hr, hrk⟩ := h.tally.appended_of_done ((hunion k).mp hk)
    rw [h.appended] at hr
    obtain ⟨x, hx⟩ := named r hr
    rw [hx, key_str, Option.some.injEq] at hrk
    rw [← hrk]
    rfl
  obtain ⟨b, hb⟩ := (Watermark.exists_payload_iff (acked.union ids)).mpr fun j k hj hk =>
    (hstr j hj).trans (hstr k hk).symm
  have hvalid : ∀ v ∈ (acked.union ids).elems, v.Valid := by
    intro v hv
    rcases PySet.elems_union hv with hv | hv
    · exact Watermark.read_valid hm v hv
    · obtain ⟨r, -, rfl⟩ := h.ids v (PySet.elems_ofList hids v hv)
      exact r.decisionId_valid
  obtain ⟨acked', hread, hmem, -⟩ := Watermark.read_payload hvalid hb
  refine ⟨ids, b, acked', by rw [Watermark.setOf, hids], hb, hread, ?_⟩
  intro k
  rw [hmem, hunion]

/-- **The ids that were collected come into the watermark.** -/
theorem returns_acknowledge (hm : Marked acked w) (newly : List Json) :
    Returns answer (Midway rejectIds w acked newly []) (Shipper.acknowledge acked newly)
      fun _ d => ∃ acked', Passed rejectIds w acked acked' d := by
  rw [Shipper.acknowledge]
  split
  · rename_i h0
    subst h0
    apply Returns.ret
    intro d hd
    refine ⟨acked, hd.tally.of_received ?_ ?_, ?_, fun _ hk => hk, hd.wal, hd.appended⟩
    · exact fun k hk => done_nil.mp hk
    · exact fun k hk => Or.inl (done_nil.mpr hk)
    · rw [Marked, hd.watermark]
      exact hm
  intro d hd
  obtain ⟨ids, b, acked', hset, hpay, hread, hmem⟩ := exists_payload named hm hd
  have hpassed : Passed rejectIds w acked acked'
      { d with world := { d.world with
          watermark := some b, tmp := none, writes := d.world.writes ++ [(b, d.world.poison)] } } := by
    refine ⟨?_, hread, fun k hk => (hmem k).mpr (Or.inl hk), hd.wal, hd.appended⟩
    refine Tally.of_received (hd.tally.of_world rfl rfl rfl fun _ hr => hr) ?_ ?_
    · exact fun k hk => (hmem k).mpr hk
    · exact fun k hk => Or.inl ((hmem k).mp hk)
  refine ⟨newly.length, _, ?_, acked', (hpassed.count (c := .watermarkWrites) (by decide) 1).count
    (c := .shipped) (by decide) newly.length⟩
  rw [hset]
  show Prog.attempt answer (Shipper.writeWatermark (acked.union ids) >>= _) d = _
  rw [Shipper.writeWatermark, hpay]
  rfl

end Pass

/-! ## Between two passes -/

/-- Between two passes: the log holds records that were appended, and every record that it does not
hold is acknowledged. -/
structure Shelf (rejectIds acked : PySet) (d : Depot) : Prop where
  tally : Tally rejectIds acked.Mem d
  marked : Marked acked d.world
  numbered : d.world.wal.WellNumbered
  named : ∀ r ∈ d.world.appended, Named r
  distinct : DistinctIds d.world.appended
  holds : ∃ rs, d.world.wal.Holds rs ∧ rs.Subperm d.world.appended ∧
    ∀ r ∈ d.world.appended, r ∈ rs ∨ r.Acked acked

theorem attempt_readWatermark {acked : PySet} {d : Depot} (hm : Marked acked d.world) :
    Prog.attempt answer Shipper.readWatermark d = (.ok acked, d) := by
  have hread : Watermark.read d.world.watermark = .ok acked := hm
  show Prog.attempt answer (Prog.ofExcept (Watermark.read d.world.watermark)) d = _
  rw [hread]
  rfl

theorem attempt_readSegment {n : ℕ} {out : List Json} {d : Depot}
    (h : SegmentedWal.readSegment (d.world.wal.segment n) = .ok out) :
    Prog.attempt answer (Shipper.readSegment n) d = (.ok out, d) := by
  show Prog.attempt answer
    (Prog.ofExcept (SegmentedWal.readSegment (d.world.wal.segment n))) d = _
  rw [h]
  rfl

theorem attempt_readAll {ns : List ℕ} {out : List Json} {d : Depot}
    (h : d.world.wal.readSegments ns = .ok out) :
    Prog.attempt answer (Shipper.readAll ns) d = (.ok out, d) := by
  induction ns generalizing out with
  | nil =>
    cases h
    rfl
  | cons n ns ih =>
    rw [SegmentedWal.readSegments] at h
    cases hn : SegmentedWal.readSegment (d.world.wal.segment n) with
    | error e =>
      rw [hn] at h
      cases h
    | ok first =>
      cases hns : d.world.wal.readSegments ns with
      | error e =>
        rw [hn, hns] at h
        cases h
      | ok rest =>
        rw [hn, hns] at h
        cases h
        rw [Shipper.readAll, Prog.attempt_bind_ok answer (attempt_readSegment hn),
          Prog.attempt_bind_ok answer (ih hns)]
        rfl

theorem exists_allIn (ids : PySet) {rs : List JsonObject} (h : ∀ r ∈ rs, r.Hashable) :
    ∃ b, allIn ids (rs.map JsonObject.toJson) = .ok b := by
  induction rs with
  | nil => exact ⟨true, rfl⟩
  | cons r rs ih =>
    rw [List.map_cons, allIn, idIn_toJson (h r List.mem_cons_self)]
    by_cases hr : r.Acked ids
    · rw [decide_eq_true hr]
      exact ih fun x hx => h x (List.mem_cons_of_mem _ hx)
    · rw [decide_eq_false hr]
      exact ⟨false, rfl⟩

theorem distinctIds_of_subperm {rs rs' : List JsonObject} (h : rs.Subperm rs')
    (hd : DistinctIds rs') : DistinctIds rs := by
  obtain ⟨l, hl, hsub⟩ := h
  have hnodup : (l.map fun r => r.decisionId.key).Nodup := (hsub.map _).nodup hd
  exact (hl.map fun r => r.decisionId.key).nodup_iff.mp hnodup

/-- The batches of a list of records are lists of records. -/
theorem exists_batches_eq {size : ℕ} (h : 0 < size) (rs : List JsonObject) :
    ∃ bs : List (List JsonObject), batches size (rs.map JsonObject.toJson) =
      bs.map (List.map JsonObject.toJson) ∧ bs.flatten = rs := by
  have hsplit (L : List (List Json)) (rs : List JsonObject)
      (hL : L.flatten = rs.map JsonObject.toJson) :
      ∃ bs : List (List JsonObject), L = bs.map (List.map JsonObject.toJson) ∧ bs.flatten = rs := by
    induction L generalizing rs with
    | nil => exact ⟨[], rfl, (List.map_eq_nil_iff.mp hL.symm).symm⟩
    | cons b L ih =>
      rw [List.flatten_cons] at hL
      obtain ⟨r₁, r₂, rfl, hb, hrest⟩ := List.map_eq_append_iff.mp hL.symm
      obtain ⟨bs, rfl, rfl⟩ := ih r₂ hrest.symm
      exact ⟨r₁ :: bs, by rw [List.map_cons, hb], rfl⟩
  exact hsplit _ rs (Shipping.flatten_batches h _)

namespace Shelf

variable {rejectIds acked acked' : PySet} {d d' : Depot}

/-- `unshipped` returns the records of the log that are not acknowledged. -/
theorem unshipped (h : Shelf rejectIds acked d) :
    ∃ recs : List JsonObject, recs.Subperm d.world.appended ∧
      (∀ r ∈ d.world.appended, r ∈ recs ∨ r.Acked acked) ∧
      Prog.attempt answer Shipper.unshipped d = (.ok (Shipping.pendingRecords acked recs), d) := by
  obtain ⟨rs, hrs, hsub, hall⟩ := h.holds
  obtain ⟨recs, hrecs, hperm⟩ := hrs.records
  have hsub' : recs.Subperm d.world.appended := hperm.subperm.trans hsub
  refine ⟨recs, hsub', fun r hr => (hall r hr).imp hperm.mem_iff.mpr id, ?_⟩
  have hnot : notIn acked (recs.map JsonObject.toJson) =
      .ok (Shipping.pendingRecords acked recs) :=
    notIn_eq fun r hr => (h.named r (hsub'.subset hr)).hashable
  rw [Shipper.unshipped, Prog.attempt_bind_ok answer (attempt_readWatermark h.marked)]
  show Prog.attempt answer (Shipper.readAll (segments d.world.wal.dir) >>= _) d = _
  rw [Prog.attempt_bind_ok answer (attempt_readAll hrecs), hnot]
  rfl

/-- A pass starts with the records that `unshipped` returns. -/
theorem midway (h : Shelf rejectIds acked d) {recs : List JsonObject}
    (hsub : recs.Subperm d.world.appended) :
    Midway rejectIds d.world acked [] (recs.filter fun r => ¬ r.Acked acked) d := by
  have hfilter : (recs.filter fun r => ¬ r.Acked acked).Subperm d.world.appended :=
    List.filter_sublist.subperm.trans hsub
  refine ⟨?_, rfl, rfl, rfl, ?_, distinctIds_of_subperm hfilter h.distinct, fun i hi => by cases hi⟩
  · apply h.tally.of_received
    · exact fun k hk => done_nil.mpr hk
    · exact fun k hk => Or.inl (done_nil.mp hk)
  · intro r hr
    have hr' := hfilter.subset hr
    obtain ⟨k, hk⟩ := Option.ne_none_iff_exists'.mp (h.named r hr').hashable
    refine ⟨hr', k, hk, ?_⟩
    rw [done_nil, ← JsonObject.acked_iff_of_key hk]
    exact of_decide_eq_true (List.mem_filter.mp hr).2

theorem of_passed (h : Shelf rejectIds acked d) (hp : Passed rejectIds d.world acked acked' d') :
    Shelf rejectIds acked' d' := by
  refine ⟨hp.tally, hp.marked, hp.wal ▸ h.numbered, ?_, ?_, ?_⟩
  · rw [hp.appended]
    exact h.named
  · rw [hp.appended]
    exact h.distinct
  · obtain ⟨rs, hrs, hsub, hall⟩ := h.holds
    rw [hp.wal, hp.appended]
    refine ⟨rs, hrs, hsub, fun r hr => (hall r hr).imp id ?_⟩
    rintro ⟨k, hk, hmem⟩
    exact ⟨k, hk, hp.old k hmem⟩

/-- The deletion of a segment whose records are acknowledged. -/
theorem unlink (h : Shelf rejectIds acked d) {n : ℕ} {part : List JsonObject} {st : ShipperStats}
    (hn : n ≠ d.world.wal.seq) (hpart : d.world.wal.segment n = logBytes part) (hne : part ≠ [])
    (hall : ∀ r ∈ part, r.Acked acked) (hst : st.poisoned = d.world.stats.poisoned) :
    Shelf rejectIds acked
      { d with world := { d.world with wal := d.world.wal.unlink n, stats := st } } := by
  refine ⟨h.tally.of_world rfl rfl hst fun _ hr => hr, h.marked, h.numbered.unlink hn, h.named,
    h.distinct, ?_⟩
  obtain ⟨rs, hrs, hsub, hkept⟩ := h.holds
  obtain ⟨rest, hrest, hperm⟩ := hrs.unlink hpart hne
  refine ⟨rest, hrest, ?_, ?_⟩
  · exact (List.sublist_append_right part rest).subperm.trans (hperm.symm.subperm.trans hsub)
  · intro r hr
    rcases hkept r hr with hin | hack
    · rcases List.mem_append.mp (hperm.mem_iff.mp hin) with hin | hin
      · exact Or.inr (hall r hin)
      · exact Or.inl hin
    · exact Or.inr hack

theorem append (h : Shelf rejectIds acked d) {r : JsonObject} (hr : Fresh d.world r) :
    Shelf rejectIds acked { d with world := d.world.append r } := by
  refine ⟨h.tally.of_world rfl rfl rfl fun _ hx => List.mem_append_left _ hx, h.marked,
    h.numbered.append r, ?_, ?_, ?_⟩
  · intro x hx
    rcases List.mem_append.mp hx with hx | hx
    · exact h.named x hx
    · rw [List.mem_singleton.mp hx]
      exact hr.1
  · show ((d.world.appended ++ [r]).map fun r => r.decisionId.key).Nodup
    rw [List.map_append, List.nodup_append]
    refine ⟨h.distinct, List.nodup_singleton _, ?_⟩
    -- equal keys of strings are equal strings
    rintro k hk l hl rfl
    obtain ⟨x, hx, rfl⟩ := List.mem_map.mp hk
    obtain ⟨⟨s, hs⟩, hfresh⟩ := hr
    have he : x.decisionId.key = r.decisionId.key := List.mem_singleton.mp hl
    rw [hs, key_str] at he
    exact hfresh x hx ((key_eq_str.mp he).trans hs.symm)
  · obtain ⟨rs, hrs, hsub, hall⟩ := h.holds
    refine ⟨rs ++ [r], hrs.append h.numbered r, (List.subperm_append_right [r]).mpr hsub, ?_⟩
    intro x hx
    rcases List.mem_append.mp hx with hx | hx
    · exact (hall x hx).imp (List.mem_append_left _) id
    · exact Or.inl (List.mem_append_right _ hx)

/-- A change of the sink's failures. -/
theorem setSink (h : Shelf rejectIds acked d) {m : MemorySink}
    (hr : m.rejectIds = d.sink.rejectIds) (hm : m.received = d.sink.received) :
    Shelf rejectIds acked { d with sink := m } := by
  have hg : MemorySink.Grown [] d.sink m := MemorySink.grown_of_received hr hm
  exact ⟨h.tally.send hg (by simp), h.marked, h.numbered, h.named, h.distinct, h.holds⟩

end Shelf

/-- **A pass returns and keeps the invariant.** -/
theorem returns_shipOnce {rejectIds acked : PySet} (maxAttempts : ℕ) {batchSize : ℕ}
    (hb : 0 < batchSize) :
    Returns answer (Shelf rejectIds acked) (Shipper.shipOnce maxAttempts batchSize)
      fun _ d => ∃ acked', Shelf rejectIds acked' d := by
  intro d hd
  obtain ⟨recs, hsub, -, hpending⟩ := hd.unshipped
  rw [Shipper.shipOnce, Prog.attempt_bind_ok answer hpending]
  split
  · exact ⟨0, d, rfl, acked, hd⟩
  obtain ⟨bs, hbs, hflat⟩ := exists_batches_eq hb (recs.filter fun r => ¬ r.Acked acked)
  have hmid := hd.midway hsub
  rw [← hflat] at hmid
  obtain ⟨newly, d₁, hsent, hmid₁⟩ := returns_sendBatches hd.named maxAttempts bs [] d hmid
  obtain ⟨n, d', hack, acked', hp⟩ := returns_acknowledge hd.named hd.marked newly d₁ hmid₁
  refine ⟨n, d', ?_, acked', hd.of_passed hp⟩
  rw [Prog.attempt_bind_ok answer (attempt_readWatermark hd.marked),
    if_neg (Nat.pos_iff_ne_zero.mp hb), Shipping.pendingRecords, hbs,
    Prog.attempt_bind_ok answer hsent]
  exact hack

/-- The loop of a truncation. -/
theorem returns_truncateSegments {rejectIds acked : PySet} (active : ℕ) (ns : List ℕ)
    (deleted : ℕ) :
    Returns answer (fun d => Shelf rejectIds acked d ∧ d.world.wal.seq = active)
      (Shipper.truncateSegments acked active ns deleted) fun _ => Shelf rejectIds acked := by
  induction ns generalizing deleted with
  | nil => exact Returns.ret fun _ hd => hd.1
  | cons n ns ih =>
    rw [Shipper.truncateSegments]
    split
    · exact ih deleted
    rename_i hactive
    rintro d ⟨hd, hseq⟩
    obtain ⟨rs, ⟨part, hpart, hperm⟩, hsub, -⟩ := hd.holds
    have hread : SegmentedWal.readSegment (d.world.wal.segment n) =
        .ok ((part n).map JsonObject.toJson) := by
      rw [hpart, SegmentedWal.readSegment_logBytes]
    rw [Prog.attempt_bind_ok answer (attempt_readSegment hread)]
    split
    · exact ih deleted d ⟨hd, hseq⟩
    rename_i hne
    have hpne : part n ≠ [] := fun h0 => hne (List.map_eq_nil_iff.mpr h0)
    have hn : n ∈ d.world.wal.dir := by
      by_contra hno
      exact hpne (SegmentedWal.part_eq_nil hpart hno)
    have happ : ∀ r ∈ part n, r ∈ d.world.appended := by
      intro r hr
      apply hsub.subset
      apply hperm.mem_iff.mp
      exact List.mem_flatMap.mpr ⟨n, AList.mem_keys.mp hn, hr⟩
    obtain ⟨b, hb⟩ := exists_allIn acked fun r hr => (hd.named r (happ r hr)).hashable
    rw [hb]
    cases b with
    | false => exact ih deleted d ⟨hd, hseq⟩
    | true =>
      have hclosed : n ≠ d.world.wal.seq := by
        rw [hseq]
        exact hactive
      have hnext : Shelf rejectIds acked { d with world := { d.world with
          wal := d.world.wal.unlink n
          stats := (d.world.stats.add (d.world.wal.segment n).length .bytesReclaimed).add 1
            .segmentsDeleted } } :=
        hd.unlink hclosed (hpart n) hpne (Shipping.acked_of_allIn hb) rfl
      exact ih (deleted + 1) _ ⟨hnext, hseq⟩

/-- **A truncation returns and keeps the invariant.** -/
theorem returns_truncate {rejectIds acked : PySet} :
    Returns answer (Shelf rejectIds acked) Shipper.truncate fun _ => Shelf rejectIds acked := by
  intro d hd
  obtain ⟨n, d', hn, hd'⟩ :=
    returns_truncateSegments d.world.wal.seq (segments d.world.wal.dir) 0 d ⟨hd, rfl⟩
  refine ⟨n, d', ?_, hd'⟩
  rw [Shipper.truncate, Prog.attempt_bind_ok answer (attempt_readWatermark hd.marked)]
  exact hn

theorem returns_run {rejectIds acked : PySet} (maxAttempts : ℕ) {batchSize : ℕ}
    (hb : 0 < batchSize) :
    Returns answer (Shelf rejectIds acked) (Shipper.run maxAttempts batchSize)
      fun _ d => ∃ acked', Shelf rejectIds acked' d := by
  rw [Shipper.run]
  apply (returns_shipOnce maxAttempts hb).bind
  intro shipped
  apply Returns.of_exists
  intro acked'
  apply returns_truncate.bind
  intro deleted d hd
  obtain ⟨recs, -, -, hpending⟩ := hd.unshipped
  refine ⟨(shipped, deleted, (Shipping.pendingRecords acked' recs).length), d, ?_, acked', hd⟩
  rw [Prog.attempt_bind_ok answer hpending]
  rfl

/-! ## Every run -/

theorem Shelf.accounts {rejectIds acked : PySet} {d : Depot} (h : Shelf rejectIds acked d) :
    Accounts rejectIds d := by
  have hapart : ∀ k ∈ d.sink.ids, .ok k ∉ poisonKeys d.world := by
    intro k hk hp
    obtain ⟨l, hl, hrej, -⟩ := h.tally.of_mem_poisonKeys hp
    cases hl
    exact (h.tally.of_mem_ids hk).1 hrej
  refine ⟨hapart, h.tally.once, ?_, ⟨acked, h.marked, h.tally.settled⟩, ?_, ?_⟩
  · intro p hp
    obtain ⟨k, hk, hrej, -⟩ := h.tally.of_mem_poisonKeys hp
    exact ⟨k, hk, hrej⟩
  · intro k v hv
    exact (h.tally.received (k, v) (Dict.mem_of_get? hv)).2
  intro hnone
  obtain ⟨recs, -, hall, hpending⟩ := h.unshipped
  have hack : ∀ r ∈ d.world.appended, r.Acked acked := by
    rw [hpending] at hnone
    intro r hr
    rcases hall r hr with hin | hr
    · by_contra hno
      have hmem : r.toJson ∈ Shipping.pendingRecords acked recs :=
        Shipping.mem_pendingRecords.mpr ⟨r, hin, hno, rfl⟩
      rw [Except.ok.inj hnone] at hmem
      cases hmem
    · exact hr
  have hexact (k : Key) : (k ∈ d.sink.ids ∨ .ok k ∈ poisonKeys d.world) ↔
      ∃ r ∈ d.world.appended, r.decisionId.key = some k := by
    constructor
    · rintro (hk | hk)
      · exact (h.tally.of_mem_ids hk).2
      · obtain ⟨l, hl, -, -, hr⟩ := h.tally.of_mem_poisonKeys hk
        cases hl
        exact hr
    · rintro ⟨r, hr, hk⟩
      exact h.tally.settled k ((JsonObject.acked_iff_of_key hk).mp (hack r hr))
  refine ⟨hexact, ?_⟩
  obtain ⟨ks, hks⟩ : ∃ ks : List Key, ks.map .ok = poisonKeys d.world := by
    have hrange : poisonKeys d.world ∈ Set.range (List.map (Except.ok (ε := PyError))) := by
      rw [Set.range_list_map]
      intro p hp
      obtain ⟨k, rfl, -⟩ := h.tally.of_mem_poisonKeys hp
      exact ⟨k, rfl⟩
    exact hrange
  have hmem (k : Key) : .ok k ∈ poisonKeys d.world ↔ k ∈ ks := by
    rw [← hks, List.mem_map_of_injective fun _ _ e => Except.ok.inj e]
  have hnodup : (d.sink.ids ++ ks).Nodup := by
    refine List.nodup_append.mpr ⟨h.tally.receivedOnce, ?_, ?_⟩
    · exact List.Nodup.of_map Except.ok (hks ▸ h.tally.once)
    · rintro k hk l hl rfl
      exact hapart k hk ((hmem k).mpr hl)
  have hperm : ((d.sink.ids ++ ks).map some).Perm
      (d.world.appended.map fun r => r.decisionId.key) := by
    apply (List.perm_ext_iff_of_nodup (hnodup.map (Option.some_injective _)) h.distinct).mpr
    intro x
    rw [List.mem_map, List.mem_map]
    constructor
    · rintro ⟨k, hk, rfl⟩
      exact (hexact k).mp ((List.mem_append.mp hk).imp id (hmem k).mpr)
    · rintro ⟨r, hr, rfl⟩
      obtain ⟨k, hk⟩ := Option.ne_none_iff_exists'.mp (h.named r hr).hashable
      refine ⟨k, ?_, hk.symm⟩
      exact List.mem_append.mpr (((hexact k).mpr ⟨r, hr, hk⟩).imp id (hmem k).mp)
  have hlen := hperm.length_eq
  have hpois : ks.length = d.world.poison.length := by
    rw [← List.length_map (f := Except.ok (ε := PyError)), hks, poisonKeys, List.length_map]
  rw [List.length_map, List.length_map, List.length_append, hpois, ← h.tally.counted] at hlen
  rw [← hlen, MemorySink.ids, List.length_map]

/-- Appends carry fresh string ids, and a batch has at least one record. -/
def Admitted (d : Depot) : Action → Prop
  | .append r => Fresh d.world r
  | .run batchSize => 0 < batchSize
  | .setUp _ | .setFailNext _ => True

theorem shelf_init (c : Shipping.Config) (rejectIds : PySet) :
    Shelf rejectIds .empty (init c rejectIds) := by
  refine ⟨⟨rfl, List.nodup_nil, ?_, rfl, List.nodup_nil, ?_, ?_⟩, rfl,
    SegmentedWal.openAt_empty_wellNumbered _, ?_, List.nodup_nil, [],
    SegmentedWal.holds_openAt _, List.nil_subperm, ?_⟩
  · intro v hv
    cases hv
  · intro p hp
    cases hp
  · intro k hk
    exact absurd hk (PySet.not_mem_empty k)
  · intro r hr
    cases hr
  · intro r hr
    cases hr

/-- Every step keeps the invariant; a pass may move the watermark. -/
theorem shelf_step (c : Shipping.Config) {rejectIds acked : PySet} {d : Depot} {a : Action}
    (h : Shelf rejectIds acked d) (ha : Admitted d a) :
    ∃ acked', Shelf rejectIds acked' (step c d a).2 := by
  cases a with
  | append r => exact ⟨acked, h.append ha⟩
  | run batchSize =>
    obtain ⟨report, d', hrun, acked', hd'⟩ := returns_run c.maxAttempts ha d h
    refine ⟨acked', ?_⟩
    rw [step, hrun]
    exact hd'
  | setUp up => exact ⟨acked, h.setSink rfl rfl⟩
  | setFailNext n => exact ⟨acked, h.setSink rfl rfl⟩

/-- **The accounts are in order after every run** of appends and passes: whatever fails in between,
no record is both received and poisoned, none is poisoned twice, and when nothing is left to ship
the received and the poisoned ones are all that was appended. -/
theorem accounts_of_run (c : Shipping.Config) (rejectIds : PySet) (as : List Action)
    (h : Machine.Along (step c) Admitted (init c rejectIds) as) :
    Accounts rejectIds (Machine.after (step c) (init c rejectIds) as) := by
  obtain ⟨acked, hshelf⟩ : ∃ acked, Shelf rejectIds acked
      (Machine.after (step c) (init c rejectIds) as) := by
    apply Machine.invariant (I := fun d => ∃ acked, Shelf rejectIds acked d) _
      ⟨.empty, shelf_init c rejectIds⟩ h
    rintro d a ⟨acked, hd⟩ ha
    exact shelf_step c hd ha
  exact hshelf.accounts

instance (d : Depot) (a : Action) : Decidable (Admitted d a) :=
  match a with
  | .append r => inferInstanceAs (Decidable (Fresh d.world r))
  | .run batchSize => inferInstanceAs (Decidable (0 < batchSize))
  | .setUp _ | .setFailNext _ => isTrue trivial

/-- A send fails and is tried again, the second of three records is rejected, and a fourth one waits
until the sink is up. -/
def outage : List Action :=
  [.append (Shipping.recordOf "d"), .append (Shipping.recordOf "e"),
    .append (Shipping.recordOf "f"), .setFailNext 1, .run 2, .setUp false,
    .append (Shipping.recordOf "g"), .run 2, .setUp true, .run 2]

/-- The sink and the process after it. -/
def afterOutage : Depot :=
  Machine.after (step Shipping.oneEach) (init Shipping.oneEach (Shipping.oneId "e")) outage

/-- Three of the four are received, and one is in the poison list. -/
theorem accounts_of_run_outage :
    (afterOutage.sink.received.length, afterOutage.world.poison) =
        (3, [(Shipping.recordOf "e").toJson]) ∧
      Accounts (Shipping.oneId "e") afterOutage :=
  ⟨by decide +kernel, accounts_of_run Shipping.oneEach _ outage (by decide +kernel)⟩

end Depot
