import PreauthGateway.Shipping.CrashSafety
import PreauthGateway.Shipping.Truncation

/-!
# Rejected records

A record that the sink rejects is put in the poison list of the running process, and its id goes
into the watermark like that of an accepted one. The list is in memory only. When a process crashes
after its watermark has the id, the next one neither sends the record again nor keeps it from
truncation, and nothing has it any more. A crash before that is harmless: the record is still
unshipped, and the next process sends it again.

## Main definitions

* `SameId`, `SettledId`: a record of the log with this id was accepted or is in the poison list
* `Recorded`: every record is in a segment file, or settled
* `noneStranded`: no process crashes with a poisoned record whose id is in the watermark

## Main results

* `recorded_of_run`: **the records of every run in which no crash strands one**
* `lost_rejected`: a run in which a rejected record is lost
-/

open Json Prog

namespace Shipping

/-- Two records have one id. -/
def SameId (r r' : JsonObject) : Prop := ∃ k, r.decisionId.key = some k ∧ r'.decisionId.key = some k

/-- A record of the log with the id of `r` was accepted, or is in the poison list. -/
def SettledId (s : World) (r : JsonObject) : Prop := ∃ r' ∈ s.appended, SameId r r' ∧ Settled s r'

/-- Every record is in a segment file, or one with its id was accepted or is in the poison list of
the process. Where different records have different ids, it is the record itself. -/
structure Recorded (s : World) : Prop where
  byId : ∀ r ∈ s.appended, InFile s r ∨ SettledId s r
  itself : (∀ r ∈ s.appended, ∀ r' ∈ s.appended, r.decisionId.key = r'.decisionId.key → r = r') →
    ∀ r ∈ s.appended, InFile s r ∨ Settled s r

/-- Nothing is appended during a pass or a truncation, and no process crashes while its poison list
holds a record whose id is in the watermark. -/
def noneStranded : Guard where
  append s _ := s.thread = none
  crash s := s.poisonMarked = []

/-- The invariant: the segments hold whole records, the ids of the watermark are those of settled
records, and every record is a whole line or has its id in the watermark. -/
structure RejectionSafe (s : World) : Prop where
  linked : s.wal.unlinked = none
  whole : WholeSegments s
  marked : ∃ acked, Marked acked s ∧
    (∀ k, acked.Mem k → ∃ r ∈ s.appended, r.decisionId.key = some k ∧ Settled s r) ∧
    ∀ r ∈ s.appended, InSegment s r ∨ r.Acked acked

section World

variable {s s' : World} {r : JsonObject}

/-- What changes no file and only adds to the history keeps the invariant. -/
theorem RejectionSafe.mono (h : RejectionSafe s) (hwal : s'.wal = s.wal)
    (hmark : s'.watermark = s.watermark) (happ : s'.appended = s.appended)
    (hset : ∀ r, Settled s r → Settled s' r) : RejectionSafe s' := by
  obtain ⟨acked, hm, hk, hr⟩ := h.marked
  refine ⟨hwal ▸ h.linked, ?_, acked, ?_, ?_, ?_⟩
  · intro n
    rw [hwal, happ]
    exact h.whole n
  · rw [Marked, hmark]
    exact hm
  · intro k hmem
    obtain ⟨x, hx, hxk, hs⟩ := hk k hmem
    rw [happ]
    exact ⟨x, hx, hxk, hset x hs⟩
  · intro x hx
    rw [happ] at hx
    refine (hr x hx).imp ?_ id
    rintro ⟨n, rs, hrs, hin⟩
    exact ⟨n, rs, by rw [hwal]; exact hrs, hin⟩

theorem RejectionSafe.append (h : RejectionSafe s) (r : JsonObject) : RejectionSafe (s.append r) := by
  obtain ⟨acked, hm, hk, hr⟩ := h.marked
  obtain ⟨hw, hin, hold⟩ := segments_append h.linked h.whole r
  refine ⟨(SegmentedWal.append_cases h.linked r).2.1, hw, acked, hm, ?_, ?_⟩
  · intro k hmem
    obtain ⟨x, hx, hxk, hs⟩ := hk k hmem
    exact ⟨x, List.mem_append_left _ hx, hxk, hs⟩
  · intro x hx
    rcases List.mem_append.mp hx with hx | hx
    · exact (hr x hx).imp (hold x) id
    · rw [List.mem_singleton.mp hx]
      exact Or.inl hin

/-- A crash that strands nothing loses only poisoned records whose ids are not in the watermark. -/
theorem RejectionSafe.crash (h : RejectionSafe s) (hg : s.poisonMarked = []) :
    RejectionSafe s.crash := by
  obtain ⟨acked, hm, hk, hr⟩ := h.marked
  have hseg (n : ℕ) : s.crash.wal.segment n = s.wal.segment n :=
    SegmentedWal.segment_openAt s.wal.config s.wal.dir n
  refine ⟨rfl, ?_, acked, hm, ?_, ?_⟩
  · intro n
    rw [hseg]
    exact h.whole n
  · intro k hmem
    obtain ⟨x, hx, hxk, hacc | hpois⟩ := hk k hmem
    · exact ⟨x, hx, hxk, Or.inl hacc⟩
    · have hin := mem_poisonMarked hm hpois hxk hmem
      rw [hg] at hin
      cases hin
  · intro x hx
    refine (hr x hx).imp ?_ id
    rintro ⟨n, rs, hrs, hin⟩
    exact ⟨n, rs, by rw [hseg]; exact hrs, hin⟩

/-- The new watermark adds earned ids to the old one. -/
theorem RejectionSafe.replace (h : RejectionSafe s) {acked ids : PySet} {newly : List Json}
    {b : Bytes} (hm : Marked acked s) (hn : Earned newly s) (hids : Watermark.setOf newly = .ok ids)
    (hb : Watermark.payload (acked.union ids) = .ok b) (ht : s.tmp = some b) :
    RejectionSafe s.replaceWatermark := by
  obtain ⟨acked', hm', hk, hr⟩ := h.marked
  obtain rfl := marked_unique hm hm'
  obtain ⟨acked', hread, hold, hnew⟩ := read_earned hm hn hids hb
  rw [replaceWatermark_eq ht]
  refine ⟨h.linked, h.whole, acked', hread, ?_, ?_⟩
  · intro k hkm
    rcases hnew k hkm with hin | ⟨r, hra, hrk, hset⟩
    · exact hk k hin
    · exact ⟨r, hra, hrk, hset⟩
  · intro x hx
    refine (hr x hx).imp id ?_
    rintro ⟨k, hxk, hkm⟩
    exact ⟨k, hxk, hold k hkm⟩

/-- The deletion of a segment whose records are all acknowledged takes none that is not. -/
theorem RejectionSafe.unlink (h : RejectionSafe s) {acked : PySet} {n : ℕ} {rs : List JsonObject}
    (hm : Marked acked s) (hne : n ≠ s.wal.seq) (hrs : s.wal.segment n = logBytes rs)
    (hall : ∀ r ∈ rs, r.Acked acked) : RejectionSafe { s with wal := s.wal.unlink n } := by
  obtain ⟨acked', hm', hk, hr⟩ := h.marked
  obtain rfl := marked_unique hm hm'
  have hseg (m : ℕ) : (s.wal.unlink n).segment m = if m = n then [] else s.wal.segment m :=
    SegmentedWal.segment_unlink n m
  refine ⟨?_, ?_, acked, hm, hk, ?_⟩
  · show (s.wal.unlink n).unlinked = none
    simp only [SegmentedWal.unlink, hne, false_and, if_false, h.linked]
  · intro m
    show ∃ rs, (s.wal.unlink n).segment m = logBytes rs ∧ ∀ r ∈ rs, r ∈ s.appended
    rw [hseg]
    split
    · exact ⟨[], rfl, by simp⟩
    · exact h.whole m
  · intro r hra
    rcases hr r hra with ⟨m, rs', hrs', hin⟩ | ha
    · rcases eq_or_ne m n with rfl | hmn
      · rw [hrs] at hrs'
        rw [← logBytes_injective hrs'] at hin
        exact Or.inr (hall r hin)
      · refine Or.inl ⟨m, rs', ?_, hin⟩
        show (s.wal.unlink n).segment m = _
        rw [hseg, if_neg hmn, hrs']
    · exact Or.inr ha

end World

/-! ## Every run -/

/-- Nothing happens beside a pass or a truncation. -/
theorem stable_eq {Φ : World → Prop} : Stable Eq RejectionSafe Φ := by
  rintro s _ _ _ rfl hs
  exact hs

theorem passRules_rejection : PassRules noneStranded Eq RejectionSafe where
  rely := by
    rintro s _ rfl
    exact ⟨rfl, rfl, rfl, rfl, fun _ hr => hr⟩
  whole _ hI := hI.whole
  send s batch a hI := hI.mono rfl rfl rfl fun _ hr => settled_send hr batch a
  poison s r hI _ := hI.mono rfl rfl rfl fun _ hr => hr.imp id (List.mem_append_left _)
  count _ _ _ hI := hI.mono rfl rfl rfl fun _ hr => hr
  writeTmp _ _ hI := hI.mono rfl rfl rfl fun _ hr => hr
  replace _ _ _ _ _ hI _ hm hn hids hb ht := hI.replace hm hn hids hb ht

/-- During a truncation: the watermark is the one that was read, and the active segment too. -/
def Begun (acked : PySet) (active : ℕ) (s : World) : Prop := Marked acked s ∧ s.wal.seq = active

/-- A segment that will be deleted is closed, and its records are acknowledged. -/
def Closed (acked : PySet) (active n : ℕ) (s : World) : Prop :=
  Begun acked active s ∧ n ≠ active ∧
    ∃ rs, s.wal.segment n = logBytes rs ∧ ∀ r ∈ rs, r.Acked acked

theorem truncateRules_rejection : TruncateRules noneStranded Eq RejectionSafe Begun Closed where
  toPassRules := passRules_rejection
  stable_begun _ _ := stable_eq
  stable_doomed _ _ _ := stable_eq
  begun _ _ _ hm := ⟨hm, rfl⟩
  doomed _ _ _ _ rs _ hT hne hrs _ hall := ⟨hT, hne, rs, hrs, hall⟩
  begun_count _ _ _ _ hT := hT
  doomed_count _ _ _ _ _ hD := hD
  unlink s acked active n hI _ hD := by
    obtain ⟨⟨hm, hseq⟩, hne, rs, hrs, hall⟩ := hD
    exact ⟨hI.unlink hm (by rw [hseq]; exact hne) hrs hall, hm, hseq⟩

theorem rejectionSafe_init (c : Config) : RejectionSafe (init c).world := by
  have hseg (n : ℕ) : (init c).world.wal.segment n = [] := SegmentedWal.segment_openAt c.segment ∅ n
  refine ⟨rfl, ?_, .empty, rfl, ?_, ?_⟩
  · intro n
    exact ⟨[], by rw [hseg]; rfl, by simp⟩
  · intro k hk
    exact absurd hk (PySet.not_mem_empty k)
  · intro r hr
    cases hr

theorem RejectionSafe.recorded {s : World} (h : RejectionSafe s) : Recorded s := by
  obtain ⟨acked, -, hk, hr⟩ := h.marked
  have hkept : ∀ r ∈ s.appended, InFile s r ∨ SettledId s r := by
    intro r hra
    rcases hr r hra with hin | ⟨k, hrk, hkm⟩
    · exact Or.inl hin.inFile
    · obtain ⟨r', hr', hk', hset⟩ := hk k hkm
      exact Or.inr ⟨r', hr', ⟨k, hrk, hk'⟩, hset⟩
  refine ⟨hkept, ?_⟩
  intro hdistinct r hra
  rcases hkept r hra with hin | ⟨r', hr', ⟨k, hk, hk'⟩, hset⟩
  · exact Or.inl hin
  · rw [← hdistinct r hra r' hr' (hk.trans hk'.symm)] at hset
    exact Or.inr hset

/-- **The records of a run.** Whatever the sink answers, after every run in which no process crashes
while its poison list holds a record whose id is in the watermark, every record is in a segment
file, accepted by the sink, or in the poison list of the running process. -/
theorem recorded_of_run (c : Config) (as : List Action) (s : Shipping)
    (hm : Runs.Meets (step c) noneStranded.Meets (init c) as)
    (hrun : Runs.run (step c) (init c) as = some s) : Recorded s.world := by
  apply RejectionSafe.recorded
  refine invariant (R := Eq) (fun a p hp s hI => truncateRules_rejection.threadSafe_program hp hI)
    ?_ ?_ (rejectionSafe_init c) hm hrun
  · intro s r hI hidle
    exact ⟨hI.append r, fun h => absurd hidle h⟩
  · intro s hI hg
    exact hI.crash hg

/-! ## Two processes -/

instance (s : Shipping) (r : JsonObject) : Decidable (noneStranded.append s r) :=
  decidable_of_iff (s.thread.isNone = true) Option.isNone_iff_eq_none

instance (o : Call) (s : World) : Decidable (noneStranded.call o s) := isTrue trivial

instance (s : World) : Decidable (noneStranded.crash s) := inferInstanceAs (Decidable (_ = []))

/-- The sink rejects the first of two records, and the process crashes before it writes the
watermark. The next one sends both again, with the same answers, and truncates. -/
def rejectedAgain : List Action :=
  List.flatten [
    [.append (recordOf "d"), .append (recordOf "e"), .run 100], calls 7 .returned, calls 2 .rejected,
    calls 4 .returned, [.crash, .run 100], calls 7 .returned, calls 2 .rejected, calls 23 .returned]

/-- Both segments are deleted; the rejected record is in the poison list. -/
theorem recorded_of_run_again :
    ∃ s, Runs.run (step oneEach) (init oneEach) rejectedAgain = some s ∧
      s.world.wal.dir.keys = [3] ∧ s.world.poison = [(recordOf "d").toJson] ∧
      s.world.accepted = [(recordOf "e").toJson, (recordOf "e").toJson] ∧ Recorded s.world := by
  have hrun : (Runs.run (step oneEach) (init oneEach) rejectedAgain).map (fun s =>
      (s.world.wal.dir.keys, s.world.poison, s.world.accepted)) =
        some ([3], [(recordOf "d").toJson], [(recordOf "e").toJson, (recordOf "e").toJson]) := by
    decide +kernel
  obtain ⟨s, hs, hobs⟩ := Option.map_eq_some_iff.mp hrun
  obtain ⟨hkeys, hobs⟩ := Prod.mk.inj hobs
  obtain ⟨hpoison, haccepted⟩ := Prod.mk.inj hobs
  exact ⟨s, hs, hkeys, hpoison, haccepted,
    recorded_of_run oneEach rejectedAgain s (by decide +kernel) hs⟩

/-! ## A rejected record -/

/-- The sink never accepts some records: it rejects a batch at the first of them, having accepted
those before it. -/
def Sink.rejecting (never : Json → Bool) : Sink := fun _ batch =>
  if batch.any never then { result := .rejected, part := batch.takeWhile fun r => ¬ never r }
  else { result := .returned }

/-- Nothing is appended during a pass or a truncation. -/
def alone : Guard where
  append s _ := s.thread = none

/-- The sink rejects everything. -/
abbrev Sink.closed : Sink := .rejecting fun _ => true

theorem closed_delivery (s : World) (hs : s.sends = []) (r : JsonObject) :
    delivery .closed tinySegments.maxAttempts 100 s .empty [r] =
      { sends := [([r.toJson], { result := .rejected }), ([r.toJson], { result := .rejected })]
        poison := [r.toJson]
        settled := [r.toJson] } := by
  have hone : batches 100 [r.toJson] = [[r.toJson]] := by simp [batches]
  have hsink (hist : List (List Json × SinkAnswer)) :
      Sink.closed hist [r.toJson] = { result := .rejected } := rfl
  have hattempts : tinySegments.maxAttempts = 3 + 1 := rfl
  rw [delivery, hs, pendingRecords_empty, List.map_singleton, hone, hattempts, deliver, deliver,
    deliverBatch, hsink]
  simp only [deliverEach, hsink]
  rfl

theorem accepted_closed {s : World} (h : ∀ p ∈ s.sends, p.2 = { result := .rejected }) :
    s.accepted = [] := by
  rw [World.accepted, List.flatMap_eq_nil_iff]
  intro p hp
  rw [h p hp]
  rfl

/-- A log with one record, in segment 1, and segment 2 active and empty. -/
structure OneRejected (w : SegmentedWal) : Prop where
  seq : w.seq = 2
  segments : segments w.dir = [1, 2]
  first : w.segment 1 = logBytes [namedRecord]
  rest : ∀ n ≠ 1, w.segment n = []

theorem oneRejected : OneRejected ((init tinySegments).world.append namedRecord).wal := by
  obtain ⟨-, -, hseq, hdir, h0, hseg⟩ := SegmentedWal.appendAll_rotating
    tinySegments.segment (le_refl _) [namedRecord] _ rfl
  refine ⟨hseq, ?_, hseg 0, ?_⟩
  · apply SegmentedWal.segments_eq_range (a := 1) (b := 3) _ (by decide)
    intro n
    have hn := hdir n
    rw [List.length_singleton] at hn
    exact hn.trans (by omega)
  · intro n hn
    rcases Nat.eq_zero_or_pos n with rfl | hpos
    · exact h0
    · obtain ⟨i, rfl⟩ := Nat.exists_eq_succ_of_ne_zero (Nat.pos_iff_ne_zero.mp hpos)
      obtain ⟨j, rfl⟩ := Nat.exists_eq_succ_of_ne_zero (n := i) (by omega)
      exact hseg (j + 1)

theorem OneRejected.records {w : SegmentedWal} (h : OneRejected w) :
    w.records = .ok ([namedRecord].map JsonObject.toJson) := by
  have h1 : SegmentedWal.readSegment (w.segment 1) = .ok ([namedRecord].map JsonObject.toJson) := by
    rw [h.first, SegmentedWal.readSegment_logBytes]
  have h2 : SegmentedWal.readSegment (w.segment 2) = .ok [] := by
    rw [h.rest 2 (by decide), ← logBytes_nil, SegmentedWal.readSegment_logBytes, List.map_nil]
  rw [SegmentedWal.records, h.segments, SegmentedWal.readSegments, SegmentedWal.readSegments, h1, h2]
  rfl

/-- The pass, whose sink rejects the record, acknowledges it. -/
theorem exec_shipOnce_closed {s : World} (h : OneRejected s.wal) (hm : Marked .empty s)
    (hs : s.sends = []) :
    ∃ n s' acked, Prog.exec (serve .closed) (Shipper.shipOnce tinySegments.maxAttempts 100) s =
        (.ok n, s') ∧ Marked acked s' ∧ namedRecord.Acked acked ∧ s'.wal = s.wal ∧
      s'.appended = s.appended ∧
      ∀ p ∈ s'.sends, p.2 = Sink.closed [] p.1 ∧ p.2 = { result := .rejected } := by
  have hid : itemDecisionId namedRecord.toJson = .ok (.str [CodePoint.ofChar 'd']) :=
    itemDecisionId_withId _
  have hh : ∀ r ∈ [namedRecord], r.Hashable := by
    intro r hr
    rw [List.mem_singleton.mp hr, JsonObject.Hashable, itemDecisionId_toJson hid]
    exact Option.some_ne_none _
  have hids : ∀ v ∈ [namedRecord.toJson], ∃ x, itemDecisionId v = .ok (.str x) := by
    intro v hv
    rw [List.mem_singleton.mp hv]
    exact ⟨_, hid⟩
  obtain ⟨n, s', acked, hexec, hm', hmem, hsends, hwal, happ⟩ := exec_shipOnce hm h.records hh
    (by decide) (closed_delivery s hs namedRecord) (fun v hv => ⟨_, (hids v hv).choose_spec⟩)
    fun _ => sortable_of_named hids
  refine ⟨n, s', acked, hexec, hm', ?_, hwal, happ, ?_⟩
  · refine ⟨.str [CodePoint.ofChar 'd'], by rw [itemDecisionId_toJson hid, key_str], (hmem _).mpr ?_⟩
    exact Or.inr ⟨_, List.mem_singleton_self _, _, hid, key_str _⟩
  · intro p hp
    rw [hsends, hs, List.nil_append] at hp
    rcases List.mem_pair.mp hp with rfl | rfl <;> exact ⟨rfl, rfl⟩

/-- **A rejected record is lost**: it is in the watermark, its segment is deleted, and the process
crashes. -/
theorem lost_rejected :
    ∃ as s, Runs.Meets (step tinySegments) alone.Meets (init tinySegments) as ∧
      Runs.run (step tinySegments) (init tinySegments) as = some s ∧
      (∀ p ∈ s.world.sends, p.2 = Sink.closed [] p.1) ∧
      ¬ Recorded s.world := by
  obtain ⟨n, s₁, acked, hship, hm, hack, hwal, happ, hsends⟩ :=
    exec_shipOnce_closed (s := (init tinySegments).world.append namedRecord) oneRejected rfl rfl
  have hlog : OneRejected s₁.wal := by
    rw [hwal]
    exact oneRejected
  obtain ⟨d, s₂, htrunc, hshrunk⟩ := exec_truncate .closed hm (by
    intro n _ hn
    rw [hlog.seq] at hn
    rcases eq_or_ne n 1 with rfl | hn1
    · refine ⟨_, hlog.first, ?_⟩
      intro r hr
      rw [List.mem_singleton.mp hr]
      exact hack
    · exact ⟨[], (hlog.rest n hn1).trans logBytes_nil.symm, by simp⟩)
  have hgone (n : ℕ) : s₂.wal.segment n = [] := by
    rcases eq_or_ne n 1 with rfl | hn
    · apply hshrunk.gone 1
      · rw [hlog.segments]
        exact List.mem_cons_self
      · rw [hlog.seq]
        decide
    · rcases hshrunk.segment n with e | e
      · rw [e, hlog.rest n hn]
      · exact e
  have hcalls := reaches_calls (c := tinySegments) (g := alone) (fun _ _ => trivial) hship
    fun shipped => Shipper.truncate >>= fun deleted => Shipper.unshipped >>= fun remaining =>
      .ret ()
  have hcalls₂ := reaches_calls (c := tinySegments) (g := alone) (fun _ _ => trivial) htrunc
    fun deleted => Shipper.unshipped >>= fun remaining => .ret ()
  have hstart : start (Shipper.run tinySegments.maxAttempts 100) =
      resume (Shipper.shipOnce tinySegments.maxAttempts 100 >>= fun shipped => Shipper.truncate >>=
        fun deleted => Shipper.unshipped >>= fun remaining => .ret ()) := by
    rw [start, Shipper.run]
    simp only [Prog.bind_assoc, Prog.pure_eq, Prog.ret_bind]
  rw [← hstart] at hcalls
  obtain ⟨as, hmeets, hrun⟩ : Runs.Reaches (step tinySegments) alone.Meets (init tinySegments)
      ⟨s₂.crash, none⟩ := by
    have happend : alone.append (init tinySegments) namedRecord := rfl
    apply Runs.Reaches.head (a := .append namedRecord) happend rfl
    apply Runs.Reaches.head (a := .run 100) trivial rfl
    apply hcalls.trans (hcalls₂.trans _)
    exact Runs.Reaches.single (a := .crash) trivial rfl
  refine ⟨as, _, hmeets, hrun, ?_, ?_⟩
  · intro p hp
    have hp' : p ∈ s₂.sends := hp
    rw [hshrunk.sends] at hp'
    exact (hsends p hp').1
  · intro h
    have hmem : namedRecord ∈ s₂.crash.appended := by
      show namedRecord ∈ s₂.appended
      rw [hshrunk.appended, happ]
      exact List.mem_cons_self
    rcases h.byId namedRecord hmem with ⟨m, -, out, hout, hin⟩ | ⟨r, -, -, hacc | hpois⟩
    · have hempty : s₂.crash.wal.segment m = [] :=
        (SegmentedWal.segment_openAt s₂.wal.config s₂.wal.dir m).trans (hgone m)
      rw [hempty, ← logBytes_nil, SegmentedWal.readSegment_logBytes] at hout
      cases hout
      cases hin
    · have hnone : s₂.accepted = [] := by
        apply accepted_closed
        rw [hshrunk.sends]
        exact fun p hp => (hsends p hp).2
      have hacc' : r.toJson ∈ s₂.accepted := hacc
      rw [hnone] at hacc'
      cases hacc'
    · cases hpois

end Shipping
