import PreauthGateway.Gateway.Pipeline
import PreauthGateway.Program.Threads

/-!
# The audit log under several threads

`write` and `drain` take no lock. Each list operation is one step: `append` in `write`; `len`,
`extend` and `clear` in `drain`. What is appended between the `extend` and the `clear` of a drain is
cleared without being shipped, and what two drains extend before either clears is shipped twice.

The lists hold references. A record is told from others by the number of the call of `write` that it
was given to.

## Main definitions

* `SharedLog`, `AuditPoint.access`: the list operations of `write` and `drain`
* `AuditPool.Accounted`: every record written is held, and none is shipped twice
* `DrainedInOrder`: what the drains do after each append

## Main results

* `AuditPoint.alone_write`, `AuditPoint.alone_drain`: alone, the calls are those of `AuditLog`
* `fate_iff`, `tally_replay`: what becomes of one record
* `AuditPool.accounted_iff`: **the records are accounted for exactly when the drains extend and
  clear in turn after each append**
-/

/-- A record, with the number of the call of `write` it was given to. -/
abbrev AuditEntry := ℕ × JsonObject

/-- The log that the threads share. -/
structure SharedLog where
  buffer : List AuditEntry := []
  shipped : List AuditEntry := []
  sinkUp : Bool := true

inductive AuditCall
  | write (record : JsonObject)
  | drain

/-- The next step of a thread. -/
inductive AuditPoint
  -- write
  | append (record : JsonObject)
  | written (record : JsonObject)
  -- drain
  | checkSink
  | count
  | extend (n : ℕ)
  | clear (n : ℕ)
  | drained (n : ℕ)
deriving DecidableEq

/-- What a step does to the log. -/
inductive AuditAccess
  | append (e : AuditEntry)
  | sinkUp
  | len
  | extend
  | clear
deriving DecidableEq

namespace AuditPoint

/-- A call begins. -/
def enter : AuditCall → AuditPoint
  | .write record => .append record
  | .drain => .checkSink

/-- One step of the thread `i`. -/
def access (i : ℕ) (p : AuditPoint) (s : SharedLog) :
    Option (AuditAccess × AuditPoint × SharedLog) :=
  match p with
  -- self.buffer.append(record)
  | .append r => some (.append (i, r), .written r, { s with buffer := s.buffer ++ [(i, r)] })
  -- if not self.sink_up: return 0
  | .checkSink => some (.sinkUp, if s.sinkUp then .count else .drained 0, s)
  -- n = len(self.buffer)
  | .count => some (.len, .extend s.buffer.length, s)
  -- self.shipped.extend(self.buffer)
  | .extend n => some (.extend, .clear n, { s with shipped := s.shipped ++ s.buffer })
  -- self.buffer.clear()
  | .clear n => some (.clear, .drained n, { s with buffer := [] })
  | .written _ | .drained _ => none

end AuditPoint

/-- The log of `AuditLog`, without the numbers. -/
def SharedLog.erase (s : SharedLog) : AuditLog where
  buffer := s.buffer.map Prod.snd
  shipped := s.shipped.map Prod.snd
  sinkUp := s.sinkUp

/-- Alone, the steps of `write` are `AuditLog.write`. -/
theorem AuditPoint.alone_write (i : ℕ) (record : JsonObject) (s : SharedLog) :
    (Pool.alone (access i) 1 (enter (.write record)) s).1 = .written record ∧
      (Pool.alone (access i) 1 (enter (.write record)) s).2.erase = s.erase.write record := by
  simp [Pool.alone, enter, access, SharedLog.erase, AuditLog.write]

/-- Those of `drain` are `AuditLog.drain`. -/
theorem AuditPoint.alone_drain (i : ℕ) (s : SharedLog) :
    (Pool.alone (access i) 4 (enter .drain) s).1 = .drained s.erase.drain.1 ∧
      (Pool.alone (access i) 4 (enter .drain) s).2.erase = s.erase.drain.2 := by
  cases h : s.sinkUp <;> simp [Pool.alone, enter, access, SharedLog.erase, AuditLog.drain, h]

/-- The accesses of a log's threads. -/
abbrev AuditJournal := List (ℕ × AuditAccess)

/-- The pool of the threads of a log. -/
abbrev AuditPool := Pool SharedLog AuditPoint AuditAccess

/-- What may happen to it. -/
abbrev AuditPool.next : AuditPool → Pool.Event AuditCall Unit → Option AuditPool :=
  Pool.next AuditPoint.enter fun i _ => AuditPoint.access i

/-- Every record whose write has completed is in `buffer` or in `shipped`, and none is in `shipped`
twice. -/
def AuditPool.Accounted (c : AuditPool) : Prop :=
  (∀ i r, c.threads[i]? = some (.written r) →
    (i, r) ∈ c.shared.buffer ∨ (i, r) ∈ c.shared.shipped) ∧ c.shared.shipped.Nodup

/-- The steps of drains that move records. -/
def drainOps (J : AuditJournal) : List AuditAccess :=
  (J.map Prod.snd).filter fun a => a = .extend ∨ a = .clear

/-- After each append the drains first extend, and then clear, as far as they get. -/
def DrainedInOrder (J : AuditJournal) : Prop :=
  ∀ pre i e post, J = pre ++ (i, .append e) :: post →
    (drainOps post).take 2 <+: [.extend, .clear]

/-! ## What becomes of one record -/

/-- How often a record is in `buffer` and in `shipped`, after one more step of a drain. -/
def fateStep (n : ℕ × ℕ) : AuditAccess → ℕ × ℕ
  | .extend => (n.1, n.2 + n.1)
  | .clear => (0, n.2)
  | _ => n

/-- The same after all the drains' steps since its append. -/
def fate (ops : List AuditAccess) : ℕ × ℕ := ops.foldl fateStep (1, 0)

/-- What the buffer does not hold is not shipped any more. -/
theorem foldl_fateStep_zero (s : ℕ) (ops : List AuditAccess) : ops.foldl fateStep (0, s) = (0, s) := by
  induction ops with
  | nil => rfl
  | cons a ops ih => cases a <;> simpa [fateStep] using ih

theorem le_foldl_fateStep (n : ℕ × ℕ) (ops : List AuditAccess) :
    n.2 ≤ (ops.foldl fateStep n).2 := by
  induction ops generalizing n with
  | nil => exact le_rfl
  | cons a ops ih =>
    refine le_trans ?_ (ih _)
    cases a <;> simp [fateStep]

/-- **A record is held, and not shipped twice, exactly when the drains extend and clear in
turn.** -/
theorem fate_iff {ops : List AuditAccess} (h : ∀ a ∈ ops, a = .extend ∨ a = .clear) :
    1 ≤ (fate ops).1 + (fate ops).2 ∧ (fate ops).2 ≤ 1 ↔ ops.take 2 <+: [.extend, .clear] := by
  match ops with
  | [] => simp [fate]
  | [a] =>
    rcases h a (by simp) with rfl | rfl
    · simp [fate, fateStep]
    · simp [fate, fateStep]
  | a :: b :: ops =>
    rcases h a (by simp) with rfl | rfl
    · rcases h b (by simp) with rfl | rfl
      · have htwice := le_foldl_fateStep (1, 2) ops
        refine iff_of_false (fun hf => ?_) (by simp)
        have : (fate (.extend :: .extend :: ops)).2 = (ops.foldl fateStep (1, 2)).2 := rfl
        omega
      · have hfate : fate (.extend :: .clear :: ops) = (0, 1) := foldl_fateStep_zero 1 ops
        rw [hfate]
        simp
    · -- cleared first: lost
      have hfate : fate (.clear :: b :: ops) = (0, 0) := foldl_fateStep_zero 0 (b :: ops)
      rw [hfate]
      simp

/-! ## The log of a journal -/

/-- The log after an access. -/
def AuditAccess.perform (s : SharedLog) : AuditAccess → SharedLog
  | .append e => { s with buffer := s.buffer ++ [e] }
  | .extend => { s with shipped := s.shipped ++ s.buffer }
  | .clear => { s with buffer := [] }
  | .sinkUp | .len => s

/-- The log after the accesses of a journal. -/
def SharedLog.replay (J : AuditJournal) : SharedLog := J.foldl (fun s e => e.2.perform s) {}

/-- The records appended. -/
def appends (J : AuditJournal) : List AuditEntry :=
  J.filterMap fun e => match e.2 with
    | .append w => some w
    | _ => none

section Replay

variable {J : AuditJournal} {e : AuditEntry}

theorem replay_concat (J : AuditJournal) (k : ℕ) (a : AuditAccess) :
    SharedLog.replay (J ++ [(k, a)]) = a.perform (SharedLog.replay J) := by
  simp [SharedLog.replay]

theorem appends_append (J J' : AuditJournal) : appends (J ++ J') = appends J ++ appends J' :=
  List.filterMap_append

theorem mem_appends : e ∈ appends J ↔ ∃ k, (k, .append e) ∈ J := by
  simp only [appends, List.mem_filterMap]
  constructor
  · rintro ⟨⟨k, a⟩, hmem, ha⟩
    cases a <;> simp at ha
    subst ha
    exact ⟨k, hmem⟩
  · rintro ⟨k, hmem⟩
    exact ⟨(k, .append e), hmem, rfl⟩

theorem drainOps_concat (J : AuditJournal) (k : ℕ) (a : AuditAccess) :
    drainOps (J ++ [(k, a)]) = drainOps J ++ if a = .extend ∨ a = .clear then [a] else [] := by
  by_cases h : a = .extend ∨ a = .clear <;> simp [drainOps, h]

/-- How often a record is in the log, after one more access. -/
def SharedLog.tally (e : AuditEntry) (s : SharedLog) : ℕ × ℕ := (s.buffer.count e, s.shipped.count e)

theorem tally_perform {s : SharedLog} {a : AuditAccess} (h : a ≠ .append e) :
    (a.perform s).tally e = fateStep (s.tally e) a := by
  cases a with
  | append w =>
    have hne : w ≠ e := fun hw => h (by rw [hw])
    simp [AuditAccess.perform, SharedLog.tally, fateStep, hne]
  | extend => simp [AuditAccess.perform, SharedLog.tally, fateStep]
  | clear => simp [AuditAccess.perform, SharedLog.tally, fateStep]
  | sinkUp => rfl
  | len => rfl

/-- A record that was not appended is nowhere. -/
theorem tally_replay_of_notMem (h : e ∉ appends J) : (SharedLog.replay J).tally e = (0, 0) := by
  induction J using List.reverseRecOn with
  | nil => rfl
  | append_singleton J x ih =>
    obtain ⟨k, a⟩ := x
    rw [appends_append, List.mem_append, not_or] at h
    have ha : a ≠ .append e := fun ha => h.2 (by simp [appends, ha])
    rw [replay_concat, tally_perform ha, ih h.1]
    cases a <;> rfl

/-- **What becomes of a record** that was appended once: the drains' steps since then decide. -/
theorem tally_replay {pre post : AuditJournal} {i : ℕ} (hpre : e ∉ appends pre)
    (hpost : e ∉ appends post) :
    (SharedLog.replay (pre ++ (i, .append e) :: post)).tally e = fate (drainOps post) := by
  induction post using List.reverseRecOn with
  | nil =>
    have h := tally_replay_of_notMem hpre
    simp only [SharedLog.tally, Prod.mk.injEq] at h
    rw [replay_concat]
    simp [AuditAccess.perform, SharedLog.tally, h, drainOps, fate]
  | append_singleton post x ih =>
    obtain ⟨k, a⟩ := x
    rw [appends_append, List.mem_append, not_or] at hpost
    have ha : a ≠ .append e := fun ha => hpost.2 (by simp [appends, ha])
    rw [← List.cons_append, ← List.append_assoc, replay_concat, tally_perform ha, ih hpost.1,
      drainOps_concat, fate, fate, List.foldl_append]
    cases a <;> simp [fateStep]

end Replay

/-! ## Runs -/

/-- The log is that of the journal, and each call of `write` appends once. -/
structure Journalled (J : AuditJournal) (s : SharedLog) : Prop where
  log : s = SharedLog.replay J
  numbered : ∀ k e, (k, .append e) ∈ J → e.1 = k
  once : (appends J).Nodup

/-- What the thread `i` has appended. -/
def Appended (i : ℕ) (J : AuditJournal) (_ : SharedLog) : AuditPoint → Prop
  | .append _ => ∀ e ∈ J, e.1 ≠ i
  | .written r => ∀ e, (i, .append e) ∈ J ↔ e = (i, r)
  | _ => ∀ e, (i, .append e) ∉ J

section Runs

variable {i j : ℕ} {J : AuditJournal} {s s' : SharedLog} {p p' q : AuditPoint} {a : AuditAccess}

/-- A step does to the log what its access does. -/
theorem access_perform (h : p.access i s = some (a, p', s')) : s' = a.perform s := by
  unfold AuditPoint.access at h
  split at h <;> cases h <;> rfl

theorem Journalled.access (h : Journalled J s) (hp : Appended i J s p)
    (ha : p.access i s = some (a, p', s')) :
    Journalled (J ++ [(i, a)]) s' ∧ Appended i (J ++ [(i, a)]) s' p' := by
  have hlog : s' = SharedLog.replay (J ++ [(i, a)]) := by
    rw [replay_concat, access_perform ha, h.log]
  cases p with
  | append r =>
    cases ha
    have hnew : ∀ k e, (k, AuditAccess.append e) ∈ J → e ≠ (i, r) := fun k e hk he =>
      hp _ hk ((h.numbered k e hk).symm.trans (by rw [he]))
    refine ⟨⟨hlog, fun k e hk => ?_, ?_⟩, fun e => ?_⟩
    · rcases List.mem_append.mp hk with hk | hk
      · exact h.numbered k e hk
      · cases List.mem_singleton.mp hk
        rfl
    · rw [appends_append]
      refine h.once.append (by simp [appends]) ?_
      intro e he he'
      obtain ⟨k, hk⟩ := mem_appends.mp he
      exact hnew k e hk (by simpa [appends] using he')
    · constructor
      · intro he
        rcases List.mem_append.mp he with he | he
        · exact absurd rfl (hp _ he)
        · cases List.mem_singleton.mp he
          rfl
      · rintro rfl
        exact List.mem_append_right _ (List.mem_singleton_self _)
  | written r => cases ha
  | drained n => cases ha
  | checkSink | count | extend n | clear n =>
    cases ha
    refine ⟨⟨hlog, fun k e hk => ?_, ?_⟩, ?_⟩
    · rcases List.mem_append.mp hk with hk | hk
      · exact h.numbered k e hk
      · cases List.mem_singleton.mp hk
    · rw [appends_append]
      simpa [appends] using h.once
    · have hnone : ∀ e, (i, AuditAccess.append e) ∉ J := hp
      have hnext (b : AuditAccess) (hb : ∀ e, AuditAccess.append e ≠ b) :
          ∀ e, (i, AuditAccess.append e) ∉ J ++ [(i, b)] := fun e => by simp [hnone e, hb e]
      first
        | exact hnext _ (by simp)
        | split <;> exact hnext _ (by simp)

/-- A step of another thread. -/
theorem Appended.other (h : Appended j J s q) (hij : i ≠ j) (a : AuditAccess) (s' : SharedLog) :
    Appended j (J ++ [(i, a)]) s' q := by
  have hmem : ∀ b, (j, b) ∈ J ++ [(i, a)] ↔ (j, b) ∈ J := fun b => by
    simp [Ne.symm hij]
  cases q with
  | append r =>
    intro e he
    rcases List.mem_append.mp he with he | he
    · exact h e he
    · rw [List.mem_singleton.mp he]
      exact hij
  | written r => exact fun e => (hmem _).trans (h e)
  | checkSink | count | extend n | clear n | drained n => exact fun e he => h e ((hmem _).mp he)

theorem AuditPool.journalled {es : List (Pool.Event AuditCall Unit)} {c : AuditPool}
    (h : Runs.run AuditPool.next { shared := {} } es = some c) :
    Pool.Annotated Journalled Appended c := by
  refine Pool.invariant ?_ (fun i J s x p a p' s' hJ hp ha => hJ.access hp ha) ?_
    (Pool.annotated_init ⟨rfl, fun k e hk => (List.not_mem_nil hk).elim, List.nodup_nil⟩) h
  · intro i J s call _ hnew
    cases call with
    | write r => exact hnew
    | drain => exact fun e he => hnew _ he rfl
  · intro i j J s x p a p' s' q hij _ _ _ hq
    exact hq.other hij a s'

end Runs

namespace AuditPool

/-- No drain is in progress. -/
def Idle (c : AuditPool) : Prop :=
  ∀ p ∈ c.threads, (∃ r, p = .append r) ∨ (∃ r, p = .written r) ∨ ∃ n, p = .drained n

/-- A record that was appended is the one of a completed write. -/
theorem written_of_append {c : AuditPool} (h : Pool.Annotated Journalled Appended c) {i : ℕ}
    {e : AuditEntry} (he : (i, .append e) ∈ c.journal) :
    ∃ r, c.threads[i]? = some (.written r) ∧ e = (i, r) := by
  have hlt : i < c.threads.length := h.known _ he
  have hget := List.getElem?_eq_getElem hlt
  have hp := h.threads hget
  cases hpoint : c.threads[i] with
  | written r =>
    rw [hpoint] at hp
    exact ⟨r, by rw [hget, hpoint], (hp e).mp he⟩
  | append r =>
    rw [hpoint] at hp
    exact absurd rfl (hp _ he)
  | checkSink | count | extend n | clear n | drained n =>
    rw [hpoint] at hp
    exact absurd he (hp e)

/-- What becomes of a record, by what the drains did since its append. -/
theorem tally_eq_fate {c : AuditPool} (h : Pool.Annotated Journalled Appended c)
    {pre post : AuditJournal} {i : ℕ} {e : AuditEntry}
    (hJ : c.journal = pre ++ (i, .append e) :: post) : c.shared.tally e = fate (drainOps post) := by
  have honce := h.shared.once
  have hsplit : appends ((i, .append e) :: post) = e :: appends post := rfl
  rw [hJ, appends_append, hsplit, List.nodup_append] at honce
  obtain ⟨-, hpost, hdisjoint⟩ := honce
  rw [h.shared.log, hJ]
  exact tally_replay (fun he => hdisjoint e he e List.mem_cons_self rfl)
    (List.nodup_cons.mp hpost).1

/-- **The records are accounted for exactly when the drains extend and clear in turn after each
append.** This holds in every state that a run reaches, whether or not a drain is in progress. -/
theorem accounted_iff (es : List (Pool.Event AuditCall Unit)) (c : AuditPool)
    (h : Runs.run AuditPool.next { shared := {} } es = some c) :
    c.Accounted ↔ DrainedInOrder c.journal := by
  have hjournal := journalled h
  have hops (post : AuditJournal) : ∀ a ∈ drainOps post, a = .extend ∨ a = .clear := fun a ha => by
    simpa [drainOps] using (List.mem_filter.mp ha).2
  constructor
  · rintro ⟨hheld, hnodup⟩ pre i e post hJ
    have hmem : (i, AuditAccess.append e) ∈ c.journal := by
      rw [hJ]
      simp
    obtain ⟨r, hi, rfl⟩ := written_of_append hjournal hmem
    have htally := tally_eq_fate hjournal hJ
    rw [← fate_iff (hops post), ← htally]
    refine ⟨?_, List.nodup_iff_count_le_one.mp hnodup _⟩
    rcases hheld i r hi with hm | hm
    · have := List.count_pos_iff.mpr hm
      simp only [SharedLog.tally]
      omega
    · have := List.count_pos_iff.mpr hm
      simp only [SharedLog.tally]
      omega
  · intro hordered
    have hfate : ∀ pre i e post, c.journal = pre ++ (i, AuditAccess.append e) :: post →
        1 ≤ c.shared.buffer.count e + c.shared.shipped.count e ∧ c.shared.shipped.count e ≤ 1 := by
      intro pre i e post hJ
      have htally := tally_eq_fate hjournal hJ
      have hok := (fate_iff (hops post)).mpr (hordered pre i e post hJ)
      rw [← htally] at hok
      exact hok
    refine ⟨fun i r hi => ?_, List.nodup_iff_count_le_one.mpr fun e => ?_⟩
    · have hmem : (i, AuditAccess.append (i, r)) ∈ c.journal := (hjournal.threads hi _).mpr rfl
      obtain ⟨pre, post, hJ⟩ := List.append_of_mem hmem
      have hcount := (hfate pre i (i, r) post hJ).1
      by_contra hnot
      rw [not_or] at hnot
      rw [List.count_eq_zero_of_not_mem hnot.1, List.count_eq_zero_of_not_mem hnot.2] at hcount
      omega
    · by_cases hmem : e ∈ appends c.journal
      · obtain ⟨k, hk⟩ := mem_appends.mp hmem
        obtain ⟨pre, post, hJ⟩ := List.append_of_mem hk
        exact (hfate pre k e post hJ).2
      · have hzero := tally_replay_of_notMem hmem
        rw [← hjournal.shared.log] at hzero
        simp only [SharedLog.tally, Prod.mk.injEq] at hzero
        omega

/-- A record without members. -/
def emptyRecord : JsonObject := ⟨[], rfl⟩

/-- A record is appended between the `extend` and the `clear` of a drain. -/
def lateAppend : List (Pool.Event AuditCall Unit) :=
  [.start (.write emptyRecord), .step 0 (), .start .drain, .step 1 (), .step 1 (), .step 1 (),
    .start (.write emptyRecord), .step 2 (), .step 1 ()]

theorem lateAppend_run : ∃ c, Runs.run AuditPool.next { shared := {} } lateAppend = some c ∧
    c.threads = [.written emptyRecord, .drained 1, .written emptyRecord] ∧ c.shared.buffer = [] ∧
    c.shared.shipped = [(0, emptyRecord)] := by
  refine ⟨_, rfl, rfl, rfl, rfl⟩

/-- It is in neither list, with no drain in progress. -/
theorem lateAppend_lost :
    ¬ ∀ es c, Runs.run AuditPool.next { shared := {} } es = some c → c.Idle → c.Accounted := by
  intro h
  obtain ⟨c, hrun, hthreads, hbuffer, hshipped⟩ := lateAppend_run
  have hidle : c.Idle := by
    unfold Idle
    rw [hthreads]
    simp
  have hheld := (h _ c hrun hidle).1 2 emptyRecord (by rw [hthreads]; rfl)
  rw [hbuffer, hshipped] at hheld
  simp at hheld

/-- The drain of that run is out of turn for the second record. -/
theorem accounted_iff_late :
    ∃ c, Runs.run AuditPool.next { shared := {} } lateAppend = some c ∧
      ¬ DrainedInOrder c.journal := by
  obtain ⟨c, hrun, hthreads, hbuffer, hshipped⟩ := lateAppend_run
  refine ⟨c, hrun, fun hordered => ?_⟩
  have hheld := ((accounted_iff _ c hrun).mpr hordered).1 2 emptyRecord (by rw [hthreads]; rfl)
  rw [hbuffer, hshipped] at hheld
  simp at hheld

end AuditPool
