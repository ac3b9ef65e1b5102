import PreauthGateway.Wal.AuditWal

/-!
# A durable audit log over crashes

A `DurableAuditLog` writes, drains and has its sink fail and come back; a crash of the process loses
the buffer and nothing else, and the restart opens the same file with the shipped records carried
over.

## Main definitions

* `LogAction`, `DurableAuditLog.perform`, `DurableAuditLog.after`: what can happen to a log
* `written`: the records written by a list of actions
* `DurableAuditLog.Journals`: the file holds the records written, and what is shipped or buffered is
  among them
* `JsonObject.Identified`, `DistinctIds`: ids that a set finds again, and that tell records apart

## Main results

* `DurableAuditLog.journals_after`: every run keeps the invariant
* `DurableAuditLog.recover_eq`: what `recover` returns
* `DurableAuditLog.nothing_lost`: a crash loses nothing that was written
-/

open Json

/-- What can happen to a log: a crash reopens the file with the settings of the restart. -/
inductive LogAction
  | write (c : AppendClock) (record : JsonObject)
  | drain
  | setSink (up : Bool)
  | crash (config : WalConfig) (now : ℚ)

/-- The records written by a list of actions, in the order of the writes. -/
def written : List LogAction → List JsonObject :=
  List.filterMap fun
    | .write _ record => some record
    | .drain | .setSink _ | .crash _ _ => none

theorem written_append (as bs : List LogAction) : written (as ++ bs) = written as ++ written bs :=
  List.filterMap_append

namespace DurableAuditLog

/-- `DurableAuditLog(AuditWal(path, …))` on a file that holds `file`. -/
def openAt (config : WalConfig) (now : ℚ) (file : Bytes) : DurableAuditLog :=
  { wal := .openAt config now file }

/-- The log after an action. -/
def perform (d : DurableAuditLog) : LogAction → DurableAuditLog
  | .write c record => d.write c record
  | .drain => d.drain.2
  | .setSink up => { d with sinkUp := up }
  | .crash config now => { openAt config now d.wal.file with shipped := d.shipped }

/-- The log after a list of actions. -/
def after (d : DurableAuditLog) (as : List LogAction) : DurableAuditLog := as.foldl perform d

@[simp] theorem after_nil (d : DurableAuditLog) : d.after [] = d := rfl

@[simp] theorem after_concat (d : DurableAuditLog) (as : List LogAction) (a : LogAction) :
    d.after (as ++ [a]) = (d.after as).perform a := by
  simp [after]

/-! ## The invariant -/

/-- The file holds the records `rs`, and what is shipped or buffered is among them, in order. -/
structure Journals (d : DurableAuditLog) (rs : List JsonObject) : Prop where
  file : d.wal.file = logBytes rs
  sublist : (d.shipped ++ d.buffer).Sublist rs

section Journals

variable {d : DurableAuditLog} {rs : List JsonObject}

theorem Journals.write (h : d.Journals rs) (c : AppendClock) (r : JsonObject) :
    (d.write c r).Journals (rs ++ [r]) where
  file := by
    rw [DurableAuditLog.write, AuditWal.file_append, h.file, ← logBytes_append]
  sublist := by
    rw [DurableAuditLog.write, ← List.append_assoc]
    exact h.sublist.append (List.Sublist.refl [r])

theorem Journals.drain (h : d.Journals rs) : d.drain.2.Journals rs := by
  unfold DurableAuditLog.drain
  split
  · refine ⟨h.file, ?_⟩
    rw [List.append_nil]
    exact h.sublist
  · exact h

theorem Journals.crash (h : d.Journals rs) (config : WalConfig) (now : ℚ) :
    (d.perform (.crash config now)).Journals rs where
  file := h.file
  sublist := by
    change (d.shipped ++ []).Sublist rs
    rw [List.append_nil]
    exact (List.sublist_append_left _ _).trans h.sublist

theorem Journals.perform (h : d.Journals rs) (a : LogAction) :
    (d.perform a).Journals (rs ++ written [a]) := by
  cases a with
  | write c r => exact h.write c r
  | drain =>
    rw [written, List.filterMap_cons, List.filterMap_nil, List.append_nil]
    exact h.drain
  | setSink up =>
    rw [written, List.filterMap_cons, List.filterMap_nil, List.append_nil]
    exact ⟨h.file, h.sublist⟩
  | crash config now =>
    rw [written, List.filterMap_cons, List.filterMap_nil, List.append_nil]
    exact h.crash config now

end Journals

theorem journals_openAt (config : WalConfig) (now : ℚ) : (openAt config now []).Journals [] :=
  ⟨rfl, List.Sublist.refl []⟩

/-- **Every run of a log that starts with no file keeps the invariant.** -/
theorem journals_after (config : WalConfig) (now : ℚ) (as : List LogAction) :
    ((openAt config now []).after as).Journals (written as) := by
  induction as using List.reverseRecOn with
  | nil => exact journals_openAt config now
  | append_singleton as a ih =>
    rw [after_concat, written_append]
    exact ih.perform a

end DurableAuditLog

/-! ## What is recovered -/

/-- The id of the record can be looked up in a set and is found there again. A `NaN` that was read
back is not the one that was written. -/
def JsonObject.Identified (r : JsonObject) : Prop := ∃ k, r.decisionId.key = some k ∧ k ≠ .nan

theorem JsonObject.Identified.hashable {r : JsonObject} (h : r.Identified) : r.Hashable := by
  obtain ⟨k, hk, -⟩ := h
  rw [Hashable, hk]
  exact Option.some_ne_none k

/-- No two of the records have equal ids. -/
def DistinctIds (rs : List JsonObject) : Prop := (rs.map fun r => r.decisionId.key).Nodup

/-- The id of `r` is the id of one of the records. -/
def JsonObject.SharesId (rs : List JsonObject) (r : JsonObject) : Prop :=
  ∃ s ∈ rs, s.decisionId.key = r.decisionId.key

instance (rs : List JsonObject) (r : JsonObject) : Decidable (r.SharesId rs) :=
  inferInstanceAs (Decidable (∃ s ∈ rs, s.decisionId.key = r.decisionId.key))

namespace DurableAuditLog

variable {d : DurableAuditLog} {rs : List JsonObject}

theorem acked_iff_sharesId {ids : PySet} (hids : PySet.ofList (rs.map JsonObject.decisionId) = some ids)
    {r : JsonObject} (hr : r.Hashable) : r.Acked ids ↔ r.SharesId rs := by
  obtain ⟨k, hk⟩ := Option.ne_none_iff_exists'.mp hr
  rw [JsonObject.acked_iff_of_key hk, PySet.mem_ofList hids, JsonObject.SharesId, hk]
  simp [List.mem_map]

/-- What `records` returns. -/
theorem records_eq (h : d.wal.file = logBytes rs) :
    ∃ w, d.wal.records = .ok (rs.map JsonObject.toJson, w) ∧ w.file = d.wal.file :=
  ⟨_, AuditWal.records_of_file (by rw [h, readLog_logBytes]), rfl⟩

/-- **What `recover` returns**: the records on disk whose id no shipped record has. Nothing but the
counters of the log changes. -/
theorem recover_eq (h : d.Journals rs) (hh : ∀ r ∈ rs, r.Hashable) :
    ∃ w, w.file = d.wal.file ∧ d.recover =
      .ok ((rs.filter fun r => ¬ r.SharesId d.shipped).map JsonObject.toJson,
        { d with wal := w }) := by
  have hshipped : ∀ v ∈ d.shipped.map JsonObject.decisionId, v.key ≠ none := by
    intro v hv
    obtain ⟨r, hr, rfl⟩ := List.mem_map.mp hv
    exact hh r (h.sublist.subset (List.mem_append_left _ hr))
  obtain ⟨ids, hids⟩ := PySet.exists_ofList hshipped
  obtain ⟨w, hw, hfile⟩ := records_eq h.file
  have hfilter : (rs.filter fun r => ¬ r.Acked ids) = rs.filter fun r => ¬ r.SharesId d.shipped := by
    refine List.filter_congr fun r hr => ?_
    simp only [acked_iff_sharesId hids (hh r hr)]
  refine ⟨w, hfile, ?_⟩
  simp only [recover, shippedIds, hids, AuditWal.unshipped, hw, bind, Except.bind, notIn_eq hh,
    hfilter]
  rfl

/-- With distinct ids, the records among `rs` that share an id with one of a part of them are that
part. -/
theorem sharesId_iff_mem {part : List JsonObject} (hd : DistinctIds rs) (hp : part ⊆ rs)
    {r : JsonObject} (hr : r ∈ rs) : r.SharesId part ↔ r ∈ part := by
  constructor
  · rintro ⟨s, hs, he⟩
    exact List.inj_on_of_nodup_map hd (hp hs) hr he ▸ hs
  · intro h
    exact ⟨r, h, rfl⟩

/-- **A crash loses nothing.** In every state of every run of a log with records of distinct ids,
what is buffered or shipped is on disk, `recover` returns the records written whose id is not that
of a shipped one, in the order of the writes, and the buffer is among them and apart from what is
shipped. -/
theorem nothing_lost (config : WalConfig) (now : ℚ) (as : List LogAction)
    (hid : ∀ r ∈ written as, r.Identified) (hd : DistinctIds (written as)) :
    ∃ disk w out d',
      ((openAt config now []).after as).wal.records = .ok (disk, w) ∧
      ((openAt config now []).after as).recover = .ok (out, d') ∧
      (∀ r ∈ ((openAt config now []).after as).buffer ++ ((openAt config now []).after as).shipped,
        r.toJson ∈ disk) ∧
      out = ((written as).filter fun r =>
        ¬ r.SharesId ((openAt config now []).after as).shipped).map JsonObject.toJson ∧
      (∀ r ∈ ((openAt config now []).after as).buffer, r.toJson ∈ out) ∧
      ∀ r ∈ ((openAt config now []).after as).buffer,
        r ∉ ((openAt config now []).after as).shipped := by
  have hj := journals_after config now as
  generalize (openAt config now []).after as = d at hj ⊢
  obtain ⟨w, hw, -⟩ := records_eq hj.file
  obtain ⟨_, -, hr⟩ := recover_eq hj fun r h => (hid r h).hashable
  have hshipped : d.shipped ⊆ written as := fun r h =>
    hj.sublist.subset (List.mem_append_left _ h)
  have hbuffer : d.buffer ⊆ written as := fun r h =>
    hj.sublist.subset (List.mem_append_right _ h)
  -- distinct ids keep the two lists apart
  have hapart : ∀ r ∈ d.buffer, r ∉ d.shipped := by
    intro r hb hs
    have hnodup : (d.shipped ++ d.buffer).Nodup := (List.Nodup.of_map _ hd).sublist hj.sublist
    exact (List.nodup_append.mp hnodup).2.2 r hs r hb rfl
  refine ⟨_, w, _, _, hw, hr, ?_, rfl, ?_, hapart⟩
  · intro r h
    refine List.mem_map_of_mem ?_
    rcases List.mem_append.mp h with h | h
    · exact hbuffer h
    · exact hshipped h
  · intro r h
    refine List.mem_map_of_mem (List.mem_filter.mpr ⟨hbuffer h, ?_⟩)
    simp only [decide_not, Bool.not_eq_true', decide_eq_false_iff_not]
    rw [sharesId_iff_mem hd hshipped (hbuffer h)]
    exact hapart r h

/-- Two records of different ids. -/
def recordA : JsonObject := .withId (PyStr.ofString "a") (by decide +kernel)

def recordB : JsonObject := .withId (PyStr.ofString "b") (by decide +kernel)

/-- The first of two records is shipped, and the process crashes after the second was written. -/
def crashRun : List LogAction :=
  [.write ⟨0, 0, 0, 0⟩ recordA, .drain, .setSink false, .write ⟨0, 0, 0, 0⟩ recordB, .drain,
    .crash {} 0]

/-- After the crash the second record is recovered, and only that one. -/
theorem nothing_lost_two : ∃ d', ((openAt {} 0 []).after crashRun).recover =
    .ok ([recordB.toJson], d') := by
  have hw : written crashRun = [recordA, recordB] := rfl
  have hs : ((openAt {} 0 []).after crashRun).shipped = [recordA] := rfl
  have ha : recordA.decisionId.key = some (.str (PyStr.ofString "a")) := by
    rw [recordA, JsonObject.decisionId_withId]
    rfl
  have hb : recordB.decisionId.key = some (.str (PyStr.ofString "b")) := by
    rw [recordB, JsonObject.decisionId_withId]
    rfl
  have hne : PyStr.ofString "a" ≠ PyStr.ofString "b" := by decide +kernel
  obtain ⟨-, -, out, d', -, hr, -, hout, -, -⟩ := nothing_lost {} 0 crashRun
    (by
      intro r h
      rw [hw] at h
      rcases List.mem_pair.mp h with rfl | rfl
      · exact ⟨_, ha, by simp⟩
      · exact ⟨_, hb, by simp⟩)
    (by simp [DistinctIds, hw, ha, hb, hne])
  refine ⟨d', ?_⟩
  rw [hr, hout, hw, hs]
  simp [JsonObject.SharesId, ha, hb, hne]

end DurableAuditLog
