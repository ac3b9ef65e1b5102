import PreauthGateway.Program.Machine
import PreauthGateway.Shipping.Deletion

/-!
# The order of replay

Records are appended to the segmented log, the process ends and is started again, and truncations
delete segments by any watermark. The segments are read in the order of their names, which up to
eight digits is that of their numbers, and the numbers only grow: an append goes to the last segment
or opens the next one, a restart resumes the last one, and a truncation leaves it. So the records
are read in the order in which they were appended, less those of the deleted segments.

## Main definitions

* `LogRun`, `LogRun.Action`, `LogRun.perform`: the runs of a log, with what was written, created,
  deleted
* `LogRun.Ordered`: the invariant

## Main results

* `flatMap_filter_of_sorted`: labelled entries in order are those of each label in turn
* `LogRun.ordered_after`: the invariant holds after every run
* `LogRun.replays_in_order`: **the log replays in append order**
-/

open Json

/-! ## Entries in the order of their labels -/

section Sorted

variable {κ β : Type*} [LinearOrder κ] {l : List (κ × β)}

/-- In a list in order, the entries with smaller labels come first. -/
theorem filter_append_filter_of_sorted (hl : l.Pairwise fun p q => p.1 ≤ q.1) {P Q : κ → Prop}
    [DecidablePred P] [DecidablePred Q] (hPQ : ∀ a b, P a → Q b → a < b) :
    l.filter (fun p => P p.1) ++ l.filter (fun p => Q p.1) =
      l.filter fun p => P p.1 ∨ Q p.1 := by
  induction l with
  | nil => rfl
  | cons p l ih =>
    obtain ⟨hp, hl⟩ := List.pairwise_cons.mp hl
    have ih := ih hl
    by_cases hP : P p.1
    · have hQ : ¬ Q p.1 := fun hQ => absurd (hPQ _ _ hP hQ) (lt_irrefl _)
      simp [hP, hQ, ih]
    · by_cases hQ : Q p.1
      · have hnone : l.filter (fun q => P q.1) = [] := by
          rw [List.filter_eq_nil_iff]
          intro q hq hPq
          exact absurd (hPQ _ _ (of_decide_eq_true hPq) hQ) (not_lt_of_ge (hp q hq))
        rw [hnone, List.nil_append] at ih
        simp [hP, hQ, ih, hnone]
      · simp [hP, hQ, ih]

/-- **Labelled entries in order** are those of each label in turn. -/
theorem flatMap_filter_of_sorted (hl : l.Pairwise fun p q => p.1 ≤ q.1) {ns : List κ}
    (hns : ns.Pairwise (· < ·)) :
    (ns.flatMap fun n => l.filter fun p => p.1 = n) = l.filter fun p => p.1 ∈ ns := by
  induction ns with
  | nil => simp
  | cons n ns ih =>
    obtain ⟨hn, hns⟩ := List.pairwise_cons.mp hns
    rw [List.flatMap_cons, ih hns, filter_append_filter_of_sorted hl (P := fun m => m = n)
      (Q := fun m => m ∈ ns) fun a b ha hb => ha ▸ hn b hb]
    simp only [List.mem_cons]

end Sorted

/-! ## Runs of a log -/

/-- A log and its history: the records appended, each with the segment that was active; the segments
that appeared; and those that disappeared. -/
structure LogRun where
  wal : SegmentedWal
  written : List (ℕ × JsonObject) := []
  created : List ℕ := []
  deleted : List ℕ := []

namespace LogRun

/-- What happens to a log and its directory. -/
inductive Action
  | append (r : JsonObject)
  /-- A clean close or a crash of the process, and a new log on the files: every append was flushed. -/
  | reopen (config : SegmentConfig)
  /-- `Shipper.truncate`, with this watermark file. -/
  | truncate (watermark : Option Bytes)

/-- The segments of `d` that are not in `d'`. -/
def missing (d d' : SegmentDir) : List ℕ := d.keys.filter fun n => n ∉ d'

/-- The log becomes `w`; what appears and disappears is noted. -/
def become (s : LogRun) (w : SegmentedWal) : LogRun where
  wal := w
  written := s.written
  created := s.created ++ missing w.dir s.wal.dir
  deleted := s.deleted ++ missing s.wal.dir w.dir

/-- One action, and what it raises. The sink has no part in a truncation. -/
def perform (s : LogRun) : Action → Option PyError × LogRun
  | .append r =>
    (none, { s with written := s.written ++ [(s.wal.activeSegment, r)] }.become (s.wal.append r))
  | .reopen config => (none, s.become (SegmentedWal.openAt config s.wal.dir))
  | .truncate watermark =>
    match Prog.exec (Shipping.serve .accepting) Shipper.truncate { wal := s.wal, watermark } with
    | (.ok _, t) => (none, s.become t.wal)
    | (.error e, t) => (some e, s.become t.wal)

/-- A new log on an empty directory. -/
def init (config : SegmentConfig) : LogRun :=
  LogRun.become { wal := { config, seq := 0, dir := ∅ } } (SegmentedWal.openAt config ∅)

/-- The numbers of the segments have at most eight digits. -/
def EightDigits (s : LogRun) : Prop := ∀ n ∈ s.wal.dir, n < 10 ^ 8

/-- The segment numbers only grow, every segment holds what was written to it, and what was created
is there unless it was deleted. -/
structure Ordered (s : LogRun) : Prop where
  numbered : s.wal.WellNumbered
  positive : 0 < s.wal.seq
  contents : ∀ n ∈ s.wal.dir, s.wal.segment n =
    logBytes ((s.written.filter fun p => p.1 = n).map Prod.snd)
  sorted : s.written.Pairwise fun p q => p.1 ≤ q.1
  home : ∀ p ∈ s.written, p.1 ∈ s.created
  once : s.created.Nodup
  grown : ∀ n ∈ s.created, n ≤ s.wal.seq
  lost : ∀ n ∈ s.deleted, n ∈ s.created
  present : ∀ n, n ∈ s.wal.dir ↔ n ∈ s.created ∧ n ∉ s.deleted

theorem mem_missing {d d' : SegmentDir} {n : ℕ} : n ∈ missing d d' ↔ n ∈ d ∧ n ∉ d' := by
  simp [missing, AList.mem_keys]

section Ordered

variable {s : LogRun} {w : SegmentedWal}

/-- The log becomes another one, in which the segments that are new have new numbers. -/
theorem Ordered.become (h : s.Ordered) (hw : w.WellNumbered) (hseq : s.wal.seq ≤ w.seq)
    (hnew : ∀ n ∈ w.dir, n ∉ s.wal.dir → n ∉ s.created)
    {written : List (ℕ × JsonObject)}
    (hcontents : ∀ n ∈ w.dir, w.segment n =
      logBytes ((written.filter fun p => p.1 = n).map Prod.snd))
    (hsorted : written.Pairwise fun p q => p.1 ≤ q.1) (hhome : ∀ p ∈ written, p.1 ∈ s.created) :
    ({ s with written := written }.become w).Ordered where
  numbered := hw
  positive := Nat.lt_of_lt_of_le h.positive hseq
  contents := hcontents
  sorted := hsorted
  home p hp := List.mem_append_left _ (hhome p hp)
  once := by
    -- a new segment has a number that none had before
    refine h.once.append ((AList.keys_nodup _).filter _) fun n hn hn' => ?_
    obtain ⟨hdir, hold⟩ := mem_missing.mp hn'
    exact hnew n hdir hold hn
  grown n hn := by
    rcases List.mem_append.mp hn with hn | hn
    · exact Nat.le_trans (h.grown n hn) hseq
    · exact hw.last n (mem_missing.mp hn).1
  lost n hn := by
    rcases List.mem_append.mp hn with hn | hn
    · exact List.mem_append_left _ (h.lost n hn)
    · exact List.mem_append_left _ ((h.present n).mp (mem_missing.mp hn).1).1
  present n := by
    have hpresent := h.present n
    have hcreated : n ∈ s.created ++ missing w.dir s.wal.dir ↔
        n ∈ s.created ∨ n ∈ w.dir ∧ n ∉ s.wal.dir := by rw [List.mem_append, mem_missing]
    have hdeleted : n ∈ s.deleted ++ missing s.wal.dir w.dir ↔
        n ∈ s.deleted ∨ n ∈ s.wal.dir ∧ n ∉ w.dir := by rw [List.mem_append, mem_missing]
    have hn := hnew n
    have hl := h.lost n
    show n ∈ w.dir ↔ _
    rw [LogRun.become, hcreated, hdeleted]
    tauto

/-- What a segment of the log holds, also one that is not there yet. -/
theorem Ordered.segment_eq (h : s.Ordered) {n : ℕ} (hn : n ∈ s.wal.dir ∨ n ∉ s.created) :
    s.wal.segment n = logBytes ((s.written.filter fun p => p.1 = n).map Prod.snd) := by
  rcases hn with hn | hn
  · exact h.contents n hn
  · have hdir : n ∉ s.wal.dir := fun hmem => hn ((h.present n).mp hmem).1
    have hnone : s.written.filter (fun p => p.1 = n) = [] := by
      rw [List.filter_eq_nil_iff]
      intro p hp hpn
      exact hn (of_decide_eq_true hpn ▸ h.home p hp)
    rw [hnone, SegmentedWal.segment, AList.lookup_eq_none.mpr hdir, List.map_nil, logBytes_nil]
    rfl

/-- **An append** goes to the last segment. -/
theorem Ordered.append (h : s.Ordered) (r : JsonObject) :
    (s.perform (.append r)).2.Ordered := by
  have hw := h.numbered
  have hactive : s.wal.seq ∈ s.created := ((h.present _).mp hw.active).1
  have hseq := SegmentedWal.seq_append hw.linked r
  have hnew : ∀ n ∈ (s.wal.append r).dir, n ∉ s.wal.dir → n ∉ s.created := by
    intro n hn hold hc
    have hle := h.grown n hc
    rcases (SegmentedWal.mem_append hw.linked r).mp hn with hn | rfl | rfl
    · exact hold hn
    · exact hold hw.active
    · rcases hseq with e | e
      · exact hold (e ▸ hw.active)
      · omega
  refine h.become (hw.append r) (by omega) hnew (fun n hn => ?_) ?_ ?_
  · have hheld := h.segment_eq (n := n) (by
      by_cases hold : n ∈ s.wal.dir
      · exact Or.inl hold
      · exact Or.inr (hnew n hn hold))
    rw [SegmentedWal.segment_append hw.linked, hheld, List.filter_append, List.map_append,
      logBytes_append]
    by_cases he : n = s.wal.seq
    · simp [he, SegmentedWal.activeSegment]
    · simp [he, Ne.symm he, SegmentedWal.activeSegment, logBytes_nil]
  · refine List.pairwise_append.mpr ⟨h.sorted, List.pairwise_singleton _ _, ?_⟩
    intro p hp q hq
    rw [List.mem_singleton.mp hq]
    exact h.grown p.1 (h.home p hp)
  · intro p hp
    rcases List.mem_append.mp hp with hp | hp
    · exact h.home p hp
    · rw [List.mem_singleton.mp hp]
      exact hactive

/-- A log that has only lost segments. -/
theorem Ordered.shrink (h : s.Ordered) (hw : w.WellNumbered) (hseq : w.seq = s.wal.seq)
    (hdir : ∀ n ∈ w.dir, n ∈ s.wal.dir ∧ w.segment n = s.wal.segment n) :
    (s.become w).Ordered := by
  refine h.become hw (le_of_eq hseq.symm) (fun n hn hold => absurd (hdir n hn).1 hold)
    (fun n hn => ?_) h.sorted h.home
  rw [(hdir n hn).2, h.contents n (hdir n hn).1]

/-- **A restart** resumes the last segment. -/
theorem Ordered.reopen (h : s.Ordered) (hdigits : s.EightDigits) (config : SegmentConfig) :
    (s.perform (.reopen config)).2.Ordered := by
  have hopen := SegmentedWal.openAt_dir h.numbered (hdigits _ h.numbered.active) h.positive config
  rw [perform, hopen]
  exact h.shrink ⟨rfl, h.numbered.active, h.numbered.last⟩ rfl fun n hn => ⟨hn, rfl⟩

/-- **A truncation** leaves the last segment. -/
theorem Ordered.truncate (h : s.Ordered) (watermark : Option Bytes) :
    (s.perform (.truncate watermark)).2.Ordered := by
  obtain ⟨ds, st, hexec, hds⟩ :=
    Shipping.exec_truncate_reclaims .accepting { wal := s.wal, watermark }
  have hstate : (s.perform (.truncate watermark)).2 = s.become (s.wal.unlinkAll ds) := by
    rw [perform]
    -- the same files are gone whether it returns or raises
    split
    · rename_i hresult
      rw [hresult] at hexec
      exact congrArg (fun t : World => s.become t.wal) hexec
    · rename_i hresult
      rw [hresult] at hexec
      exact congrArg (fun t : World => s.become t.wal) hexec
  rw [hstate]
  refine h.shrink (h.numbered.unlinkAll fun hn => (hds _ hn).2 rfl)
    (SegmentedWal.seq_unlinkAll s.wal ds) fun n hn => ?_
  obtain ⟨hnot, hn⟩ := SegmentedWal.mem_unlinkAll.mp hn
  exact ⟨hn, SegmentedWal.segment_unlinkAll hnot⟩

theorem Ordered.perform (h : s.Ordered) (hdigits : s.EightDigits) (a : Action) :
    (s.perform a).2.Ordered := by
  cases a with
  | append r => exact h.append r
  | reopen config => exact h.reopen hdigits config
  | truncate watermark => exact h.truncate watermark

end Ordered

theorem ordered_init (config : SegmentConfig) : (init config).Ordered := by
  have hcreated : (init config).created = [1] := rfl
  have hdir (n : ℕ) : n ∈ (init config).wal.dir ↔ n = 1 := by
    show n ∈ (SegmentedWal.openAt config ∅).dir ↔ n = 1
    rw [SegmentedWal.openAt_empty, AList.mem_insert]
    exact or_iff_left (AList.notMem_empty n)
  exact {
    numbered := SegmentedWal.openAt_empty_wellNumbered config
    positive := Nat.one_pos
    contents := fun n _ => SegmentedWal.segment_openAt config ∅ n
    sorted := List.Pairwise.nil
    home := fun p hp => by cases hp
    once := by rw [hcreated]; exact List.nodup_singleton 1
    grown := fun n hn => by rw [hcreated, List.mem_singleton] at hn; exact le_of_eq hn
    lost := fun n hn => by cases hn
    present := fun n => by
      rw [hdir, hcreated, List.mem_singleton]
      exact (and_iff_left List.not_mem_nil).symm }

/-- The invariant holds after every run whose segment numbers have at most eight digits. -/
theorem ordered_after (config : SegmentConfig) {as : List Action}
    (h : Machine.Along perform (fun s _ => s.EightDigits) (init config) as) :
    (Machine.after perform (init config) as).Ordered :=
  Machine.invariant (fun _ a hs hdigits => hs.perform hdigits a) (ordered_init config) h

/-- The records of the segments that were not deleted, in the order in which they were appended. -/
theorem Ordered.records {s : LogRun} (h : s.Ordered) (hdigits : s.EightDigits) :
    s.wal.records =
      .ok ((s.written.filter fun p => p.1 ∉ s.deleted).map fun p => p.2.toJson) := by
  have hread : ∀ n ∈ segments s.wal.dir, SegmentedWal.readSegment (s.wal.segment n) =
      .ok (((s.written.filter fun p => p.1 = n)).map fun p => p.2.toJson) := by
    intro n hn
    rw [h.contents n (mem_segments.mp hn), SegmentedWal.readSegment_logBytes, List.map_map]
    rfl
  rw [SegmentedWal.records, SegmentedWal.readSegments_eq hread, ← List.map_flatMap,
    flatMap_filter_of_sorted h.sorted (sortedLE_segments hdigits)]
  -- a record is in a segment that is there unless it was deleted
  have hkept : ∀ p ∈ s.written, decide (p.1 ∈ segments s.wal.dir) = decide (p.1 ∉ s.deleted) := by
    intro p hp
    rw [decide_eq_decide, mem_segments, h.present]
    exact and_iff_right (h.home p hp)
  rw [List.filter_congr hkept]

/-- The records that a run appends. -/
def appends (as : List Action) : List JsonObject :=
  as.filterMap fun a => match a with
    | .append r => some r
    | _ => none

theorem written_after (config : SegmentConfig) (as : List Action) :
    (Machine.after perform (init config) as).written.map Prod.snd = appends as := by
  induction as using List.reverseRecOn with
  | nil => rfl
  | append_singleton as a ih =>
    rw [Machine.after_concat, appends, List.filterMap_append, ← appends, ← ih]
    cases a with
    | append r => simp [perform, become]
    | reopen config' => simp [perform, become]
    | truncate watermark =>
      rw [perform]
      split <;> simp [become]

/-- **The log replays in append order.** Records are appended, the process closes or crashes and
opens the directory again, and truncations run with any watermark; no segment number has nine
digits. Then `records` returns what was appended, less the records of the deleted segments, in that
order; the active segment is there and is the last one, and a new log on the directory resumes it;
no two segments ever had the same number, and those created are there unless they were deleted. -/
theorem replays_in_order (config : SegmentConfig) (as : List Action)
    (h : Machine.Along perform (fun s _ => s.EightDigits) (init config) as)
    (hlast : (Machine.after perform (init config) as).EightDigits) :
    let s := Machine.after perform (init config) as
    s.written.map Prod.snd = appends as ∧
      s.wal.records =
        .ok ((s.written.filter fun p => p.1 ∉ s.deleted).map fun p => p.2.toJson) ∧
      s.wal.activeSegment ∈ s.wal.dir ∧ (∀ n ∈ s.wal.dir, n ≤ s.wal.activeSegment) ∧
      (∀ config', (SegmentedWal.openAt config' s.wal.dir).activeSegment = s.wal.activeSegment ∧
        (SegmentedWal.openAt config' s.wal.dir).dir = s.wal.dir) ∧
      s.created.Nodup ∧ ∀ n, n ∈ s.wal.dir ↔ n ∈ s.created ∧ n ∉ s.deleted := by
  intro s
  have hs : s.Ordered := ordered_after config h
  refine ⟨written_after config as, hs.records hlast, hs.numbered.active, hs.numbered.last,
    fun config' => ?_, hs.once, hs.present⟩
  rw [SegmentedWal.openAt_dir hs.numbered (hlast _ hs.numbered.active) hs.positive config']
  exact ⟨rfl, rfl⟩

/-! ### Short runs -/

/-- An action opens at most one more segment. -/
theorem Ordered.seq_perform {s : LogRun} (h : s.Ordered) (hdigits : s.EightDigits) (a : Action) :
    (s.perform a).2.wal.seq ≤ s.wal.seq + 1 := by
  cases a with
  | append r =>
    have hseq : (s.perform (.append r)).2.wal.seq = (s.wal.append r).seq := rfl
    have := SegmentedWal.seq_append h.numbered.linked r
    omega
  | reopen config =>
    have hopen := SegmentedWal.openAt_dir h.numbered (hdigits _ h.numbered.active) h.positive config
    rw [LogRun.perform, hopen]
    exact Nat.le_succ _
  | truncate watermark =>
    obtain ⟨ds, st, hexec, -⟩ :=
      Shipping.exec_truncate_reclaims .accepting { wal := s.wal, watermark }
    have hseq := (congrArg (fun t : World => t.wal.seq) hexec).trans
      (SegmentedWal.seq_unlinkAll s.wal ds)
    rw [LogRun.perform]
    split <;>
    · rename_i hresult
      rw [hresult] at hseq
      exact le_trans (le_of_eq hseq) (Nat.le_succ _)

/-- A run that is not very long has no segment number of nine digits. -/
theorem eightDigits_of_length (config : SegmentConfig) {as : List Action}
    (h : as.length + 1 < 10 ^ 8) :
    Machine.Along perform (fun s _ => s.EightDigits) (init config) as ∧
      (Machine.after perform (init config) as).EightDigits := by
  have hshort : ∀ bs : List Action, bs.length ≤ as.length →
      (Machine.after perform (init config) bs).Ordered ∧
        (Machine.after perform (init config) bs).wal.seq ≤ bs.length + 1 := by
    intro bs
    induction bs using List.reverseRecOn with
    | nil => exact fun _ => ⟨ordered_init config, le_refl 1⟩
    | append_singleton bs b ih =>
      intro hb
      rw [List.length_append, List.length_singleton] at hb ⊢
      obtain ⟨hs, hseq⟩ := ih (by omega)
      have hdigits : (Machine.after perform (init config) bs).EightDigits := fun n hn => by
        have := hs.numbered.last n hn
        omega
      have hnext := hs.seq_perform hdigits b
      rw [Machine.after_concat]
      exact ⟨hs.perform hdigits b, by omega⟩
  have hdigits (bs : List Action) (hb : bs.length ≤ as.length) :
      (Machine.after perform (init config) bs).EightDigits := fun n hn => by
    obtain ⟨hs, hseq⟩ := hshort bs hb
    have := hs.numbered.last n hn
    omega
  refine ⟨fun pre a post he => hdigits pre ?_, hdigits as le_rfl⟩
  rw [he, List.length_append]
  exact Nat.le_add_right _ _

/-- A record, a truncation by a watermark that has its id, a restart, and another record. -/
def restartedLog : List Action :=
  [.append Shipping.namedRecord,
    .truncate (some (Utf8.encode "\x7b\"shipped\": [\"d\"]\x7d".toList)),
    .reopen { segmentBytes := 1 }, .append Shipping.namelessRecord]

/-- The record of the deleted segment is not replayed, and the other is. -/
theorem replays_in_order_restarted :
    (Machine.after perform (init { segmentBytes := 1 }) restartedLog).wal.records =
      .ok [Shipping.namelessRecord.toJson] := by
  have hlength : restartedLog.length + 1 < 10 ^ 8 := by decide
  have hdigits := eightDigits_of_length { segmentBytes := 1 } hlength
  have hkept : ((Machine.after perform (init { segmentBytes := 1 }) restartedLog).written.filter
      fun p => p.1 ∉ (Machine.after perform (init { segmentBytes := 1 }) restartedLog).deleted) =
        [(2, Shipping.namelessRecord)] := by decide +kernel
  rw [(replays_in_order { segmentBytes := 1 } restartedLog hdigits.1 hdigits.2).2.1, hkept]
  rfl

end LogRun
