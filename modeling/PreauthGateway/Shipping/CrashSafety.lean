import PreauthGateway.Shipping.Passes
import PreauthGateway.Wal.Recovery

/-!
# Crash-safe shipping

A record that was appended stays in a segment file until its id is in the durable watermark. This
holds after every step of every run in which the records carry distinct string ids and no append
opens a segment whose number has nine digits: from there on the names are no longer in the order of
the numbers, and a restart may resume an old segment.

An id comes into the watermark only when the sink accepted its record or the process that wrote it
there has the record in its poison list. The next process knows nothing of that list, and writes the
id again with its own. So an id is that of an accepted record, or of the poison list of the process
that wrote the watermark, while no process writes a watermark after a crash that lost a poisoned
record whose id was in it.

## Main definitions

* `Shipping.Fresh`, `Shipping.withinEightDigits`: the condition on the appends
* `Shipping.noneInherited`: the condition on the watermarks
* `Shipping.Attributed`: why an id is in the watermark
* `Shipping.CrashSafe`, `Shipping.Owned`: the invariants
* `Shipping.SafelyShipped`: what they say of the records and of the watermark

## Main results

* `Shipping.crashSafe_run`: the files, under the condition on the appends alone
* `Shipping.crash_safety`: **every record is kept and every id is attributed**
* `Shipping.inherited_id`: a run in which a process writes an id that is not its own
-/

open Json Prog

namespace Shipping

/-- The record carries a string id that no record before it carries. -/
def Fresh (s : World) (r : JsonObject) : Prop :=
  (∃ x, r.decisionId = .str x) ∧ ∀ r' ∈ s.appended, r'.decisionId ≠ r.decisionId

/-- Appends carry fresh ids and open no segment whose number has nine digits. -/
def withinEightDigits : Guard where
  append s r := Fresh s.world r ∧ (s.world.wal.append r).seq < 10 ^ 8

instance (s : World) (r : JsonObject) : Decidable (Fresh s r) := by
  refine @instDecidableAnd _ _ ?_ inferInstance
  exact match r.decisionId with
    | .str x => isTrue ⟨x, rfl⟩
    | .null | .bool _ | .int _ | .float _ | .arr _ | .obj _ => isFalse fun h => by
      obtain ⟨x, hx⟩ := h
      cases hx

instance (s : Shipping) (r : JsonObject) : Decidable (withinEightDigits.append s r) :=
  inferInstanceAs (Decidable (_ ∧ _))

instance (o : Call) (s : World) : Decidable (withinEightDigits.call o s) := isTrue trivial

instance (s : World) : Decidable (withinEightDigits.crash s) := isTrue trivial

/-- No watermark is written after a crash that lost a poisoned record whose id was in the
watermark. -/
def noneInherited : Guard where
  call o s := o = .replaceWatermark → s.stranded = []

instance (o : Call) (s : World) : Decidable (noneInherited.call o s) :=
  if h : s.stranded = [] then isTrue fun _ => h
  else match o with
    | .replaceWatermark => isFalse fun hc => h (hc rfl)
    | .readWatermark | .listSegments | .readSegment _ | .activeSegment | .send _ | .poison _
    | .writeTmp _ | .segmentSize _ | .unlink _ | .count _ _ => isTrue fun hc => by cases hc

instance (s : Shipping) (r : JsonObject) : Decidable (noneInherited.append s r) := isTrue trivial

instance (s : World) : Decidable (noneInherited.crash s) := isTrue trivial

/-- The sink accepted a record with this id. -/
def AcceptedId (s : World) (k : Key) : Prop :=
  ∃ r : JsonObject, r.toJson ∈ s.accepted ∧ r.decisionId.key = some k

/-- A record with this id is in the poison list `ps`. -/
def PoisonedId (ps : List Json) (k : Key) : Prop :=
  ∃ r : JsonObject, r.toJson ∈ ps ∧ r.decisionId.key = some k

/-- The sink accepted a record with this id, or the process that wrote the watermark, which is the
last one written, had a record with this id in its poison list. -/
def Attributed (s : World) (k : Key) : Prop :=
  AcceptedId s k ∨ ∃ w, s.writes.getLast? = some w ∧ s.watermark = some w.1 ∧ PoisonedId w.2 k

/-- The sink accepted a record with this id, or some process had one in its poison list when it
wrote a watermark. -/
def Vouched (s : World) (k : Key) : Prop := AcceptedId s k ∨ ∃ w ∈ s.writes, PoisonedId w.2 k

/-- A segment holds the record. -/
def InSegment (s : World) (r : JsonObject) : Prop :=
  ∃ n rs, s.wal.segment n = logBytes rs ∧ r ∈ rs

/-- Every segment holds whole records of the log. -/
def WholeSegments (s : World) : Prop :=
  ∀ n, ∃ rs, s.wal.segment n = logBytes rs ∧ ∀ r ∈ rs, r ∈ s.appended

/-- The invariant: the log is numbered in order, every record is a whole line or acknowledged, and
the watermark has only ids of records, each of them vouched for. -/
structure CrashSafe (s : World) : Prop where
  numbered : s.wal.WellNumbered
  pos : 0 < s.wal.seq
  eight : s.wal.seq < 10 ^ 8
  whole : WholeSegments s
  marked : ∃ acked, Marked acked s ∧
    (∀ k, acked.Mem k → Vouched s k ∧ ∃ r ∈ s.appended, r.decisionId.key = some k) ∧
    ∀ r ∈ s.appended, r.Acked acked ∨ InSegment s r

section World

variable {s s' : World}

theorem AcceptedId.mono {k : Key} (h : AcceptedId s k) (hs : s.sends <+: s'.sends) :
    AcceptedId s' k := by
  obtain ⟨r, hr, hk⟩ := h
  obtain ⟨t, ht⟩ := hs
  refine ⟨r, ?_, hk⟩
  rw [World.accepted, ← ht, List.flatMap_append]
  exact List.mem_append_left _ hr

theorem PoisonedId.mono {ps ps' : List Json} {k : Key} (h : PoisonedId ps k)
    (hp : ∀ r ∈ ps, r ∈ ps') : PoisonedId ps' k := by
  obtain ⟨r, hr, hk⟩ := h
  exact ⟨r, hp _ hr, hk⟩

theorem Vouched.mono {k : Key} (h : Vouched s k) (hs : s.sends <+: s'.sends)
    (hw : s.writes <+: s'.writes) : Vouched s' k := by
  rcases h with ha | ⟨w, hm, hp⟩
  · exact Or.inl (ha.mono hs)
  · exact Or.inr ⟨w, hw.subset hm, hp⟩

theorem segments_append (h : s.wal.unlinked = none) (hw : WholeSegments s) (r : JsonObject) :
    WholeSegments (s.append r) ∧ InSegment (s.append r) r ∧
      ∀ r', InSegment s r' → InSegment (s.append r) r' := by
  have hseg (n : ℕ) : (s.append r).wal.segment n =
      s.wal.segment n ++ if n = s.wal.seq then logBytes [r] else [] :=
    SegmentedWal.segment_append h r n
  have happ (n : ℕ) (rs : List JsonObject) (hrs : s.wal.segment n = logBytes rs) :
      ∃ rs', (s.append r).wal.segment n = logBytes (rs ++ rs') ∧
        (n = s.wal.seq → rs' = [r]) ∧ ∀ x ∈ rs', x = r := by
    by_cases hn : n = s.wal.seq
    · refine ⟨[r], ?_, fun _ => rfl, by simp⟩
      rw [hseg, if_pos hn, hrs, logBytes_append]
    · refine ⟨[], ?_, fun e => absurd e hn, by simp⟩
      rw [hseg, if_neg hn, hrs, List.append_nil, List.append_nil]
  refine ⟨fun n => ?_, ?_, ?_⟩
  · obtain ⟨rs, hrs, hmem⟩ := hw n
    obtain ⟨rs', hrs', -, hr⟩ := happ n rs hrs
    refine ⟨rs ++ rs', hrs', ?_⟩
    intro x hx
    rcases List.mem_append.mp hx with hx | hx
    · exact List.mem_append_left _ (hmem x hx)
    · rw [hr x hx]
      exact List.mem_append_right _ (by simp)
  · obtain ⟨rs, hrs, -⟩ := hw s.wal.seq
    obtain ⟨rs', hrs', he, -⟩ := happ _ rs hrs
    exact ⟨s.wal.seq, _, hrs', List.mem_append_right _ (by rw [he rfl]; simp)⟩
  · rintro r' ⟨n, rs, hrs, hr'⟩
    obtain ⟨rs', hrs', -, -⟩ := happ n rs hrs
    exact ⟨n, _, hrs', List.mem_append_left _ hr'⟩

/-- What changes no file and only adds to the history keeps the invariant. -/
theorem CrashSafe.mono (h : CrashSafe s) (hwal : s'.wal = s.wal) (hmark : s'.watermark = s.watermark)
    (happ : s'.appended = s.appended) (hs : s.sends <+: s'.sends) (hw : s.writes <+: s'.writes) :
    CrashSafe s' := by
  obtain ⟨acked, hm, hk, hr⟩ := h.marked
  refine ⟨hwal ▸ h.numbered, hwal ▸ h.pos, hwal ▸ h.eight, ?_, acked, ?_, ?_, ?_⟩
  · intro n
    rw [hwal, happ]
    exact h.whole n
  · rw [Marked, hmark]
    exact hm
  · intro k hmem
    rw [happ]
    exact ⟨(hk k hmem).1.mono hs hw, (hk k hmem).2⟩
  · intro r hmem
    rw [happ] at hmem
    refine (hr r hmem).imp id ?_
    rintro ⟨n, rs, hrs, hx⟩
    exact ⟨n, rs, by rw [hwal]; exact hrs, hx⟩

theorem CrashSafe.append (h : CrashSafe s) {r : JsonObject} (h8 : (s.wal.append r).seq < 10 ^ 8) :
    CrashSafe (s.append r) := by
  obtain ⟨acked, hm, hk, hr⟩ := h.marked
  obtain ⟨hw, hin, hold⟩ := segments_append h.numbered.linked h.whole r
  have hseq := SegmentedWal.seq_append h.numbered.linked r
  have hpos : 0 < (s.wal.append r).seq := by
    have := h.pos
    omega
  refine ⟨h.numbered.append r, hpos, h8, hw, acked, hm, ?_, ?_⟩
  · intro k hmem
    obtain ⟨hatt, x, hx, hxk⟩ := hk k hmem
    exact ⟨hatt.mono List.prefix_rfl List.prefix_rfl, x, List.mem_append_left _ hx, hxk⟩
  · intro x hx
    rcases List.mem_append.mp hx with hx | hx
    · exact (hr x hx).imp id (hold x)
    · rw [List.mem_singleton.mp hx]
      exact Or.inr hin

theorem CrashSafe.crash (h : CrashSafe s) : CrashSafe s.crash := by
  obtain ⟨acked, hm, hk, hr⟩ := h.marked
  have hopen := SegmentedWal.openAt_dir h.numbered h.eight h.pos s.wal.config
  have hseg (n : ℕ) : s.crash.wal.segment n = s.wal.segment n := by
    rw [World.crash, hopen]
    rfl
  refine ⟨?_, ?_, ?_, ?_, acked, hm, ?_, ?_⟩
  · rw [World.crash, hopen]
    exact ⟨rfl, h.numbered.active, h.numbered.last⟩
  · rw [World.crash, hopen]
    exact h.pos
  · rw [World.crash, hopen]
    exact h.eight
  · intro n
    rw [hseg]
    exact h.whole n
  · intro k hmem
    exact ⟨(hk k hmem).1.mono List.prefix_rfl List.prefix_rfl, (hk k hmem).2⟩
  · intro r hmem
    refine (hr r hmem).imp id ?_
    rintro ⟨n, rs, hrs, hx⟩
    exact ⟨n, rs, by rw [hseg]; exact hrs, hx⟩

/-- The new watermark adds earned ids to the old one. -/
theorem CrashSafe.replace (h : CrashSafe s) {acked ids : PySet} {newly : List Json} {b : Bytes}
    (hm : Marked acked s) (hn : Earned newly s) (hids : Watermark.setOf newly = .ok ids)
    (hb : Watermark.payload (acked.union ids) = .ok b) (ht : s.tmp = some b) :
    CrashSafe s.replaceWatermark := by
  obtain ⟨acked', hm', hk, hr⟩ := h.marked
  obtain rfl := marked_unique hm hm'
  obtain ⟨acked', hread, hold, hnew⟩ := read_earned hm hn hids hb
  rw [replaceWatermark_eq ht]
  refine ⟨h.numbered, h.pos, h.eight, h.whole, acked', hread, ?_, ?_⟩
  · intro k hkm
    rcases hnew k hkm with hin | ⟨r, hra, hrk, hset⟩
    · exact ⟨(hk k hin).1.mono List.prefix_rfl (List.prefix_append _ _), (hk k hin).2⟩
    · refine ⟨?_, r, hra, hrk⟩
      rcases hset with hacc | hpois
      · exact Or.inl ⟨r, hacc, hrk⟩
      · exact Or.inr ⟨(b, s.poison), List.mem_append_right _ (by simp), r, hpois, hrk⟩
  · intro r hra
    refine (hr r hra).imp ?_ id
    rintro ⟨k, hrk, hkm⟩
    exact ⟨k, hrk, hold k hkm⟩

end World

/-! ## The process beside the shipper -/

/-- One append that meets the condition. -/
def AppendStep (s s' : World) : Prop :=
  ∃ r, Fresh s r ∧ (s.wal.append r).seq < 10 ^ 8 ∧ s' = s.append r

/-- Any number of appends. -/
def Appends : World → World → Prop := Relation.ReflTransGen AppendStep

instance : Std.Refl Appends := ⟨fun _ => Relation.ReflTransGen.refl⟩

instance : IsTrans World Appends := ⟨fun _ _ _ => Relation.ReflTransGen.trans⟩

/-- What one append does not disturb, no number of them disturbs. -/
theorem stable_of_append {Φ : World → Prop}
    (h : ∀ s r, CrashSafe s → Fresh s r → Φ s → Φ (s.append r)) :
    Stable Appends CrashSafe Φ := by
  intro s s' hI hI' hR hs
  clear hI'
  suffices hboth : CrashSafe s' ∧ Φ s' from hboth.2
  induction hR with
  | refl => exact ⟨hI, hs⟩
  | tail _ hstep ih =>
    obtain ⟨r, hf, h8, rfl⟩ := hstep
    exact ⟨ih.1.append h8, h _ r ih.1 hf ih.2⟩

theorem appends_rely {s s' : World} (h : Appends s s') :
    s'.watermark = s.watermark ∧ s'.tmp = s.tmp ∧ s'.sends = s.sends ∧ s'.poison = s.poison ∧
      ∀ r ∈ s.appended, r ∈ s'.appended := by
  induction h with
  | refl => exact ⟨rfl, rfl, rfl, rfl, fun r hr => hr⟩
  | tail _ hstep ih =>
    obtain ⟨r, -, -, rfl⟩ := hstep
    obtain ⟨h₁, h₂, h₃, h₄, h₅⟩ := ih
    exact ⟨h₁, h₂, h₃, h₄, fun x hx => List.mem_append_left _ (h₅ x hx)⟩

/-- **A pass keeps the invariant.** -/
theorem passRules : PassRules withinEightDigits Appends CrashSafe where
  rely _ _ := appends_rely
  whole _ hI := hI.whole
  send _ _ _ hI := hI.mono rfl rfl rfl (List.prefix_append _ _) List.prefix_rfl
  poison _ _ hI _ := hI.mono rfl rfl rfl List.prefix_rfl List.prefix_rfl
  count _ _ _ hI := hI.mono rfl rfl rfl List.prefix_rfl List.prefix_rfl
  writeTmp _ _ hI := hI.mono rfl rfl rfl List.prefix_rfl List.prefix_rfl
  replace _ _ _ _ _ hI _ hm hn hids hb ht := hI.replace hm hn hids hb ht

/-! ## Truncation -/

/-- During a truncation: the watermark that was read is still there, it has only ids of records that
were in the log then, and the segments opened since hold none of them. -/
def Truncating (acked : PySet) (active : ℕ) (s : World) : Prop :=
  Marked acked s ∧ (∀ k, acked.Mem k → ∃ r ∈ s.appended, r.decisionId.key = some k) ∧
    active ≤ s.wal.seq ∧
    ∀ n, active < n → ∀ rs, s.wal.segment n = logBytes rs → ∀ r ∈ rs, ¬ r.Acked acked

/-- A segment that will be deleted is closed, and its records are acknowledged. -/
def Doomed (acked : PySet) (active n : ℕ) (s : World) : Prop :=
  Truncating acked active s ∧ n < s.wal.seq ∧
    ∃ rs, s.wal.segment n = logBytes rs ∧ ∀ r ∈ rs, r.Acked acked

/-- The id of a fresh record is not in a set of ids of earlier records. -/
theorem Fresh.not_acked {s : World} {r : JsonObject} (h : Fresh s r) {acked : PySet}
    (hk : ∀ k, acked.Mem k → ∃ r ∈ s.appended, r.decisionId.key = some k) : ¬ r.Acked acked := by
  rintro ⟨k, hrk, hmem⟩
  obtain ⟨⟨x, hx⟩, hne⟩ := h
  obtain ⟨r', hr', hk'⟩ := hk k hmem
  rw [hx, key_str, Option.some.injEq] at hrk
  rw [← hrk, key_eq_str] at hk'
  exact hne r' hr' (hk'.trans hx.symm)

theorem segment_eq_nil {s : World} (h : CrashSafe s) {n : ℕ} (hn : s.wal.seq < n) :
    s.wal.segment n = [] := by
  have hmem : n ∉ s.wal.dir := fun hm => absurd (h.numbered.last n hm) (Nat.not_le_of_lt hn)
  rw [SegmentedWal.segment, AList.lookup_eq_none.mpr hmem]
  rfl

theorem eq_nil_of_logBytes {rs : List JsonObject} (h : [] = logBytes rs) : rs = [] :=
  (logBytes_injective (logBytes_nil.trans h)).symm

theorem stable_truncating (acked : PySet) (active : ℕ) :
    Stable Appends CrashSafe (Truncating acked active) := by
  apply stable_of_append
  rintro s r hI hf ⟨hm, hk, hle, hopen⟩
  have hseq := SegmentedWal.seq_append hI.numbered.linked r
  refine ⟨hm, ?_, ?_, ?_⟩
  · intro k hmem
    obtain ⟨x, hx, hxk⟩ := hk k hmem
    exact ⟨x, List.mem_append_left _ hx, hxk⟩
  · show active ≤ (s.wal.append r).seq
    omega
  · intro n hn rs hrs x hx
    have hseg : (s.append r).wal.segment n =
        s.wal.segment n ++ if n = s.wal.seq then logBytes [r] else [] :=
      SegmentedWal.segment_append hI.numbered.linked r n
    obtain ⟨rs₀, hrs₀, -⟩ := hI.whole n
    rw [hseg, hrs₀] at hrs
    split at hrs
    · -- the new record lies in the active segment, and its id is fresh
      rw [← logBytes_append] at hrs
      rw [← logBytes_injective hrs] at hx
      rcases List.mem_append.mp hx with hx | hx
      · exact hopen n hn rs₀ hrs₀ x hx
      · rw [List.mem_singleton.mp hx]
        exact hf.not_acked hk
    · rw [List.append_nil] at hrs
      exact hopen n hn rs (hrs₀.trans hrs) x hx

theorem stable_doomed (acked : PySet) (active n : ℕ) :
    Stable Appends CrashSafe (Doomed acked active n) := by
  have hclosed : Stable Appends CrashSafe fun s => n < s.wal.seq ∧
      ∃ rs, s.wal.segment n = logBytes rs ∧ ∀ r ∈ rs, r.Acked acked := by
    apply stable_of_append
    rintro s r hI _ ⟨hlt, rs, hrs, hall⟩
    have hseq := SegmentedWal.seq_append hI.numbered.linked r
    refine ⟨?_, rs, ?_, hall⟩
    · show n < (s.wal.append r).seq
      omega
    · have hseg := SegmentedWal.segment_append hI.numbered.linked r n
      rw [if_neg (Nat.ne_of_lt hlt), List.append_nil] at hseg
      exact hseg.trans hrs
  exact (stable_truncating acked active).and hclosed

/-- Deleting a doomed segment loses no record that is not acknowledged. -/
theorem unlink_doomed {s : World} (hI : CrashSafe s) {acked : PySet} {active n : ℕ}
    (hd : Doomed acked active n s) :
    CrashSafe { s with wal := s.wal.unlink n } ∧
      Truncating acked active { s with wal := s.wal.unlink n } := by
  obtain ⟨⟨hm, hk, hle, hopen⟩, hlt, rs, hrs, hall⟩ := hd
  obtain ⟨acked', hm', hkm, hr⟩ := hI.marked
  obtain rfl := marked_unique hm hm'
  have hseg (m : ℕ) : (s.wal.unlink n).segment m = if m = n then [] else s.wal.segment m :=
    SegmentedWal.segment_unlink n m
  constructor
  · refine ⟨hI.numbered.unlink (Nat.ne_of_lt hlt), hI.pos, hI.eight, ?_, acked, hm, ?_, ?_⟩
    · intro m
      show ∃ rs, (s.wal.unlink n).segment m = logBytes rs ∧ ∀ r ∈ rs, r ∈ s.appended
      rw [hseg]
      split
      · exact ⟨[], rfl, by simp⟩
      · exact hI.whole m
    · intro k hmem
      exact ⟨(hkm k hmem).1.mono List.prefix_rfl List.prefix_rfl, (hkm k hmem).2⟩
    · intro r hra
      rcases hr r hra with ha | ⟨m, rs', hrs', hx⟩
      · exact Or.inl ha
      · rcases eq_or_ne m n with rfl | hne
        · rw [hrs] at hrs'
          exact Or.inl (hall r (logBytes_injective hrs' ▸ hx))
        · refine Or.inr ⟨m, rs', ?_, hx⟩
          show (s.wal.unlink n).segment m = logBytes rs'
          rw [hseg, if_neg hne, hrs']
  · refine ⟨hm, hk, hle, ?_⟩
    intro m hm rs' hrs' x hx
    have hrs'' : (if m = n then [] else s.wal.segment m) = logBytes rs' := (hseg m).symm.trans hrs'
    split at hrs''
    · rw [eq_nil_of_logBytes hrs''] at hx
      cases hx
    · exact hopen m hm rs' hrs'' x hx

/-- **A truncation keeps the invariant.** -/
theorem truncateRules :
    TruncateRules withinEightDigits Appends CrashSafe Truncating Doomed where
  toPassRules := passRules
  stable_begun := stable_truncating
  stable_doomed := stable_doomed
  begun s acked hI hm := by
    obtain ⟨acked', hm', hk, -⟩ := hI.marked
    obtain rfl := marked_unique hm hm'
    refine ⟨hm, fun k hmem => (hk k hmem).2, le_refl _, ?_⟩
    intro n hn rs hrs r hr
    rw [segment_eq_nil hI hn] at hrs
    rw [eq_nil_of_logBytes hrs] at hr
    cases hr
  doomed s acked active n rs hI hT hne hrs h0 hall := by
    obtain ⟨r, rs', rfl⟩ := List.exists_cons_of_ne_nil h0
    have hle : n ≤ active := by
      by_contra hlt
      exact hT.2.2.2 n (Nat.lt_of_not_le hlt) _ hrs r List.mem_cons_self (hall r List.mem_cons_self)
    exact ⟨hT, Nat.lt_of_lt_of_le (Nat.lt_of_le_of_ne hle hne) hT.2.2.1, _, hrs, hall⟩
  begun_count _ _ _ _ hT := hT
  doomed_count _ _ _ _ _ hD := hD
  unlink s acked active n hI _ hD := unlink_doomed hI hD

/-! ## Every run -/

theorem crashSafe_init (c : Config) : CrashSafe (init c).world := by
  have hopen : (init c).world.wal = SegmentedWal.openAt c.segment ∅ := rfl
  have hseg (n : ℕ) : (init c).world.wal.segment n = [] := by
    rw [hopen, SegmentedWal.openAt_empty, SegmentedWal.segment]
    rcases eq_or_ne n 1 with rfl | hn
    · rfl
    · rw [AList.lookup_insert_ne hn]
      rfl
  refine ⟨SegmentedWal.openAt_empty_wellNumbered c.segment, Nat.one_pos, ?_, ?_, .empty, rfl, ?_, ?_⟩
  · show 1 < 10 ^ 8
    decide
  · intro n
    exact ⟨[], by rw [hseg]; rfl, by simp⟩
  · intro k hk
    exact absurd hk (PySet.not_mem_empty k)
  · intro r hr
    cases hr

/-- **The files after every run** that meets the condition on the appends alone. -/
theorem crashSafe_run {c : Config} {as : List Action} {s : Shipping}
    (hm : Runs.Meets (step c) withinEightDigits.Meets (init c) as)
    (hrun : Runs.run (step c) (init c) as = some s) : CrashSafe s.world := by
  refine invariant (R := Appends) (fun a p hp s hI => truncateRules.threadSafe_program hp hI)
    ?_ ?_ (crashSafe_init c) hm hrun
  · rintro s r hI ⟨hf, h8⟩
    exact ⟨hI.append h8, fun _ => Relation.ReflTransGen.single ⟨r, hf, h8, rfl⟩⟩
  · intro s hI _
    exact hI.crash

/-- A segment file is read with the record. -/
def InFile (s : World) (r : JsonObject) : Prop :=
  ∃ n ∈ s.wal.dir, ∃ out, SegmentedWal.readSegment (s.wal.segment n) = .ok out ∧ r.toJson ∈ out

theorem InSegment.inFile {s : World} {r : JsonObject} (h : InSegment s r) : InFile s r := by
  obtain ⟨n, rs, hrs, hx⟩ := h
  refine ⟨n, ?_, rs.map JsonObject.toJson, ?_, List.mem_map.mpr ⟨r, hx, rfl⟩⟩
  · by_contra hn
    rw [SegmentedWal.segment, AList.lookup_eq_none.mpr hn] at hrs
    rw [eq_nil_of_logBytes hrs] at hx
    cases hx
  · rw [hrs]
    exact SegmentedWal.readSegment_logBytes rs

/-! ## Whose ids the watermark has -/

/-- The ids of the watermark are attributed; and while nothing was stranded, the sink accepted them
or the process has them in its poison list. -/
def Owned (s : World) : Prop :=
  ∀ acked, Marked acked s → ∀ k, acked.Mem k →
    Attributed s k ∧ (s.stranded = [] → AcceptedId s k ∨ PoisonedId s.poison k)

section Owned

variable {s s' : World}

/-- What leaves the watermark and only adds to the sends and to the poison list keeps it. -/
theorem Owned.mono (h : Owned s) (hmark : s'.watermark = s.watermark) (hw : s'.writes = s.writes)
    (hst : s'.stranded = s.stranded) (hs : s.sends <+: s'.sends)
    (hp : ∀ r ∈ s.poison, r ∈ s'.poison) : Owned s' := by
  intro acked hm k hk
  rw [Marked, hmark] at hm
  obtain ⟨hatt, hown⟩ := h acked hm k hk
  refine ⟨hatt.imp (fun ha => ha.mono hs) ?_, fun hnone => ?_⟩
  · rintro ⟨w, hlast, hfile, hpois⟩
    exact ⟨w, by rw [hw, hlast], by rw [hmark, hfile], hpois⟩
  · rw [hst] at hnone
    exact (hown hnone).imp (fun ha => ha.mono hs) fun hpois => hpois.mono hp

/-- The poisoned records with ids of the watermark. -/
theorem mem_poisonMarked {acked : PySet} (hm : Marked acked s) {r : JsonObject}
    (hr : r.toJson ∈ s.poison) {k : Key} (hk : r.decisionId.key = some k) (hin : acked.Mem k) :
    r.toJson ∈ s.poisonMarked := by
  have hread : Watermark.read s.watermark = .ok acked := hm
  rw [World.poisonMarked, hread]
  refine List.mem_filter.mpr ⟨hr, ?_⟩
  rw [idIn_of_key hk, decide_eq_true hin]
  rfl

/-- A crash that strands nothing loses only poisoned records that are not in the watermark. -/
theorem Owned.crash (h : Owned s) : Owned s.crash := by
  intro acked hm k hk
  obtain ⟨hatt, hown⟩ := h acked hm k hk
  refine ⟨hatt, fun hnone => Or.inl ?_⟩
  obtain ⟨hold, hnew⟩ := List.append_eq_nil_iff.mp hnone
  rcases hown hold with ha | ⟨r, hr, hrk⟩
  · exact ha
  · have hmem := mem_poisonMarked (s := s) hm hr hrk hk
    rw [hnew] at hmem
    cases hmem

/-- A process that inherits nothing writes ids of its own. -/
theorem Owned.replace (h : Owned s) (hg : s.stranded = []) {acked ids : PySet} {newly : List Json}
    {b : Bytes} (hm : Marked acked s) (hn : Earned newly s) (hids : Watermark.setOf newly = .ok ids)
    (hb : Watermark.payload (acked.union ids) = .ok b) (ht : s.tmp = some b) :
    Owned s.replaceWatermark := by
  obtain ⟨acked', hread, -, hnew⟩ := read_earned hm hn hids hb
  rw [replaceWatermark_eq ht]
  intro acked'' hm'' k hk
  have hsame : acked'' = acked' := Except.ok.inj (hm''.symm.trans hread)
  rw [hsame] at hk
  -- old ids are this process's own, as nothing was stranded
  have hcases : AcceptedId s k ∨ PoisonedId s.poison k := by
    rcases hnew k hk with hin | ⟨r, -, hrk, hacc | hpois⟩
    · exact (h acked hm k hin).2 hg
    · exact Or.inl ⟨r, hacc, hrk⟩
    · exact Or.inr ⟨r, hpois, hrk⟩
  refine ⟨hcases.imp id fun hpois => ?_, fun _ => hcases⟩
  exact ⟨(b, s.poison), List.getLast?_concat, rfl, hpois⟩

end Owned

/-- Both invariants. -/
def SafeAndOwned (s : World) : Prop := CrashSafe s ∧ Owned s

theorem stable_safeAndOwned {Φ : World → Prop} (h : Stable Appends CrashSafe Φ) :
    Stable Appends SafeAndOwned Φ := fun s s' hI hI' hR hs => h s s' hI.1 hI'.1 hR hs

/-- **A truncation, or a pass, keeps both.** -/
theorem truncateRules_owned : TruncateRules (withinEightDigits.and noneInherited) Appends SafeAndOwned
    Truncating Doomed where
  rely := truncateRules.rely
  whole s hI := hI.1.whole
  send s batch a hI := ⟨truncateRules.send s batch a hI.1,
    hI.2.mono rfl rfl rfl (List.prefix_append _ _) fun _ hr => hr⟩
  poison s r hI hr := ⟨truncateRules.poison s r hI.1 hr,
    hI.2.mono rfl rfl rfl List.prefix_rfl fun _ hr => List.mem_append_left _ hr⟩
  count s c n hI := ⟨truncateRules.count s c n hI.1,
    hI.2.mono rfl rfl rfl List.prefix_rfl fun _ hr => hr⟩
  writeTmp s b hI := ⟨truncateRules.writeTmp s b hI.1,
    hI.2.mono rfl rfl rfl List.prefix_rfl fun _ hr => hr⟩
  replace s acked newly ids b hI hg hm hn hids hb ht :=
    ⟨hI.1.replace hm hn hids hb ht, hI.2.replace (hg.2 rfl) hm hn hids hb ht⟩
  stable_begun acked active := stable_safeAndOwned (stable_truncating acked active)
  stable_doomed acked active n := stable_safeAndOwned (stable_doomed acked active n)
  begun s acked hI hm := truncateRules.begun s acked hI.1 hm
  doomed s acked active n rs hI hT hne hrs h0 hall :=
    truncateRules.doomed s acked active n rs hI.1 hT hne hrs h0 hall
  begun_count := truncateRules.begun_count
  doomed_count := truncateRules.doomed_count
  unlink s acked active n hI _ hD := by
    obtain ⟨hsafe, hT⟩ := unlink_doomed hI.1 hD
    exact ⟨⟨hsafe, hI.2.mono rfl rfl rfl List.prefix_rfl fun _ hr => hr⟩, hT⟩

theorem owned_run {c : Config} {as : List Action} {s : Shipping}
    (hm : Runs.Meets (step c) withinEightDigits.Meets (init c) as)
    (hown : Runs.Meets (step c) noneInherited.Meets (init c) as)
    (hrun : Runs.run (step c) (init c) as = some s) : SafeAndOwned s.world := by
  have hboth : Runs.Meets (step c) (withinEightDigits.and noneInherited).Meets (init c) as :=
    (hm.and hown).mono fun _ _ h => h.1.and h.2
  have h0 : SafeAndOwned (init c).world := by
    refine ⟨crashSafe_init c, fun acked hm k hk => ?_⟩
    cases hm
    exact absurd hk (PySet.not_mem_empty k)
  refine invariant (R := Appends) (fun a p hp s hI => truncateRules_owned.threadSafe_program hp hI)
    ?_ ?_ h0 hboth hrun
  · rintro s r hI ⟨⟨hf, h8⟩, -⟩
    exact ⟨⟨hI.1.append h8, hI.2.mono rfl rfl rfl List.prefix_rfl fun _ hr => hr⟩,
      fun _ => Relation.ReflTransGen.single ⟨r, hf, h8, rfl⟩⟩
  · intro s hI _
    exact ⟨hI.1.crash, hI.2.crash⟩

/-! ## What holds after every run -/

/-- Every appended record is in a segment file, or its id is in the durable watermark; and every id
in the watermark is attributed. -/
structure SafelyShipped (s : World) : Prop where
  kept : ∀ r ∈ s.appended, InFile s r ∨ ∃ acked, Marked acked s ∧ r.Acked acked
  attributed : ∃ acked, Marked acked s ∧ ∀ k, acked.Mem k → Attributed s k

theorem CrashSafe.kept {s : World} (h : CrashSafe s) :
    ∀ r ∈ s.appended, InFile s r ∨ ∃ acked, Marked acked s ∧ r.Acked acked := by
  obtain ⟨acked, hmark, -, hr⟩ := h.marked
  intro r hra
  rcases hr r hra with ha | hin
  · exact Or.inr ⟨acked, hmark, ha⟩
  · exact Or.inl hin.inFile

theorem SafeAndOwned.attributed {s : World} (h : SafeAndOwned s) :
    ∃ acked, Marked acked s ∧ ∀ k, acked.Mem k → Attributed s k := by
  obtain ⟨acked, hmark, -⟩ := h.1.marked
  exact ⟨acked, hmark, fun k hmem => (h.2 acked hmark k hmem).1⟩

/-- **Crash-safe shipping.** After every run whose appends carry fresh string ids and open no
segment past number 99,999,999, and in which no process writes a watermark after a crash that lost a
poisoned record whose id was in it: every record is in a segment file or its id is in the durable
watermark, and every id in the watermark is that of a record that the sink accepted, or that the
process which wrote the watermark had in its poison list. -/
theorem crash_safety (c : Config) (as : List Action) (s : Shipping)
    (hm : Runs.Meets (step c) withinEightDigits.Meets (init c) as)
    (hown : Runs.Meets (step c) noneInherited.Meets (init c) as)
    (hrun : Runs.run (step c) (init c) as = some s) : SafelyShipped s.world where
  kept := (crashSafe_run hm hrun).kept
  attributed := (owned_run hm hown hrun).attributed

/-! ## Two runs -/

/-- A record with a string id. -/
def recordOf (id : String) : JsonObject := .withId (PyStr.ofString id) (PyStr.unicode_ofString id)

/-- The set of one id. -/
def oneId (id : String) : PySet := ⟨[.str (PyStr.ofString id)], by simp, by simp⟩

/-- Every record has a segment of its own. -/
def oneEach : Config where
  segment := { segmentBytes := 1 }

/-- Calls of the shipper; a send is answered so. -/
def calls (n : ℕ) (result : SendResult) : List Action := List.replicate n (.call { result })

/-- The sink rejects the first of two records, and the process crashes before it writes the
watermark. The next one sends both again, with the same answers, writes the watermark and truncates;
a third record is appended before a segment is deleted. The same process ships that one, and
crashes. -/
def rejectedTwice : List Action :=
  List.flatten [
    [.append (recordOf "d"), .append (recordOf "e"), .run 100], calls 7 .returned, calls 2 .rejected,
    calls 4 .returned, [.crash, .run 100], calls 7 .returned, calls 2 .rejected, calls 13 .returned,
    [.append (recordOf "f")], calls 11 .returned, [.shipOnce 100], calls 9 .returned, [.crash]]

/-- Its second watermark has the ids of both, and the last crash strands the rejected one. -/
theorem crash_safety_rejectedTwice :
    ∃ s, Runs.run (step oneEach) (init oneEach) rejectedTwice = some s ∧
      s.world.writes.length = 2 ∧ s.world.stranded = [(recordOf "d").toJson] ∧
      s.world.wal.dir.keys = [4, 3] ∧ SafelyShipped s.world := by
  have hrun : (Runs.run (step oneEach) (init oneEach) rejectedTwice).map (fun s =>
      (s.world.writes.length, s.world.stranded, s.world.wal.dir.keys)) =
        some (2, [(recordOf "d").toJson], [4, 3]) := by decide +kernel
  obtain ⟨s, hs, hobs⟩ := Option.map_eq_some_iff.mp hrun
  obtain ⟨hwrites, hobs⟩ := Prod.mk.inj hobs
  obtain ⟨hstranded, hkeys⟩ := Prod.mk.inj hobs
  exact ⟨s, hs, hwrites, hstranded, hkeys,
    crash_safety oneEach rejectedTwice s (by decide +kernel) (by decide +kernel) hs⟩

/-- The sink rejects a record, and the process crashes after it wrote the watermark. The next
process ships another record. -/
def takenOver : List Action :=
  List.flatten [
    [.append (recordOf "d"), .run 100], calls 6 .returned, calls 2 .rejected, calls 4 .returned,
    [.crash, .append (recordOf "e"), .shipOnce 100], calls 11 .returned]

/-- **A process writes an id that is not its own**: the record was rejected, and the process that
wrote the watermark has nothing in its poison list. -/
theorem inherited_id :
    ∃ s, Runs.Meets (step oneEach) withinEightDigits.Meets (init oneEach) takenOver ∧
      Runs.run (step oneEach) (init oneEach) takenOver = some s ∧ ¬ SafelyShipped s.world := by
  have hrun : (Runs.run (step oneEach) (init oneEach) takenOver).map (fun s =>
      (s.world.accepted, s.world.writes.getLast?.map Prod.snd,
        (Watermark.read s.world.watermark).toOption.map fun acked =>
          decide (acked.Mem (.str (PyStr.ofString "d"))))) =
        some ([(recordOf "e").toJson], some [], some true) := by decide +kernel
  obtain ⟨s, hs, hobs⟩ := Option.map_eq_some_iff.mp hrun
  obtain ⟨haccepted, hobs⟩ := Prod.mk.inj hobs
  obtain ⟨hlast, hread⟩ := Prod.mk.inj hobs
  refine ⟨s, by decide +kernel, hs, fun h => ?_⟩
  obtain ⟨acked, hm, hatt⟩ := h.attributed
  have hfile : Watermark.read s.world.watermark = .ok acked := hm
  rw [hfile] at hread
  have hmem : acked.Mem (.str (PyStr.ofString "d")) := of_decide_eq_true (Option.some.inj hread)
  rcases hatt _ hmem with ⟨r, hr, hk⟩ | ⟨w, hw, -, r, hr, -⟩
  · rw [haccepted, List.mem_singleton] at hr
    rw [JsonObject.toJson_injective hr] at hk
    revert hk
    decide +kernel
  · rw [hw] at hlast
    rw [Option.some.inj hlast] at hr
    cases hr

end Shipping
