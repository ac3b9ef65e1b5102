import PreauthGateway.Shipping.CrashSafety
import PreauthGateway.Shipping.Truncation

/-!
# Past eight digits

With segments numbered up to 100,000,001, a restart resumes segment 99,999,999, whose name is the
last one. A truncation that began there skips it, and by the time it deletes segment 100,000,000,
whose old record is acknowledged, that segment may be the active one and hold a new record.

## Main definitions

* `freshIds`: the appends carry fresh string ids
* `numbered`: records with pairwise distinct ids

## Main results

* `lost_past_eight_digits`: a run with fresh ids in which a record is lost
-/

open Json

namespace Shipping

/-- Appends carry fresh string ids. -/
def freshIds : Guard where
  append s r := Fresh s.world r

/-! ## Runs -/

/-- Appending records with fresh ids. -/
theorem reaches_appends {c : Config} (s : World) (t : Option (ShipperM Unit))
    (rs : List JsonObject) (hstr : ∀ r ∈ rs, ∃ x, r.decisionId = .str x)
    (hnodup : ((s.appended ++ rs).map JsonObject.decisionId).Nodup) :
    Runs.Reaches (step c) freshIds.Meets ⟨s, t⟩
      ⟨{ s with wal := s.wal.appendAll rs, appended := s.appended ++ rs }, t⟩ := by
  induction rs generalizing s with
  | nil =>
    rw [List.append_nil]
    exact .refl _
  | cons r rs ih =>
    have hnext := ih (s.append r) (fun r' hr' => hstr r' (List.mem_cons_of_mem _ hr')) (by
      show ((s.appended ++ [r] ++ rs).map JsonObject.decisionId).Nodup
      rwa [List.append_assoc])
    have hfresh : Fresh s r := by
      refine ⟨hstr r List.mem_cons_self, ?_⟩
      intro r' hr' e
      rw [List.map_append, List.nodup_append] at hnodup
      exact hnodup.2.2 _ (List.mem_map_of_mem hr') _ (List.mem_map_of_mem List.mem_cons_self) e
    apply Runs.Reaches.head (a := .append r) hfresh rfl
    have hworld : ({ s.append r with
        wal := (s.append r).wal.appendAll rs
        appended := (s.append r).appended ++ rs } : World) =
        { s with wal := s.wal.appendAll (r :: rs), appended := s.appended ++ r :: rs } := by
      simp [World.append, SegmentedWal.appendAll]
    rwa [hworld] at hnext

/-! ## The run -/

/-- A string of `n` equal letters. -/
def letters (n : ℕ) : PyStr := List.replicate n (CodePoint.ofChar 'a')

theorem letters_unicode (n : ℕ) : (letters n).Unicode := by
  apply List.isChain_replicate_of_rel
  rintro ⟨⟨h, -⟩, -⟩
  exact absurd h (by decide)

/-- A record whose id is `n` letters long. -/
def numbered (n : ℕ) : JsonObject := JsonObject.withId (letters n) (letters_unicode n)

theorem decisionId_numbered (n : ℕ) : (numbered n).decisionId = .str (letters n) :=
  JsonObject.decisionId_withId _

theorem numbered_injective {m n : ℕ} (h : (numbered m).decisionId = (numbered n).decisionId) :
    m = n := by
  rw [decisionId_numbered, decisionId_numbered, Json.str.injEq] at h
  have hlen := congrArg List.length h
  rwa [letters, letters, List.length_replicate, List.length_replicate] at hlen

/-- The first `k` numbered records. -/
def firstRecords (k : ℕ) : List JsonObject := (List.range k).map numbered

theorem nodup_firstRecords (k : ℕ) : ((firstRecords k).map JsonObject.decisionId).Nodup := by
  rw [firstRecords, List.map_map]
  apply List.Nodup.map _ List.nodup_range
  intro m n h
  exact numbered_injective h

theorem mem_firstRecords {k : ℕ} {r : JsonObject} (h : r ∈ firstRecords k) :
    ∃ n < k, r = numbered n := by
  obtain ⟨n, hn, rfl⟩ := List.mem_map.mp h
  exact ⟨n, List.mem_range.mp hn, rfl⟩

/-- A process that restarted on the segments `1` to `m + 2`, of which the last is empty, and resumed
segment `m`. -/
structure Resumed (m : ℕ) (w : World) : Prop where
  appended : w.appended = firstRecords (m + 1)
  watermark : w.watermark = none
  linked : w.wal.unlinked = none
  tiny : w.wal.config.segmentBytes ≤ 1
  seq : w.wal.seq = m
  dir : ∀ n, n ∈ w.wal.dir ↔ 0 < n ∧ n ≤ m + 2
  zero : w.wal.segment 0 = []
  segment : ∀ i, w.wal.segment (i + 1) = logBytes (firstRecords (m + 1))[i]?.toList

/-- With `m + 2` segments, of which `m` has the last name, a restart resumes segment `m`. -/
theorem reaches_resumed {m : ℕ} (h0 : m ≠ 0)
    (hlast : ∀ n, 0 < n → n ≤ m + 2 → n ≠ m → segmentName n < segmentName m) :
    ∃ w, Runs.Reaches (step tinySegments) freshIds.Meets (init tinySegments) ⟨w, none⟩ ∧
      Resumed m w := by
  have happend := reaches_appends (c := tinySegments) (init tinySegments).world none
    (firstRecords (m + 1))
    (fun r hr => by
      obtain ⟨n, -, rfl⟩ := mem_firstRecords hr
      exact ⟨_, decisionId_numbered n⟩)
    (nodup_firstRecords (m + 1))
  obtain ⟨-, hconfig, -, hdir, hzero, hseg⟩ := SegmentedWal.appendAll_rotating
    tinySegments.segment (le_refl _) (firstRecords (m + 1)) _ rfl
  have hwal : (init tinySegments).world.wal = SegmentedWal.openAt tinySegments.segment ∅ := rfl
  rw [hwal] at happend
  have hlen : (firstRecords (m + 1)).length = m + 1 := by
    rw [firstRecords, List.length_map, List.length_range]
  generalize (SegmentedWal.openAt tinySegments.segment ∅).appendAll (firstRecords (m + 1)) = wal at *
  rw [hlen] at hdir
  -- a restart opens the segment whose name comes last, which is not the last one written
  have hm : m ∈ wal.dir := (hdir m).mpr ⟨Nat.pos_iff_ne_zero.mpr h0, by omega⟩
  have hopen := SegmentedWal.openAt_of_highest
    (highestSegment_of_name hm fun n hn => hlast n ((hdir n).mp hn).1 ((hdir n).mp hn).2) h0 hm
    wal.config
  refine ⟨_, happend.trans (.single (a := .crash) trivial rfl), ?_⟩
  constructor
  · rfl
  · rfl
  all_goals
    show _
    simp only [World.crash]
    rw [hopen]
  · show wal.config.segmentBytes ≤ 1
    rw [hconfig]
    exact le_refl _
  · exact hdir
  · exact hzero
  · exact hseg

section Resumed

variable {m : ℕ} {w : World}

/-- What a segment of the resumed log holds. -/
theorem Resumed.exists_segment (h : Resumed m w) (n : ℕ) :
    ∃ rs, w.wal.segment n = logBytes rs ∧ ∀ r ∈ rs, r ∈ firstRecords (m + 1) := by
  rcases Nat.eq_zero_or_pos n with rfl | hn
  · exact ⟨[], h.zero, by simp⟩
  · obtain ⟨i, rfl⟩ := Nat.exists_eq_succ_of_ne_zero (Nat.pos_iff_ne_zero.mp hn)
    refine ⟨_, h.segment i, ?_⟩
    intro r hr
    exact List.mem_of_getElem? (Option.mem_toList.mp hr)

/-- The records that are read are those that were appended. -/
theorem Resumed.exists_records (h : Resumed m w) :
    ∃ recs : List JsonObject, w.wal.records = .ok (recs.map JsonObject.toJson) ∧
      ∀ r, r ∈ recs ↔ r ∈ firstRecords (m + 1) := by
  choose f hf hmem using h.exists_segment
  refine ⟨(segments w.wal.dir).flatMap f, ?_, ?_⟩
  · have hread : ∀ n ∈ segments w.wal.dir, SegmentedWal.readSegment (w.wal.segment n) =
        .ok ((f n).map JsonObject.toJson) := by
      intro n _
      rw [hf n, SegmentedWal.readSegment_logBytes]
    rw [SegmentedWal.records, SegmentedWal.readSegments_eq hread, List.map_flatMap]
  · intro r
    rw [List.mem_flatMap]
    constructor
    · rintro ⟨n, -, hr⟩
      exact hmem n r hr
    · intro hr
      obtain ⟨i, hi, rfl⟩ := List.mem_iff_getElem.mp hr
      have hlen : i < m + 1 := by rwa [firstRecords, List.length_map, List.length_range] at hi
      refine ⟨i + 1, mem_segments.mpr ((h.dir _).mpr ⟨Nat.succ_pos i, by omega⟩), ?_⟩
      have he := logBytes_injective ((hf (i + 1)).symm.trans (h.segment i))
      rw [he, List.getElem?_eq_getElem hi]
      exact List.mem_singleton_self _

/-- A pass, which the sink accepts, acknowledges all of them. -/
theorem Resumed.reaches_shipped (h : Resumed m w) :
    ∃ w' acked, Runs.Reaches (step tinySegments) freshIds.Meets ⟨w, none⟩ ⟨w', none⟩ ∧
      Marked acked w' ∧
      (∀ k, acked.Mem k ↔ ∃ r ∈ firstRecords (m + 1), r.decisionId.key = some k) ∧
      w'.wal = w.wal ∧ w'.appended = w.appended := by
  obtain ⟨recs, hrecs, hmem⟩ := h.exists_records
  have hmark : Marked .empty w := by
    rw [Marked, h.watermark]
    rfl
  obtain ⟨n, w', acked, hexec, hm, hack, hwal, happ⟩ := exec_shipOnce_accepting
    tinySegments.maxAttempts 100 (by decide) (by decide) hmark hrecs
    (fun r hr => by
      obtain ⟨n, -, rfl⟩ := mem_firstRecords ((hmem r).mp hr)
      exact ⟨_, itemDecisionId_withId _⟩)
  have hcalls := reaches_calls (c := tinySegments) (g := freshIds) (fun _ _ => trivial) hexec
    fun _ => .ret ()
  refine ⟨w', acked, .head (a := .shipOnce 100) trivial rfl hcalls, hm, ?_, hwal, happ⟩
  intro k
  rw [hack]
  simp only [hmem]

end Resumed

theorem firstRecords_succ (k : ℕ) : firstRecords (k + 1) = firstRecords k ++ [numbered k] := by
  rw [firstRecords, List.range_succ, List.map_append, List.map_singleton]
  rfl

/-- The next numbered record is fresh. -/
theorem fresh_numbered {k : ℕ} {s : World} (h : s.appended = firstRecords k) :
    Fresh s (numbered k) := by
  refine ⟨⟨_, decisionId_numbered k⟩, ?_⟩
  rw [h]
  intro r hr e
  obtain ⟨n, hn, rfl⟩ := mem_firstRecords hr
  exact absurd (numbered_injective e) (Nat.ne_of_lt hn)

/-- In the middle of a truncation that began with segment `m` active, segment `m + 1` comes next: it
is active now, and its only record is acknowledged. -/
structure Poised (m : ℕ) (acked : PySet) (s : World) : Prop where
  marked : Marked acked s
  known : (numbered m).Acked acked
  old : ∀ k, acked.Mem k → ∃ r ∈ firstRecords (m + 1), r.decisionId.key = some k
  appended : s.appended = firstRecords (m + 2)
  linked : s.wal.unlinked = none
  seq : s.wal.seq = m + 1
  next : s.wal.segment (m + 1) = logBytes [numbered m]
  segments : ∀ n, ∃ rs, s.wal.segment n = logBytes rs ∧ ∀ r ∈ rs, r ∈ firstRecords (m + 2)

/-- What is left of a truncation at a list of segments. -/
def truncating (acked : PySet) (m : ℕ) (ns : List ℕ) (deleted : ℕ) : Option (ShipperM Unit) :=
  resume (Shipper.truncateSegments acked m ns deleted >>= fun _ => .ret ())

section Poised

variable {m : ℕ} {w s : World} {acked : PySet}

/-- A record is appended to segment `m` of the resumed log, and the next segment is opened. -/
theorem Resumed.append (h : Resumed m w) (hwal : s.wal = w.wal) (r : JsonObject) :
    (s.append r).wal.unlinked = none ∧ (s.append r).wal.seq = m + 1 ∧
      m + 1 ∈ (s.append r).wal.dir ∧ ∀ n, (s.append r).wal.segment n =
        w.wal.segment n ++ if n = m then logBytes [r] else [] := by
  have hseq : (w.wal.append r).seq = m + 1 := by
    rw [SegmentedWal.append_rotates h.linked h.tiny, h.seq]
  rw [World.append, hwal]
  refine ⟨(SegmentedWal.append_cases h.linked r).2.1, hseq, ?_, ?_⟩
  · exact (SegmentedWal.mem_append h.linked r).mpr (Or.inr (Or.inr hseq.symm))
  · intro n
    have happend := SegmentedWal.segment_append h.linked r n
    rwa [h.seq] at happend

/-- The loop comes to segment `m + 1`, and deletes only segments before it. -/
theorem Resumed.exec_loop (h : Resumed m w) (hwal : s.wal = w.wal)
    (hack : ∀ k, acked.Mem k ↔ ∃ r ∈ firstRecords (m + 1), r.decisionId.key = some k)
    (r : JsonObject) :
    ∃ ns ms d s', segments (s.append r).wal.dir = ns ++ (m + 1) :: ms ∧ m + 1 ∉ ns ∧
      Prog.exec (serve .accepting) (Shipper.truncateSegments acked m ns 0) (s.append r) =
        (.ok d, s') ∧ Shrunk ns m (s.append r) s' := by
  obtain ⟨-, hseq, hmem, hseg⟩ := h.append hwal r
  obtain ⟨ns, ms, hsplit⟩ := List.append_of_mem (mem_segments.mpr hmem)
  have hnodup := nodup_segments (s.append r).wal.dir
  rw [hsplit, List.nodup_append] at hnodup
  have hnext : m + 1 ∉ ns := fun hin => hnodup.2.2 _ hin _ List.mem_cons_self rfl
  obtain ⟨d, s', hloop, hshrunk⟩ := exec_truncateSegments .accepting acked m hnodup.1 0 (s.append r) (by
      intro n hn hne
      obtain ⟨rs, hrs, hall⟩ := h.exists_segment n
      refine ⟨?_, rs, by rw [hseg, if_neg hne, List.append_nil, hrs], ?_⟩
      · rw [hseq]
        rintro rfl
        exact hnext hn
      · intro r' hr'
        obtain ⟨i, -, rfl⟩ := mem_firstRecords (hall r' hr')
        have hkey : (numbered i).decisionId.key = some (.str (letters i)) := by
          rw [decisionId_numbered, key_str]
        exact ⟨_, hkey, (hack _).mpr ⟨_, hall _ hr', hkey⟩⟩)
  exact ⟨ns, ms, d, s', hsplit, hnext, hloop, hshrunk⟩

/-- A truncation is begun, a record is appended, and the loop comes to segment `m + 1`. -/
theorem Resumed.reaches_poised (h : Resumed m w) (hm : Marked acked s)
    (hack : ∀ k, acked.Mem k ↔ ∃ r ∈ firstRecords (m + 1), r.decisionId.key = some k)
    (hwal : s.wal = w.wal) (happ : s.appended = w.appended) :
    ∃ s' ms d, Runs.Reaches (step tinySegments) freshIds.Meets ⟨s, none⟩
      ⟨s', truncating acked m ((m + 1) :: ms) d⟩ ∧ Poised m acked s' := by
  have hbegin : Prog.exec (serve .accepting) (do
      let acked ← Shipper.readWatermark
      let active ← ask .activeSegment
      return (acked, active) : ShipperM (PySet × ℕ)) s = (.ok (acked, m), s) := by
    have hread : Prog.exec (serve .accepting) Shipper.readWatermark s = (.ok acked, s) := by
      rw [exec_readWatermark]
      exact Prod.ext hm rfl
    rw [Prog.exec_bind, hread, Prog.andThen, exec_ask_bind, ← h.seq, ← hwal]
    rfl
  have hcalls := reaches_calls (c := tinySegments) (g := freshIds) (fun _ _ => trivial) hbegin
    fun x => ask .listSegments >>= fun segs => Shipper.truncateSegments x.1 x.2 segs 0 >>=
      fun _ => .ret ()
  have hstart : start Shipper.truncate = resume ((do
      let acked ← Shipper.readWatermark
      let active ← ask .activeSegment
      return (acked, active) : ShipperM (PySet × ℕ)) >>= fun x =>
        ask .listSegments >>= fun segs => Shipper.truncateSegments x.1 x.2 segs 0 >>=
          fun _ => .ret ()) := by
    rw [start, Shipper.truncate]
    simp only [Prog.bind_assoc, Prog.pure_eq, Prog.ret_bind]
  rw [← hstart] at hcalls
  obtain ⟨hlinked, hseq, -, hseg⟩ := h.append hwal (numbered (m + 1))
  obtain ⟨ns, ms, d, s', hsplit, hnext, hloop, hshrunk⟩ := h.exec_loop hwal hack (numbered (m + 1))
  have hfirst : s.appended = firstRecords (m + 1) := happ.trans h.appended
  have hlist : Prog.exec (serve .accepting) (ask .listSegments) (s.append (numbered (m + 1))) =
      (.ok (ns ++ (m + 1) :: ms), s.append (numbered (m + 1))) := by
    rw [← hsplit]
    rfl
  have hcalls₂ := reaches_calls (c := tinySegments) (g := freshIds) (fun _ _ => trivial) hlist
    fun segs => Shipper.truncateSegments acked m segs 0 >>= fun _ => .ret ()
  have hcalls₃ := reaches_calls (c := tinySegments) (g := freshIds) (fun _ _ => trivial) hloop
    fun d => Shipper.truncateSegments acked m ((m + 1) :: ms) d >>= fun _ => .ret ()
  rw [← Prog.bind_assoc, ← truncateSegments_append] at hcalls₃
  refine ⟨s', ms, d, ?_, ?_⟩
  · apply Runs.Reaches.head (a := .truncate) trivial rfl
    apply Runs.Reaches.trans hcalls
    apply Runs.Reaches.head (a := .append (numbered (m + 1))) (fresh_numbered hfirst) rfl
    exact hcalls₂.trans hcalls₃
  · have hin (n : ℕ) : ∃ rs, (s.append (numbered (m + 1))).wal.segment n = logBytes rs ∧
        ∀ r ∈ rs, r ∈ firstRecords (m + 2) := by
      obtain ⟨rs, hrs, hall⟩ := h.exists_segment n
      have hold : ∀ r ∈ rs, r ∈ firstRecords (m + 2) := by
        intro r hr
        rw [firstRecords_succ]
        exact List.mem_append_left _ (hall r hr)
      rw [hseg, hrs]
      split
      · refine ⟨rs ++ [numbered (m + 1)], (logBytes_append _ _).symm, ?_⟩
        intro r hr
        rcases List.mem_append.mp hr with hr | hr
        · exact hold r hr
        · rw [firstRecords_succ]
          exact List.mem_append_right _ hr
      · exact ⟨rs, List.append_nil _, hold⟩
    have hlast : (firstRecords (m + 1))[m]? = some (numbered m) := by
      rw [firstRecords_succ, List.getElem?_append_right] <;>
        simp [firstRecords]
    have hnumbered : numbered m ∈ firstRecords (m + 1) := List.mem_of_getElem? hlast
    have hkey : (numbered m).decisionId.key = some (.str (letters m)) := by
      rw [decisionId_numbered, key_str]
    refine ⟨?_, ⟨_, hkey, (hack _).mpr ⟨_, hnumbered, hkey⟩⟩, fun k hk => (hack k).mp hk, ?_, ?_,
      ?_, ?_, ?_⟩
    · rw [Marked, hshrunk.watermark]
      exact hm
    · rw [hshrunk.appended, firstRecords_succ, ← hfirst]
      rfl
    · rw [hshrunk.unlinked, hlinked]
    · rw [hshrunk.seq, hseq]
    · rw [hshrunk.kept _ hnext, hseg, if_neg (Nat.succ_ne_self m), List.append_nil, h.segment,
        hlast]
      rfl
    · intro n
      rcases hshrunk.segment n with hn | hn
      · rw [hn]
        exact hin n
      · exact ⟨[], hn.trans logBytes_nil.symm, by simp⟩

/-- A numbered record that is in no segment and not acknowledged. -/
theorem not_safelyShipped (acked : PySet) {s : World} {k : ℕ} (happ : numbered k ∈ s.appended)
    (hseg : ∀ n, ∃ rs, s.wal.segment n = logBytes rs ∧ ∀ r ∈ rs, r ∈ firstRecords k)
    (hm : Marked acked s)
    (hold : ∀ j, acked.Mem j → ∃ r ∈ firstRecords k, r.decisionId.key = some j) :
    ¬ SafelyShipped s := by
  have hnew : numbered k ∉ firstRecords k := by
    intro hin
    obtain ⟨n, hn, e⟩ := mem_firstRecords hin
    exact absurd (numbered_injective (congrArg _ e)) (Nat.ne_of_gt hn)
  intro h
  rcases h.kept _ happ with ⟨n, -, out, hout, hin⟩ | ⟨acked', hm', j, hj, hmem⟩
  · obtain ⟨rs, hrs, hall⟩ := hseg n
    rw [hrs, SegmentedWal.readSegment_logBytes] at hout
    cases hout
    obtain ⟨r, hr, e⟩ := List.mem_map.mp hin
    rw [JsonObject.toJson_injective e] at hr
    exact hnew (hall _ hr)
  · obtain rfl := marked_unique hm hm'
    rw [decisionId_numbered, key_str, Option.some.injEq] at hj
    obtain ⟨r, hr, hrj⟩ := hold j hmem
    obtain ⟨n, hn, rfl⟩ := mem_firstRecords hr
    rw [← hj, key_eq_str, ← decisionId_numbered] at hrj
    exact absurd (numbered_injective hrj) (Nat.ne_of_lt hn)

/-- **The loop deletes segment `m + 1` after a record was appended to it.** -/
theorem Poised.reaches_lost (h : Poised m acked s) (ms : List ℕ) (d : ℕ) :
    ∃ s', Runs.Reaches (step tinySegments) freshIds.Meets
      ⟨s, truncating acked m ((m + 1) :: ms) d⟩ s' ∧ ¬ SafelyShipped s'.world := by
  have hread : Prog.exec (serve .accepting) (Shipper.readSegment (m + 1)) s =
      (.ok ([numbered m].map JsonObject.toJson), s) := by
    rw [exec_readSegment, h.next, SegmentedWal.readSegment_logBytes]
  have hall : allIn acked ([numbered m].map JsonObject.toJson) = .ok true := by
    apply allIn_of_acked
    intro r hr
    rw [List.mem_singleton.mp hr]
    exact h.known
  obtain ⟨body, hprog, hbody⟩ : ∃ body, Shipper.truncateSegments acked m ((m + 1) :: ms) d =
      Shipper.readSegment (m + 1) >>= body ∧ body ([numbered m].map JsonObject.toJson) =
        (ask (.segmentSize (m + 1)) >>= fun size => ask (.count .bytesReclaimed size)) >>= fun _ =>
          ask (.unlink (m + 1)) >>= fun _ => ask (.count .segmentsDeleted 1) >>= fun _ =>
            Shipper.truncateSegments acked m ms (d + 1) := by
    rw [Shipper.truncateSegments, if_neg (Nat.succ_ne_self m)]
    refine ⟨_, rfl, ?_⟩
    have hne : [numbered m].map JsonObject.toJson ≠ [] := List.cons_ne_nil _ _
    rw [if_neg hne, hall, Prog.bind_assoc]
    rfl
  have hcalls := reaches_calls (c := tinySegments) (g := freshIds) (fun _ _ => trivial) hread
    fun recs => body recs >>= fun _ => .ret ()
  have hsize : Prog.exec (serve .accepting)
      (ask (.segmentSize (m + 1)) >>= fun size => ask (.count .bytesReclaimed size)) s =
        (.ok (), { s with
          stats := s.stats.add (s.wal.segment (m + 1)).length .bytesReclaimed }) := rfl
  obtain ⟨s₁, hs₁⟩ : ∃ s₁ : World, s₁ = { s with
    stats := s.stats.add (s.wal.segment (m + 1)).length .bytesReclaimed } := ⟨_, rfl⟩
  rw [← hs₁] at hsize
  have hcalls₂ := reaches_calls (c := tinySegments) (g := freshIds) (fun _ _ => trivial) hsize
    fun _ => (ask (.unlink (m + 1)) >>= fun _ => ask (.count .segmentsDeleted 1) >>= fun _ =>
      Shipper.truncateSegments acked m ms (d + 1)) >>= fun _ => .ret ()
  rw [hbody, Prog.bind_assoc] at hcalls
  have happ₁ : s₁.appended = firstRecords (m + 2) := by rw [hs₁]; exact h.appended
  have hwal₁ : s₁.wal = s.wal := by rw [hs₁]
  refine ⟨⟨{ s₁.append (numbered (m + 2)) with
      wal := (s₁.append (numbered (m + 2))).wal.unlink (m + 1) },
    resume ((ask (.count .segmentsDeleted 1) >>= fun _ =>
      Shipper.truncateSegments acked m ms (d + 1)) >>= fun _ => .ret ())⟩, ?_, ?_⟩
  · rw [truncating, hprog, Prog.bind_assoc]
    apply hcalls.trans (hcalls₂.trans _)
    apply Runs.Reaches.head (a := .append (numbered (m + 2))) (fresh_numbered happ₁) rfl
    exact Runs.Reaches.single (a := .call { result := .returned }) (fun _ _ _ => trivial) rfl
  · have hseg (n : ℕ) : ((s₁.append (numbered (m + 2))).wal.unlink (m + 1)).segment n =
        if n = m + 1 then [] else s.wal.segment n := by
      rw [SegmentedWal.segment_unlink]
      split
      · rfl
      · rename_i hn
        have happend := SegmentedWal.segment_append (w := s.wal) h.linked (numbered (m + 2)) n
        rw [h.seq, if_neg hn, List.append_nil] at happend
        rw [World.append, hwal₁, happend]
    apply not_safelyShipped acked (k := m + 2)
    · exact List.mem_append_right _ List.mem_cons_self
    · intro n
      show ∃ rs, ((s₁.append (numbered (m + 2))).wal.unlink (m + 1)).segment n = logBytes rs ∧ _
      rw [hseg]
      split
      · exact ⟨[], logBytes_nil.symm, by simp⟩
      · exact h.segments n
    · show Marked acked s₁
      rw [hs₁]
      exact h.marked
    · intro j hj
      obtain ⟨r, hr, hrj⟩ := h.old j hj
      refine ⟨r, ?_, hrj⟩
      rw [firstRecords_succ]
      exact List.mem_append_left _ hr

end Poised

/-- **With fresh ids alone a record can be lost**, after a restart that finds segment
100,000,001. -/
theorem lost_past_eight_digits :
    ∃ as s, Runs.Meets (step tinySegments) freshIds.Meets (init tinySegments) as ∧
      Runs.run (step tinySegments) (init tinySegments) as = some s ∧ ¬ SafelyShipped s.world := by
  obtain ⟨m, hm⟩ : ∃ m, m = 99999999 := ⟨_, rfl⟩
  have hlast : ∀ n, 0 < n → n ≤ m + 2 → n ≠ m → segmentName n < segmentName m := by
    intro n _ hle hne
    rcases Nat.lt_or_ge n m with hn | hn
    · exact segmentName_lt hn (by omega)
    · obtain rfl | rfl : n = 100000000 ∨ n = 100000001 := by omega
      · rw [hm]
        decide +kernel
      · rw [hm]
        decide +kernel
  obtain ⟨w, hresumed, hw⟩ := reaches_resumed (by omega) hlast
  obtain ⟨w', acked, hshipped, hmark, hack, hwal, happ⟩ := hw.reaches_shipped
  obtain ⟨s, ms, d, hpoised, hs⟩ := hw.reaches_poised hmark hack hwal happ
  obtain ⟨s', hlost, hnot⟩ := hs.reaches_lost ms d
  obtain ⟨as, hmeets, hrun⟩ := hresumed.trans (hshipped.trans (hpoised.trans hlost))
  exact ⟨as, s', hmeets, hrun, hnot⟩

end Shipping
