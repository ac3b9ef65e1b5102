import PreauthGateway.Shipping.SegmentedWal
import PreauthGateway.Wal.Recovery

/-!
# Appending after a torn write

Both logs are reopened in append mode. When the crash left the front of a line at the end of the
file, the next record is written onto it, and the two together are no JSON: the first record
appended after the restart is lost, and with it the record before it when only its newline was
missing. The segmented log opens the next segment after the line that fills one, so the line that a
crash tears is always in the segment that the restart resumes.

## Main definitions

* `SegmentedWal.Growth`: what a list of appends adds, segment by segment

## Main results

* `SegmentedWal.growth_appendAll`: the appends of a list of records
* `records_after_reopen`: when the reopened logs return all their records
-/

open Json

namespace SegmentedWal

/-- Appending `rs` to `w₀` gave `w`; the lines added to segment `n` are those of `g n`. -/
structure Growth (w₀ w : SegmentedWal) (rs : List JsonObject) (g : ℕ → List JsonObject) : Prop where
  wellNumbered : w.WellNumbered
  seq_le : w₀.seq ≤ w.seq
  segment : ∀ n, w.segment n = w₀.segment n ++ logBytes (g n)
  before : ∀ n < w₀.seq, g n = []
  after : ∀ n, w.seq < n → g n = []
  order : (List.range' w₀.seq (w.seq + 1 - w₀.seq)).flatMap g = rs
  keys : ∀ n, n ∈ w.dir ↔ n ∈ w₀.dir ∨ (w₀.seq ≤ n ∧ n ≤ w.seq)
  first : (rs = [] ∧ w.seq = w₀.seq) ∨ g w₀.seq ≠ []

theorem growth_refl {w : SegmentedWal} (h : w.WellNumbered) : Growth w w [] fun _ => [] where
  wellNumbered := h
  seq_le := le_refl _
  segment n := (List.append_nil _).symm
  before _ _ := rfl
  after _ _ := rfl
  order := by simp
  keys n := by
    refine ⟨Or.inl, ?_⟩
    rintro (hn | ⟨h₁, h₂⟩)
    · exact hn
    · rw [le_antisymm h₂ h₁]
      exact h.active
  first := Or.inl ⟨rfl, rfl⟩

section Append

variable {w₀ w : SegmentedWal} {rs : List JsonObject} {g : ℕ → List JsonObject}

theorem range_snoc {a b : ℕ} (h : a ≤ b) :
    List.range' a (b + 1 - a) = List.range' a (b - a) ++ [b] := by
  rw [Nat.succ_sub h, List.range'_concat]
  congr 2
  omega

theorem flatMap_update {a b : ℕ} (x : List JsonObject) :
    (List.range' a (b - a)).flatMap (Function.update g b x) =
      (List.range' a (b - a)).flatMap g := by
  refine List.flatMap_congr fun n hn => ?_
  have hlt : n ≠ b := by
    have := (List.mem_range'_1.mp hn).2
    have := (List.mem_range'_1.mp hn).1
    omega
  exact Function.update_of_ne hlt x g

/-- A written line is added to the active segment. -/
theorem Growth.grow (h : Growth w₀ w rs g) (r : JsonObject) (k : ℕ) :
    Growth w₀ { w with dir := w.grown r, sinceSync := k } (rs ++ [r])
      (Function.update g w.seq (g w.seq ++ [r])) := by
  have hle := h.seq_le
  have horder := h.order
  rw [range_snoc hle, List.flatMap_append, List.flatMap_singleton] at horder
  refine ⟨⟨h.wellNumbered.linked, (mem_grown r).mpr (Or.inl rfl), ?_⟩, hle, fun n => ?_,
    fun n hn => ?_, fun n hn => ?_, ?_, fun n => ?_, Or.inr ?_⟩
  · intro n hn
    exact ((mem_grown r).mp hn).elim le_of_eq (h.wellNumbered.last n)
  · have hseg : SegmentedWal.segment { w with dir := w.grown r, sinceSync := k } n =
        w.segment n ++ if n = w.seq then logBytes [r] else [] := lookup_grown r n
    rw [hseg, h.segment n, List.append_assoc]
    rcases eq_or_ne n w.seq with rfl | hne
    · rw [if_pos rfl, Function.update_self, logBytes_append]
    · rw [if_neg hne, Function.update_of_ne hne, List.append_nil]
  · rw [Function.update_of_ne (by omega), h.before n hn]
  · have hn' : w.seq < n := hn
    rw [Function.update_of_ne (by omega), h.after n hn']
  · rw [range_snoc hle, List.flatMap_append, List.flatMap_singleton, flatMap_update,
      Function.update_self, ← List.append_assoc, horder]
  · rw [mem_grown, h.keys]
    apply or_iff_right_of_imp
    rintro rfl
    exact Or.inr ⟨hle, le_refl _⟩
  · rcases eq_or_ne w₀.seq w.seq with e | hne
    · rw [e, Function.update_self]
      simp
    · rw [Function.update_of_ne hne]
      exact (h.first.resolve_left fun hf => hne hf.2.symm)

/-- While a line is being written. -/
theorem Growth.writeLine (h : Growth w₀ w rs g) (r : JsonObject) :
    Growth w₀ (w.writeLine r) (rs ++ [r]) (Function.update g w.seq (g w.seq ++ [r])) := by
  rw [writeLine_eq h.wellNumbered.linked]
  exact h.grow r (w.sinceSync + 1)

/-- Nothing is in the next segment when it is opened. -/
theorem Growth.rotateIfNeeded (h : Growth w₀ w rs g) (hne : g w₀.seq ≠ []) :
    Growth w₀ w.rotateIfNeeded rs g := by
  unfold SegmentedWal.rotateIfNeeded
  split
  · have hle := h.seq_le
    refine ⟨⟨rfl, mem_openDir.mpr (Or.inl rfl), ?_⟩, Nat.le_succ_of_le hle, fun n => ?_, h.before,
      fun n hn => h.after n (Nat.lt_of_succ_lt hn), ?_, fun n => ?_, Or.inr hne⟩
    · intro n hn
      rcases mem_openDir.mp hn with rfl | hn
      · exact le_refl _
      · exact Nat.le_succ_of_le (h.wellNumbered.last n hn)
    · exact (lookup_openDir w.dir (w.seq + 1) n).trans (h.segment n)
    · have hseq : (w.openSegment (w.seq + 1)).seq = w.seq + 1 := rfl
      rw [hseq, range_snoc (Nat.le_succ_of_le hle), List.flatMap_append, List.flatMap_singleton,
        h.after _ (Nat.lt_succ_self _), List.append_nil, h.order]
    · have hmem : n ∈ (w.openSegment (w.seq + 1)).dir ↔ n = w.seq + 1 ∨ n ∈ w.dir := mem_openDir
      have hseq : (w.openSegment (w.seq + 1)).seq = w.seq + 1 := rfl
      rw [hmem, h.keys, hseq, or_left_comm]
      apply or_congr_right
      omega
  · exact h

/-- One more append adds its line to the segment that is active then. -/
theorem Growth.append (h : Growth w₀ w rs g) (r : JsonObject) :
    Growth w₀ (w.append r) (rs ++ [r]) (Function.update g w.seq (g w.seq ++ [r])) := by
  obtain ⟨k, hk⟩ := append_eq h.wellNumbered.linked r
  have hgrow := h.grow r k
  rw [hk]
  apply hgrow.rotateIfNeeded
  exact hgrow.first.resolve_left fun hf =>
    List.append_ne_nil_of_right_ne_nil _ (List.cons_ne_nil _ _) hf.1

end Append

/-- **The appends of a list of records.** -/
theorem growth_appendAll {w : SegmentedWal} (h : w.WellNumbered) (rs : List JsonObject) :
    ∃ g, Growth w (w.appendAll rs) rs g := by
  induction rs using List.reverseRecOn with
  | nil => exact ⟨_, growth_refl h⟩
  | append_singleton rs r ih =>
    obtain ⟨g, hg⟩ := ih
    have ha : w.appendAll (rs ++ [r]) = (w.appendAll rs).append r := by
      simp [appendAll]
    exact ⟨_, ha ▸ hg.append r⟩

/-- A log that was only appended to, and in which a further line is being written, holds its records
segment by segment. -/
theorem exists_segments_writeLine (config : SegmentConfig) (rs : List JsonObject) (r : JsonObject) :
    ∃ f, Growth (openAt config ∅) (((openAt config ∅).appendAll rs).writeLine r) (rs ++ [r]) f ∧
      (∀ n, (((openAt config ∅).appendAll rs).writeLine r).segment n = logBytes (f n)) ∧
      f (((openAt config ∅).appendAll rs).writeLine r).seq ≠ [] := by
  obtain ⟨f, hf⟩ := growth_appendAll (openAt_empty_wellNumbered config) rs
  have hseq : (((openAt config ∅).appendAll rs).writeLine r).seq =
      ((openAt config ∅).appendAll rs).seq := by
    rw [writeLine_eq hf.wellNumbered.linked]
  have hgrowth := hf.writeLine r
  refine ⟨_, hgrowth, fun n => ?_, ?_⟩
  · have hbase : (openAt config ∅).segment n = [] := by
      rcases eq_or_ne n 1 with rfl | hn
      · rfl
      · rw [openAt_empty, segment, AList.lookup_insert_ne hn]
        rfl
    rw [hgrowth.segment, hbase, List.nil_append]
  · rw [hseq, Function.update_self]
    simp

section Reopen

variable {config config' : SegmentConfig} {rs rs' : List JsonObject} {p : Bytes}
  {w w' : SegmentedWal}

/-- The reopened log, when a crash left `p` in the active segment. -/
theorem openAt_torn (config' : SegmentConfig) (p : Bytes) (h : w.WellNumbered) (h0 : 0 < w.seq)
    (h8 : w.seq < 10 ^ 8) :
    openAt config' (w.dir.insert w.seq p) =
        { config := config', seq := w.seq, dir := w.dir.insert w.seq p } ∧
      (openAt config' (w.dir.insert w.seq p)).WellNumbered := by
  have hmem (n : ℕ) : n ∈ w.dir.insert w.seq p → n ≤ w.seq := fun hn =>
    ((AList.mem_insert _).mp hn).elim le_of_eq (h.last n)
  have hw : WellNumbered { w with dir := w.dir.insert w.seq p } :=
    ⟨h.linked, (AList.mem_insert _).mpr (Or.inl rfl), hmem⟩
  have he := openAt_dir hw h8 h0 config'
  exact ⟨he, by rw [he]; exact ⟨rfl, hw.active, hw.last⟩⟩

/-- **The records of a log that was reopened after a crash**, perhaps while `r` was being written:
those before the active segment, what is read of the active one, and those after it. -/
theorem records_reopened {r : JsonObject} (hw : ((openAt config ∅).appendAll rs).writeLine r = w)
    (hp : p <+: w.segment w.seq)
    (hw' : (openAt config' (w.dir.insert w.seq p)).appendAll rs' = w') (hne : rs' ≠ [])
    (h8 : w.seq < 10 ^ 8) (h8' : w'.seq < 10 ^ 8) :
    ∃ j ≤ rs.length, w.segment w.seq = logBytes ((rs ++ [r]).drop j) ∧
      ∀ n, WholeLines ((rs ++ [r]).drop j) p n →
        (w'.records = .ok (((rs ++ [r]).take (j + n) ++ rs').map JsonObject.toJson) ↔
          CleanCut p) := by
  obtain ⟨f, hf, hseg, hlast⟩ := exists_segments_writeLine config rs r
  rw [hw] at hf hseg hlast
  have h1 : 1 ≤ w.seq := hf.seq_le
  obtain ⟨hopen, hwell⟩ := openAt_torn config' p hf.wellNumbered h1 h8
  obtain ⟨g, hg⟩ := growth_appendAll hwell rs'
  rw [hw'] at hg
  have hle : w.seq ≤ w'.seq := by
    have := hg.seq_le
    rwa [hopen] at this
  have hrs : (List.range' 1 (w.seq - 1)).flatMap f ++ f w.seq = rs ++ [r] := by
    have h := hf.order
    rwa [openAt_empty, range_snoc h1, List.flatMap_append, List.flatMap_singleton] at h
  have hrs' : g w.seq ++ (List.range' (w.seq + 1) (w'.seq - w.seq)).flatMap g = rs' := by
    have h := hg.order
    rw [hopen] at h
    rw [← h, Nat.succ_sub hle, List.range'_succ, List.flatMap_cons]
  have hlist : segments w'.dir = List.range' 1 (w.seq - 1) ++
      (w.seq :: List.range' (w.seq + 1) (w'.seq - w.seq)) := by
    have hkeys : ∀ n, n ∈ w'.dir ↔ 1 ≤ n ∧ n < w'.seq + 1 := by
      intro n
      rw [hg.keys, hopen, AList.mem_insert, hf.keys, openAt_empty, AList.mem_insert]
      simp only [AList.notMem_empty, or_false]
      omega
    rw [segments_eq_range hkeys (by omega), ← List.range'_succ]
    have happ := List.range'_append_1 (s := 1) (m := w.seq - 1) (n := w'.seq - w.seq + 1)
    rw [Nat.add_sub_cancel' h1] at happ
    rw [happ]
    congr 1
    omega
  refine ⟨((List.range' 1 (w.seq - 1)).flatMap f).length, ?_, ?_, fun n hn => ?_⟩
  · have hlen := congrArg List.length hrs
    rw [List.length_append, List.length_append, List.length_singleton] at hlen
    have hpos := List.length_pos_iff.mpr hlast
    omega
  · rw [hseg, ← hrs, List.drop_left]
  rw [← hrs, List.drop_left] at hn
  rw [hseg] at hp
  have hfirst : g w.seq ≠ [] := by
    have h := hg.first.resolve_left fun h => hne h.1
    rwa [hopen] at h
  obtain ⟨out, torn, hread, hout⟩ := exists_readLog_reopen hp hfirst hn
  have hrec : w'.records = .ok (((List.range' 1 (w.seq - 1)).flatMap f ++
      (out ++ (List.range' (w.seq + 1) (w'.seq - w.seq)).flatMap g)).map JsonObject.toJson) := by
    have hsegs : ∀ n ∈ segments w'.dir, readSegment (w'.segment n) =
        .ok ((if n < w.seq then f n else if n = w.seq then out else g n).map JsonObject.toJson) := by
      intro n _
      rw [hg.segment, hopen, segment]
      rcases lt_trichotomy n w.seq with hn | rfl | hn
      · have hgn : g n = [] := hg.before n (by rw [hopen]; exact hn)
        have hd : ((w.dir.lookup n).getD []) = logBytes (f n) := hseg n
        rw [AList.lookup_insert_ne (by omega), hd, hgn, logBytes_nil, List.append_nil,
          readSegment_logBytes, if_pos hn]
      · rw [AList.lookup_insert, Option.getD_some, readSegment, hread, if_neg (lt_irrefl _),
          if_pos rfl]
      · have hfn : f n = [] := hf.after n hn
        have hd : ((w.dir.lookup n).getD []) = logBytes (f n) := hseg n
        rw [AList.lookup_insert_ne (by omega), hd, hfn, logBytes_nil, List.nil_append,
          readSegment_logBytes, if_neg (by omega), if_neg (by omega)]
    have hbefore : (List.range' 1 (w.seq - 1)).flatMap (fun n =>
        if n < w.seq then f n else if n = w.seq then out else g n) =
          (List.range' 1 (w.seq - 1)).flatMap f := by
      refine List.flatMap_congr fun n hn => ?_
      have := List.mem_range'_1.mp hn
      rw [if_pos (by omega)]
    have hafter : (List.range' (w.seq + 1) (w'.seq - w.seq)).flatMap (fun n =>
        if n < w.seq then f n else if n = w.seq then out else g n) =
          (List.range' (w.seq + 1) (w'.seq - w.seq)).flatMap g := by
      refine List.flatMap_congr fun n hn => ?_
      have := List.mem_range'_1.mp hn
      rw [if_neg (by omega), if_neg (by omega)]
    rw [records, readSegments_eq hsegs, hlist, ← List.map_flatMap, List.flatMap_append,
      List.flatMap_cons, hbefore, hafter, if_neg (lt_irrefl _), if_pos rfl]
  rw [hrec, Except.ok.injEq, (List.map_injective_iff.mpr JsonObject.toJson_injective).eq_iff, ← hout,
    ← hrs, ← hrs', List.take_length_add_append, List.append_assoc, List.append_cancel_left_eq,
    ← List.append_assoc, List.append_cancel_right_eq]

end Reopen

end SegmentedWal

namespace AuditWal

theorem records_reopened (config config' : WalConfig) (now now' : ℚ)
    (rs rs' : List (AppendClock × JsonObject)) (hne : rs' ≠ []) {p : Bytes}
    (hp : p <+: ((openAt config now []).appendAll rs).file) {n : ℕ}
    (hn : WholeLines (rs.map Prod.snd) p n) :
    (∃ w, ((openAt config' now' p).appendAll rs').records =
      .ok (((rs.map Prod.snd).take n ++ rs'.map Prod.snd).map JsonObject.toJson, w)) ↔
        CleanCut p := by
  have hfile : ((openAt config now []).appendAll rs).file = logBytes (rs.map Prod.snd) :=
    file_appendAll (openAt config now []) rs
  rw [hfile] at hp
  obtain ⟨out, torn, hread, hout⟩ :=
    exists_readLog_reopen hp (fun e => hne (List.map_eq_nil_iff.mp e)) hn
  have hfile' : ((openAt config' now' p).appendAll rs').file = p ++ logBytes (rs'.map Prod.snd) :=
    file_appendAll (openAt config' now' p) rs'
  rw [← hfile'] at hread
  rw [records_of_file hread, ← hout]
  refine ⟨?_, fun e => ⟨_, by rw [e]⟩⟩
  rintro ⟨w, hw⟩
  have h := (Prod.mk.inj (Except.ok.inj hw)).1
  exact List.map_injective_iff.mpr JsonObject.toJson_injective h

end AuditWal

/-- **Appending after a crash keeps every record exactly when the crash fell between two lines.**
For both logs: `rs` are the records appended before the crash, `p` is what it left of the file (of
the active segment), `rs'` are the records appended after the restart, and `n` counts the records
whose text lies inside `p`. In the segmented log a line is written before the next segment is
opened, so the crash may also have fallen inside the line of a further record `r` that fills its
segment. The segments are numbered with at most eight digits. -/
theorem records_after_reopen (config config' : WalConfig) (now now' : ℚ)
    (segments segments' : SegmentConfig) (rs rs' : List (AppendClock × JsonObject))
    (hne : rs' ≠ []) :
    (∀ p n, p <+: ((AuditWal.openAt config now []).appendAll rs).file →
      WholeLines (rs.map Prod.snd) p n →
      ((∃ w, ((AuditWal.openAt config' now' p).appendAll rs').records =
        .ok (((rs.map Prod.snd).take n ++ rs'.map Prod.snd).map JsonObject.toJson, w)) ↔
          CleanCut p)) ∧
    (∀ r p w w', ((SegmentedWal.openAt segments ∅).appendAll (rs.map Prod.snd)).writeLine r = w →
      p <+: w.segment w.seq →
      (SegmentedWal.openAt segments' (w.dir.insert w.seq p)).appendAll (rs'.map Prod.snd) = w' →
      w.seq < 10 ^ 8 → w'.seq < 10 ^ 8 →
      ∃ j ≤ (rs.map Prod.snd).length,
        w.segment w.seq = logBytes ((rs.map Prod.snd ++ [r]).drop j) ∧
        ∀ n, WholeLines ((rs.map Prod.snd ++ [r]).drop j) p n →
          (w'.records = .ok (((rs.map Prod.snd ++ [r]).take (j + n) ++ rs'.map Prod.snd).map
            JsonObject.toJson) ↔ CleanCut p)) := by
  constructor
  · intro p n hp hn
    exact AuditWal.records_reopened config config' now now' rs rs' hne hp hn
  · intro r p w w' hw hp hw' h8 h8'
    exact SegmentedWal.records_reopened hw hp hw' (fun e => hne (List.map_eq_nil_iff.mp e)) h8 h8'

theorem oneRecord_torn :
    [0x7B] <+: ((AuditWal.openAt {} 0 []).appendAll [AuditWal.oneRecord]).file ∧
    WholeLines ([AuditWal.oneRecord].map Prod.snd) [0x7B] 0 := by
  rw [AuditWal.file_appendAll]
  exact ⟨by decide +kernel, by unfold WholeLines; decide +kernel⟩

/-- The first byte of a record is left, and the record appended after the restart is lost. -/
theorem lost_after_torn_write :
    [0x7B] <+: ((AuditWal.openAt {} 0 []).appendAll [AuditWal.oneRecord]).file ∧
      WholeLines ([AuditWal.oneRecord].map Prod.snd) [0x7B] 0 ∧
      ¬ ∃ w, ((AuditWal.openAt {} 0 [0x7B]).appendAll [AuditWal.oneRecord]).records =
        .ok ((([AuditWal.oneRecord].map Prod.snd).take 0 ++ [AuditWal.oneRecord].map Prod.snd).map
          JsonObject.toJson, w) := by
  obtain ⟨hp, hn⟩ := oneRecord_torn
  refine ⟨hp, hn, fun h => ?_⟩
  have hc := (AuditWal.records_reopened {} {} 0 0 _ _ (List.cons_ne_nil _ _) hp hn).mp h
  exact absurd hc (by decide)

/-- The first byte of a line is left: of the only record, and of one that would have filled the
second segment. -/
theorem records_after_reopen_torn :
    ((∃ w, ((AuditWal.openAt {} 0 [0x7B]).appendAll [AuditWal.oneRecord]).records =
      .ok ((([AuditWal.oneRecord].map Prod.snd).take 0 ++ [AuditWal.oneRecord].map Prod.snd).map
        JsonObject.toJson, w)) ↔ CleanCut [0x7B]) ∧
    ∀ w w', ((SegmentedWal.openAt { segmentBytes := 1 } ∅).appendAll
        [AuditWal.oneRecord.2]).writeLine AuditWal.oneRecord.2 = w →
      (SegmentedWal.openAt { segmentBytes := 1 } (w.dir.insert w.seq [0x7B])).appendAll
        [AuditWal.oneRecord.2] = w' →
      w.seq = 2 ∧ ∃ j ≤ 1,
        w.segment w.seq = logBytes ([AuditWal.oneRecord.2, AuditWal.oneRecord.2].drop j) ∧
        ∀ n, WholeLines ([AuditWal.oneRecord.2, AuditWal.oneRecord.2].drop j) [0x7B] n →
          (w'.records = .ok (([AuditWal.oneRecord.2, AuditWal.oneRecord.2].take (j + n) ++
            [AuditWal.oneRecord.2]).map JsonObject.toJson) ↔ CleanCut [0x7B]) := by
  obtain ⟨haudit, hsegmented⟩ := records_after_reopen {} {} 0 0 { segmentBytes := 1 }
    { segmentBytes := 1 } [AuditWal.oneRecord] [AuditWal.oneRecord] (List.cons_ne_nil _ _)
  constructor
  · exact haudit [0x7B] 0 oneRecord_torn.1 oneRecord_torn.2
  · rintro w w' rfl rfl
    refine ⟨by decide +kernel, ?_⟩
    exact hsegmented AuditWal.oneRecord.2 [0x7B] _ _ rfl (by decide +kernel) rfl (by decide +kernel)
      (by decide +kernel)
