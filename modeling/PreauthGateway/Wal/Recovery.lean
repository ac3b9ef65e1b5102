import PreauthGateway.Wal.AuditWal

/-!
# Reading a log after a crash

A crash leaves a prefix of the file. Reading it returns the records whose text lies inside the
prefix, in order, and counts a torn line when the prefix ends strictly inside the text of a record.

## Main definitions

* `Json.lineStart`, `Json.lineEnd`: where the text of a record begins and ends in the file
* `Json.CleanCut`: a file that is empty or ends with a newline

## Main results

* `AuditWal.records_after_crash`: what recovery reads
* `Json.exists_readLog_reopen`: what is read after lines were added to a prefix
-/

open Json

namespace Json

/-- Where the text of the `i`-th record begins. -/
def lineStart (rs : List JsonObject) (i : ℕ) : ℕ := (logBytes (rs.take i)).length

/-- Where the text of the `i`-th record ends, before its newline. -/
def lineEnd (rs : List JsonObject) (i : Fin rs.length) : ℕ :=
  lineStart rs i + (Utf8.encode (encode (rs.get i))).length

variable {rs : List JsonObject}

theorem length_utf8_encode (r : JsonObject) :
    (Utf8.encode (encode r)).length = (encode r).length :=
  Utf8.length_encode fun c hc => (encode_printable r c hc).isAscii

theorem length_logBytes_cons (r : JsonObject) (rs : List JsonObject) :
    (logBytes (r :: rs)).length = (encode r).length + 1 + (logBytes rs).length := by
  have h := Utf8.length_encode (logText_isAscii (r :: rs))
  rw [logText_cons, List.length_append, List.length_cons,
    ← Utf8.length_encode (logText_isAscii rs)] at h
  rw [logBytes, logText_cons, h, logBytes]
  ring

theorem lineStart_succ (i : Fin rs.length) : lineStart rs (i + 1) = lineEnd rs i + 1 := by
  have h : rs.take (i + 1) = rs.take i ++ [rs.get i] := by
    rw [List.take_succ_eq_append_getElem i.isLt]
    rfl
  rw [lineStart, h, logBytes_append, List.length_append, length_logBytes_cons, lineEnd,
    length_utf8_encode, lineStart]
  simp [add_assoc]

theorem lineStart_mono {i j : ℕ} (h : i ≤ j) : lineStart rs i ≤ lineStart rs j := by
  obtain ⟨t, ht⟩ : rs.take i <+: rs.take j := List.take_prefix_take_left h
  rw [lineStart, lineStart, ← ht, logBytes_append, List.length_append]
  exact Nat.le_add_right _ _

theorem lineStart_lt_lineEnd (i : Fin rs.length) : lineStart rs i < lineEnd rs i := by
  have h := List.length_pos_iff.mpr (encode_ne_nil (rs.get i))
  rw [lineEnd, length_utf8_encode]
  omega

theorem lineEnd_lt_of_lt {i : Fin rs.length} {j : ℕ} (h : i < j) :
    lineEnd rs i < lineStart rs j :=
  Nat.lt_of_lt_of_le (by rw [lineStart_succ]; exact Nat.lt_succ_self _) (lineStart_mono h)

theorem length_tornBytes {r : JsonObject} {t : List Char} (n : ℕ) (ht : t <+: encode r) :
    (tornBytes (rs.take n) t).length = lineStart rs n + t.length := by
  rw [tornBytes, Utf8.encode_append, List.length_append,
    Utf8.length_encode fun c hc => (printable_front ht c hc).isAscii]
  rfl

/-- `p` ends strictly inside the text of a record. -/
def EndsInside (rs : List JsonObject) (p : Bytes) : Prop :=
  ∃ i : Fin rs.length, lineStart rs i < p.length ∧ p.length < lineEnd rs i

/-- `n` counts the records whose text lies inside `p`. -/
def WholeLines (rs : List JsonObject) (p : Bytes) (n : ℕ) : Prop :=
  ∀ i : Fin rs.length, i < n ↔ lineEnd rs i ≤ p.length

/-- A prefix that ends on a line boundary. -/
theorem wholeLines_boundary {p : Bytes} {n : ℕ} (h : p.length = lineStart rs n) :
    WholeLines rs p n ∧ ¬ EndsInside rs p := by
  refine ⟨fun i => ⟨fun hi => ?_, fun hi => ?_⟩, ?_⟩
  · rw [h]
    exact le_of_lt (lineEnd_lt_of_lt hi)
  · by_contra hn
    have hle : lineStart rs n ≤ lineStart rs i := lineStart_mono (Nat.le_of_not_lt hn)
    have := lineStart_lt_lineEnd i
    omega
  · rintro ⟨i, h₁, h₂⟩
    rcases Nat.lt_or_ge i n with hi | hi
    · have := lineEnd_lt_of_lt hi
      omega
    · have hle : lineStart rs n ≤ lineStart rs i := lineStart_mono hi
      omega

/-- A prefix that ends inside the text of a record, or right after it. -/
theorem wholeLines_inside {p : Bytes} {m : Fin rs.length} (h₁ : lineStart rs m < p.length)
    (h₂ : p.length ≤ lineEnd rs m) :
    WholeLines rs p (if p.length = lineEnd rs m then m + 1 else m) ∧
      (EndsInside rs p ↔ p.length ≠ lineEnd rs m) := by
  have hlt (i : Fin rs.length) (hi : i < m) : lineEnd rs i ≤ p.length := by
    have := lineEnd_lt_of_lt hi
    omega
  have hgt (i : Fin rs.length) (hi : m < i) : p.length < lineStart rs i := by
    have := lineEnd_lt_of_lt hi
    omega
  constructor
  -- the records before the `m`-th are whole, and those after it have not begun
  · intro i
    rcases lt_trichotomy i m with hi | rfl | hi
    · refine ⟨fun _ => hlt i hi, fun _ => ?_⟩
      have : (i : ℕ) < m := hi
      split <;> omega
    · split <;> omega
    · have := hgt i hi
      have := lineStart_lt_lineEnd i
      have : (m : ℕ) < i := hi
      refine ⟨fun h => ?_, fun h => ?_⟩
      · split at h <;> omega
      · omega
  · refine ⟨?_, fun hne => ⟨m, h₁, by omega⟩⟩
    rintro ⟨i, hi₁, hi₂⟩ e
    rcases lt_trichotomy i m with hi | rfl | hi
    · have := hlt i hi
      omega
    · omega
    · have := hgt i hi
      omega

/-- **What the reader makes of a prefix of a log.** -/
theorem readLog_front {p : Bytes} (hp : p <+: logBytes rs) :
    ∃ n torn, readLog p = some ((rs.take n).map JsonObject.toJson, torn) ∧ WholeLines rs p n ∧
      torn ≤ 1 ∧ (torn = 1 ↔ EndsInside rs p) := by
  obtain ⟨m, t, rfl, ht⟩ := exists_cut hp
  rcases eq_or_ne t [] with rfl | h0
  · have hl : (tornBytes (rs.take m) []).length = lineStart rs m := by
      rw [tornBytes, List.append_nil]
      rfl
    obtain ⟨hw, hi⟩ := wholeLines_boundary hl
    have hr : tornBytes (rs.take m) [] = logBytes (rs.take m) := by
      rw [tornBytes, List.append_nil]
      rfl
    exact ⟨m, 0, by rw [hr, readLog_logBytes], hw, by decide, by simpa using hi⟩
  obtain ⟨r, hr, hpre⟩ := ht.resolve_left h0
  obtain ⟨hm, rfl⟩ := List.getElem?_eq_some_iff.mp hr
  have hl : (tornBytes (rs.take m) t).length = lineStart rs m + t.length :=
    length_tornBytes m hpre
  have hpos := List.length_pos_iff.mpr h0
  have hle := hpre.length_le
  have hend : lineEnd rs ⟨m, hm⟩ = lineStart rs m + (encode rs[m]).length := by
    rw [lineEnd, length_utf8_encode]
    rfl
  obtain ⟨hw, hi⟩ := wholeLines_inside (m := ⟨m, hm⟩) (p := tornBytes (rs.take m) t)
    (by simp only; omega) (by omega)
  -- a last line that lacks only its newline is read
  by_cases he : t = encode rs[m]
  · have hq : (tornBytes (rs.take m) t).length = lineEnd rs ⟨m, hm⟩ := by rw [hl, hend, he]
    rw [if_pos hq] at hw
    refine ⟨m + 1, 0, ?_, hw, by decide, by simp [hi, hq]⟩
    rw [he, readLog_whole, List.take_succ_eq_append_getElem hm, List.map_append]
    rfl
  · have hq : (tornBytes (rs.take m) t).length ≠ lineEnd rs ⟨m, hm⟩ := fun e =>
      he (hpre.eq_of_length (by omega))
    rw [if_neg hq] at hw
    exact ⟨m, 1, readLog_torn _ hpre he h0, hw, le_refl 1, by simp [hi, hq]⟩

theorem take_of_wholeLines {n : ℕ} (h : WholeLines rs (logBytes rs) n) : rs.take n = rs := by
  rw [List.take_eq_self_iff]
  by_contra hn
  have hlt : n < rs.length := Nat.lt_of_not_le hn
  have hend : lineEnd rs ⟨n, hlt⟩ < lineStart rs rs.length := lineEnd_lt_of_lt hlt
  have hfull : lineStart rs rs.length = (logBytes rs).length := by
    rw [lineStart, List.take_length]
  have := (h ⟨n, hlt⟩).mpr (by omega)
  exact absurd this (Nat.lt_irrefl n)

theorem take_eq_of_wholeLines {p : Bytes} {m n : ℕ} (hm : WholeLines rs p m)
    (hn : WholeLines rs p n) : rs.take m = rs.take n := by
  refine List.ext_getElem? fun i => ?_
  rw [List.getElem?_take, List.getElem?_take]
  rcases Nat.lt_or_ge i rs.length with hi | hi
  · have h := (hm ⟨i, hi⟩).trans (hn ⟨i, hi⟩).symm
    simp only at h
    simp only [h]
  · rw [List.getElem?_eq_none hi, ite_self, ite_self]

/-! ## Lines added after a crash -/

/-- The file is empty or ends with a newline. -/
def CleanCut (p : Bytes) : Prop := p = [] ∨ p.getLast? = some 0x0A

instance (p : Bytes) : Decidable (CleanCut p) := inferInstanceAs (Decidable (_ ∨ _))

theorem cleanCut_logBytes (rs : List JsonObject) : CleanCut (logBytes rs) := by
  rcases List.eq_nil_or_concat rs with rfl | ⟨l, r, rfl⟩
  · exact Or.inl rfl
  · right
    have hr : logBytes [r] = Utf8.encode (encode r) ++ [0x0A] := by
      rw [logBytes, logText_singleton, line, Utf8.encode_append]
      rfl
    rw [List.concat_eq_append, logBytes_append, hr, ← List.append_assoc, List.getLast?_concat]

theorem not_cleanCut_tornBytes (rs : List JsonObject) {r : JsonObject} {t : List Char}
    (ht : t <+: encode r) (h0 : t ≠ []) : ¬ CleanCut (tornBytes rs t) := by
  obtain ⟨l, c, rfl⟩ := List.eq_nil_or_concat t |>.resolve_left h0
  rw [List.concat_eq_append] at ht ⊢
  have hc : Printable c := printable_front ht c (by simp)
  have he : Utf8.encode [c] = [c.toNat.toUInt8] :=
    Utf8.encode_ascii fun x hx => by rw [List.mem_singleton.mp hx]; exact hc.isAscii
  have hb : tornBytes rs (l ++ [c]) = Utf8.encode (logText rs ++ l) ++ [c.toNat.toUInt8] := by
    rw [tornBytes, ← List.append_assoc, Utf8.encode_append, he]
  rw [hb]
  rintro (h | h)
  · exact absurd h (by simp)
  · rw [List.getLast?_concat, Option.some.injEq] at h
    have hn := congrArg UInt8.toNat h
    obtain ⟨h₁, h₂⟩ := hc
    rw [UInt8.toNat_ofNat', Nat.mod_eq_of_lt (by omega)] at hn
    have h10 : (0x0A : UInt8).toNat = 10 := rfl
    omega

theorem exists_readLog_reopen {p : Bytes} (hp : p <+: logBytes rs) {rs' : List JsonObject}
    (hne : rs' ≠ []) {n : ℕ} (hn : WholeLines rs p n) :
    ∃ out torn, readLog (p ++ logBytes rs') = some (out.map JsonObject.toJson, torn) ∧
      (out = rs.take n ++ rs' ↔ CleanCut p) := by
  obtain ⟨m, t, rfl, ht⟩ := exists_cut hp
  rcases eq_or_ne t [] with rfl | h0
  · have hb : tornBytes (rs.take m) [] = logBytes (rs.take m) := by
      rw [tornBytes, List.append_nil]
      rfl
    have hw : WholeLines rs (logBytes (rs.take m)) m := (wholeLines_boundary rfl).1
    rw [hb] at hn ⊢
    rw [← logBytes_append]
    refine ⟨_, 0, readLog_logBytes _, ?_⟩
    rw [take_eq_of_wholeLines hn hw]
    exact iff_of_true rfl (cleanCut_logBytes _)
  obtain ⟨r, hr, hpre⟩ := ht.resolve_left h0
  obtain ⟨hm, rfl⟩ := List.getElem?_eq_some_iff.mp hr
  obtain ⟨r', rs', rfl⟩ := List.exists_cons_of_ne_nil hne
  -- the first added line is lost, whether or not the object before it was whole
  have hread : readLog (tornBytes (rs.take m) t ++ logBytes (r' :: rs')) =
      some ((rs.take m ++ rs').map JsonObject.toJson, 1) := by
    rw [List.map_append]
    by_cases he : t = encode rs[m]
    · rw [he]
      exact readLog_whole_append _ r' rs'
    · exact readLog_torn_append _ hpre he h0 r' rs'
  refine ⟨_, 1, hread, iff_of_false (fun e => ?_) (not_cleanCut_tornBytes _ hpre h0)⟩
  have hlen := congrArg List.length e
  have hle : (rs.take m).length ≤ (rs.take n).length := by
    have hmn : m ≤ n := by
      by_contra hlt
      have hstart : lineStart rs m < (tornBytes (rs.take m) t).length := by
        rw [length_tornBytes m hpre]
        have := List.length_pos_iff.mpr h0
        omega
      have hnm : n < m := Nat.lt_of_not_le hlt
      have hlt' : lineEnd rs ⟨n, by omega⟩ < lineStart rs m := lineEnd_lt_of_lt hnm
      exact absurd ((hn ⟨n, by omega⟩).mpr (by omega)) (Nat.lt_irrefl n)
    exact (List.take_prefix_take_left hmn).length_le
  simp only [List.length_append, List.length_cons] at hlen
  omega

end Json

namespace AuditWal

/-- **Crash recovery reads exactly what was written.** The records appended to an empty log are
read back from any prefix of its file as far as their text lies inside it, all of them from the
whole file, and a torn line is counted exactly when the prefix ends strictly inside one. -/
theorem records_after_crash (config config' : WalConfig) (now now' : ℚ)
    (rs : List (AppendClock × JsonObject)) (p : Bytes)
    (hp : p <+: ((openAt config now []).appendAll rs).file) :
    ∃ (n : ℕ) (w : AuditWal),
      (openAt config' now' p).records = .ok (((rs.map Prod.snd).take n).map JsonObject.toJson, w) ∧
      w.file = p ∧
      (∀ i : Fin (rs.map Prod.snd).length, i < n ↔ lineEnd (rs.map Prod.snd) i ≤ p.length) ∧
      (p = ((openAt config now []).appendAll rs).file →
        (rs.map Prod.snd).take n = rs.map Prod.snd) ∧
      w.stats.truncated ≤ 1 ∧
      (w.stats.truncated = 1 ↔ ∃ i : Fin (rs.map Prod.snd).length,
        lineStart (rs.map Prod.snd) i < p.length ∧ p.length < lineEnd (rs.map Prod.snd) i) := by
  have hfile : ((openAt config now []).appendAll rs).file = logBytes (rs.map Prod.snd) :=
    file_appendAll (openAt config now []) rs
  rw [hfile] at hp ⊢
  obtain ⟨n, torn, hr, hw, ht, hi⟩ := readLog_front hp
  have htorn : (0 : ℕ) + torn = torn := Nat.zero_add torn
  refine ⟨n, _, records_of_file (w := openAt config' now' p) hr, rfl, hw,
    fun e => take_of_wholeLines (e ▸ hw), ?_, ?_⟩
  · exact htorn.symm ▸ ht
  · exact (iff_of_eq (congrArg (· = 1) htorn)).trans hi

/-- One record, `{"decision_id": "d"}`, with the clock at rest. -/
def oneRecord : AppendClock × JsonObject :=
  (⟨0, 0, 0, 0⟩, .withId (PyStr.ofString "d") (by decide +kernel))

/-- Two records of twenty bytes with their newlines, cut after the first byte of the second. -/
theorem records_after_crash_torn :
    ∃ w, (openAt {} 0 (((openAt {} 0 []).appendAll [oneRecord, oneRecord]).file.take 21)).records =
      .ok ([oneRecord.2.toJson], w) ∧ w.stats.truncated = 1 := by
  obtain ⟨n, w, hr, -, hn, -, -, ht⟩ := records_after_crash {} {} 0 0 [oneRecord, oneRecord]
    (((openAt {} 0 []).appendAll [oneRecord, oneRecord]).file.take 21) (List.take_prefix _ _)
  have hlen : (((openAt {} 0 []).appendAll [oneRecord, oneRecord]).file.take 21).length = 21 := by
    decide +kernel
  rw [hlen] at hn ht
  have h0 : 0 < n := (hn ⟨0, by decide⟩).mpr (by decide +kernel)
  have h1 : ¬ 1 < n := fun h => absurd ((hn ⟨1, by decide⟩).mp h) (by decide +kernel)
  obtain rfl : n = 1 := by omega
  exact ⟨w, hr, ht.mpr ⟨⟨1, by decide⟩, by decide +kernel, by decide +kernel⟩⟩

end AuditWal
