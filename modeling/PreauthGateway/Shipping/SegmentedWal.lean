import PreauthGateway.Wal.Records

/-!
# The segmented log

The log is a directory of numbered files. Records are appended to the active segment; when it has
reached its size the next one is opened. Recovery reads the segments in the order of their names,
and a restart resumes the segment whose name comes last. The number in a name is padded with zeros
to eight digits, so the order of the names is that of the numbers as long as these have at most
eight.

A file whose name is removed while it is open keeps its contents for the process that has it open.

## Main definitions

* `SegmentDir`, `segmentName`, `segments`: the files, their names and their listing
* `SegmentedWal`, `SegmentedWal.openAt`, `SegmentedWal.append`, `SegmentedWal.records`

## Main results

* `segmentName_le_iff`: **up to eight digits, names are ordered as numbers**
* `SegmentedWal.append_cases`: what an append does
* `SegmentedWal.WellNumbered.append`: the active segment stays the last one
-/

open Json

/-! ## Names -/

/-- The segment files by number. -/
abbrev SegmentDir := AList fun _ : ℕ => Bytes

/-- `"{:08d}".format(seq)`. -/
def pad8 (n : ℕ) : List Char :=
  List.replicate (8 - (Nat.toDigits 10 n).length) '0' ++ Nat.toDigits 10 n

/-- The name of a segment file. -/
def segmentName (n : ℕ) : List Char := "seg-".toList ++ pad8 n ++ ".jsonl".toList

/-- `sorted(root.glob("seg-*.jsonl"))`, by number. -/
def segments (d : SegmentDir) : List ℕ :=
  d.keys.insertionSort fun a b => segmentName a ≤ segmentName b

/-- `_highest_segment`. -/
def highestSegment (d : SegmentDir) : ℕ := (segments d).getLast?.getD 0

/-- The last `k` digits of a number. -/
def lastDigits : ℕ → ℕ → List Char
  | 0, _ => []
  | k + 1, n => lastDigits k (n / 10) ++ [(n % 10).digitChar]

theorem length_lastDigits (k n : ℕ) : (lastDigits k n).length = k := by
  induction k generalizing n with
  | zero => rfl
  | succ k ih => rw [lastDigits, List.length_append, ih, List.length_singleton]

theorem append_lt_append {s t u v : List Char} (h : s < t) (hl : s.length = t.length) :
    s ++ u < t ++ v := by
  induction s generalizing t with
  | nil => cases t with
    | nil => exact absurd h (lt_irrefl _)
    | cons c t => cases hl
  | cons c s ih =>
    cases t with
    | nil => cases hl
    | cons d t =>
      rw [List.cons_append, List.cons_append]
      rcases List.cons_lt_cons_iff.mp h with hc | ⟨rfl, hs⟩
      · exact List.cons_lt_cons_iff.mpr (Or.inl hc)
      · exact List.cons_lt_cons_iff.mpr (Or.inr ⟨rfl, ih hs (Nat.succ.inj hl)⟩)

theorem digitChar_lt : ∀ a < 10, ∀ b < 10, a < b → Nat.digitChar a < Nat.digitChar b := by decide

theorem lastDigits_lt {k a b : ℕ} (h : a < b) (hb : b < 10 ^ k) :
    lastDigits k a < lastDigits k b := by
  induction k generalizing a b with
  | zero => omega
  | succ k ih =>
    rw [lastDigits, lastDigits]
    have hb' : b / 10 < 10 ^ k := by omega
    rcases Nat.lt_or_ge (a / 10) (b / 10) with hd | hd
    · exact append_lt_append (ih hd hb') (by rw [length_lastDigits, length_lastDigits])
    · have he : a / 10 = b / 10 := by omega
      have hm : a % 10 < b % 10 := by omega
      rw [he]
      exact List.append_left_lt (List.cons_lt_cons_iff.mpr (Or.inl
        (digitChar_lt _ (Nat.mod_lt _ (by decide)) _ (Nat.mod_lt _ (by decide)) hm)))

theorem lastDigits_zero (k : ℕ) : lastDigits k 0 = List.replicate k '0' := by
  induction k with
  | zero => rfl
  | succ k ih => rw [lastDigits, Nat.zero_div, ih, List.replicate_succ']; rfl

/-- Padding with zeros keeps the last digits. -/
theorem replicate_toDigits {k n : ℕ} (hk : 0 < k) (h : n < 10 ^ k) :
    List.replicate (k - (Nat.toDigits 10 n).length) '0' ++ Nat.toDigits 10 n = lastDigits k n := by
  induction k generalizing n with
  | zero => omega
  | succ k ih =>
    rcases Nat.lt_or_ge n 10 with hn | hn
    · rw [Nat.toDigits_of_lt_base hn, lastDigits, Nat.div_eq_of_lt hn, lastDigits_zero,
        Nat.mod_eq_of_lt hn]
      rfl
    · have hk' : 0 < k := by
        rcases Nat.eq_zero_or_pos k with rfl | hk'
        · simp at h; omega
        · exact hk'
      rw [Nat.toDigits_of_base_le (by decide) hn, lastDigits, List.length_append,
        List.length_singleton, Nat.add_sub_add_right, ← List.append_assoc, ih hk' (by omega)]

theorem segmentName_lt {a b : ℕ} (h : a < b) (hb : b < 10 ^ 8) : segmentName a < segmentName b := by
  rw [segmentName, segmentName, List.append_assoc, List.append_assoc, pad8, pad8,
    replicate_toDigits (by decide) (Nat.lt_trans h hb), replicate_toDigits (by decide) hb]
  exact List.append_left_lt (append_lt_append (lastDigits_lt h hb)
    (by rw [length_lastDigits, length_lastDigits]))

/-- **Up to eight digits, names are ordered as numbers.** -/
theorem segmentName_le_iff {a b : ℕ} (ha : a < 10 ^ 8) (hb : b < 10 ^ 8) :
    segmentName a ≤ segmentName b ↔ a ≤ b := by
  refine ⟨fun h => ?_, fun h => ?_⟩
  · by_contra hn
    exact absurd (segmentName_lt (Nat.lt_of_not_le hn) ha) (not_lt_of_ge h)
  · rcases Nat.lt_or_eq_of_le h with h | rfl
    · exact le_of_lt (segmentName_lt h hb)
    · exact le_refl _

/-- With nine digits they are not. -/
example : segmentName 100000000 < segmentName 99999999 := by decide +kernel

theorem mem_segments {d : SegmentDir} {n : ℕ} : n ∈ segments d ↔ n ∈ d :=
  (List.mem_insertionSort _).trans AList.mem_keys.symm

theorem nodup_segments (d : SegmentDir) : (segments d).Nodup :=
  (List.perm_insertionSort _ _).nodup_iff.mpr d.keys_nodup

/-- A listing of numbers of at most eight digits is in the order of the numbers. -/
theorem sortedLE_segments {d : SegmentDir} (h : ∀ n ∈ d, n < 10 ^ 8) :
    (segments d).Pairwise (· < ·) := by
  have hs : (segments d).Pairwise fun a b => segmentName a ≤ segmentName b :=
    List.pairwise_insertionSort (fun a b => segmentName a ≤ segmentName b) d.keys
  have hn := nodup_segments d
  refine (hs.and hn).imp_of_mem fun {a b} ha hb hab => ?_
  exact Nat.lt_of_le_of_ne
    ((segmentName_le_iff (h a (mem_segments.mp ha)) (h b (mem_segments.mp hb))).mp hab.1) hab.2

/-- The last name of the listing is that of the segment a restart resumes. -/
theorem highestSegment_of_name {d : SegmentDir} {m : ℕ} (hm : m ∈ d)
    (hlast : ∀ n ∈ d, n ≠ m → segmentName n < segmentName m) : highestSegment d = m := by
  have hs : (segments d).Pairwise fun a b => segmentName a ≤ segmentName b :=
    List.pairwise_insertionSort (fun a b => segmentName a ≤ segmentName b) d.keys
  have hmem := mem_segments.mpr hm
  obtain ⟨l, a, hl⟩ := List.eq_nil_or_concat (segments d) |>.resolve_left
    (List.ne_nil_of_mem hmem)
  rw [List.concat_eq_append] at hl
  rw [highestSegment, hl, List.getLast?_concat, Option.getD_some]
  have ha : a ∈ d := mem_segments.mp (hl ▸ List.mem_append_right _ (List.mem_singleton_self a))
  rw [hl] at hs hmem
  by_contra hne
  rcases List.mem_append.mp hmem with h | h
  · have hle := (List.pairwise_append.mp hs).2.2 m h a (List.mem_singleton_self a)
    exact absurd hle (not_le_of_gt (hlast a ha hne))
  · exact hne (List.mem_singleton.mp h).symm

/-- The segment a restart resumes, when the numbers have at most eight digits. -/
theorem highestSegment_eq {d : SegmentDir} {m : ℕ} (hm : m ∈ d) (hle : ∀ n ∈ d, n ≤ m)
    (h8 : m < 10 ^ 8) : highestSegment d = m :=
  highestSegment_of_name hm fun n hn hne => segmentName_lt (Nat.lt_of_le_of_ne (hle n hn) hne) h8

/-! ## The log -/

/-- The settings of a segmented log. -/
structure SegmentConfig where
  segmentBytes : ℤ := 64 * 1024
  fsync : String := "batch"
  batchSize : ℤ := 50

/-- A segmented log with its files. `unlinked` is the contents of the open file when it has lost its
name. -/
structure SegmentedWal where
  config : SegmentConfig
  sinceSync : ℕ := 0
  seq : ℕ
  dir : SegmentDir
  unlinked : Option Bytes := none

namespace SegmentedWal

/-- `_open_segment`: the file is created when it does not exist. -/
def openSegment (n : ℕ) (w : SegmentedWal) : SegmentedWal :=
  { w with seq := n, dir := if n ∈ w.dir then w.dir else w.dir.insert n [], unlinked := none }

/-- `SegmentedWal(root, …)` on the files of `dir`. -/
def openAt (config : SegmentConfig) (dir : SegmentDir) : SegmentedWal :=
  openSegment (if highestSegment dir = 0 then 1 else highestSegment dir)
    { config, seq := highestSegment dir, dir }

/-- The contents of the open file. -/
def openFile (w : SegmentedWal) : Bytes := w.unlinked.getD ((w.dir.lookup w.seq).getD [])

/-- The write and the flush of bytes to the open file. -/
def write (b : Bytes) (w : SegmentedWal) : SegmentedWal :=
  match w.unlinked with
  | some _ => { w with unlinked := some (w.openFile ++ b) }
  | none => { w with dir := w.dir.insert w.seq (w.openFile ++ b) }

/-- The sync of `append`, which changes only the counter. -/
def syncIfDue (w : SegmentedWal) : SegmentedWal :=
  if w.config.fsync = "always" ∨ (w.config.fsync = "batch" ∧ w.config.batchSize ≤ w.sinceSync) then
    { w with sinceSync := 0 }
  else w

/-- `_rotate_if_needed`. -/
def rotateIfNeeded (w : SegmentedWal) : SegmentedWal :=
  if w.config.segmentBytes ≤ w.openFile.length then w.openSegment (w.seq + 1) else w

/-- `append`. -/
def append (record : JsonObject) (w : SegmentedWal) : SegmentedWal :=
  let w := w.write (Utf8.encode (line record))
  let w := { w with sinceSync := w.sinceSync + 1 }
  w.syncIfDue.rotateIfNeeded

def appendAll (w : SegmentedWal) (rs : List JsonObject) : SegmentedWal :=
  rs.foldl (fun w r => w.append r) w

/-- `read_segment`; the torn lines are skipped. -/
def readSegment (b : Bytes) : Except PyError (List Json) :=
  match readLog b with
  | some (out, _) => .ok out
  | none => .error .unicodeDecodeError

/-- The contents of a segment file. -/
def segment (w : SegmentedWal) (n : ℕ) : Bytes := (w.dir.lookup n).getD []

/-- The records of some segments, in turn. -/
def readSegments (w : SegmentedWal) : List ℕ → Except PyError (List Json)
  | [] => .ok []
  | n :: ns => do
    let out ← readSegment (w.segment n)
    let rest ← readSegments w ns
    return out ++ rest

/-- `records`. -/
def records (w : SegmentedWal) : Except PyError (List Json) := w.readSegments (segments w.dir)

/-- `active_segment`, by number. -/
def activeSegment (w : SegmentedWal) : ℕ := w.seq

/-- `unlink` of a segment file. -/
def unlink (n : ℕ) (w : SegmentedWal) : SegmentedWal :=
  { w with
    dir := w.dir.erase n
    unlinked := if n = w.seq ∧ w.unlinked = none then some w.openFile else w.unlinked }

/-! ## What the operations do -/

variable {w : SegmentedWal}

/-- The active segment with one more line. -/
def grown (w : SegmentedWal) (r : JsonObject) : SegmentDir :=
  w.dir.insert w.seq (w.segment w.seq ++ logBytes [r])

/-- The write of a record, with the counter raised. -/
def writeLine (record : JsonObject) (w : SegmentedWal) : SegmentedWal :=
  { w.write (Utf8.encode (line record)) with
    sinceSync := (w.write (Utf8.encode (line record))).sinceSync + 1 }

theorem append_eq_steps (w : SegmentedWal) (r : JsonObject) :
    w.append r = (w.writeLine r).syncIfDue.rotateIfNeeded := rfl

theorem writeLine_eq (h : w.unlinked = none) (r : JsonObject) :
    w.writeLine r = { w with dir := w.grown r, sinceSync := w.sinceSync + 1 } := by
  simp only [writeLine, write, h, openFile, Option.getD_none, grown, segment, logBytes,
    logText_singleton]

/-- Before the rotation, an append adds a line; the sync changes only the counter. -/
theorem append_eq (h : w.unlinked = none) (r : JsonObject) :
    ∃ k, w.append r = rotateIfNeeded { w with dir := w.grown r, sinceSync := k } := by
  rw [append_eq_steps, writeLine_eq h]
  unfold syncIfDue
  split
  · exact ⟨0, rfl⟩
  · exact ⟨_, rfl⟩

theorem lookup_grown (r : JsonObject) (n : ℕ) :
    ((w.grown r).lookup n).getD [] = w.segment n ++ if n = w.seq then logBytes [r] else [] := by
  rw [grown]
  rcases eq_or_ne n w.seq with rfl | hne
  · rw [AList.lookup_insert, if_pos rfl, Option.getD_some]
  · rw [AList.lookup_insert_ne hne, if_neg hne, List.append_nil]
    rfl

theorem mem_grown (r : JsonObject) {n : ℕ} : n ∈ w.grown r ↔ n = w.seq ∨ n ∈ w.dir :=
  AList.mem_insert _

/-- **What an append does**: one more line in the active segment, and then perhaps the next segment
is opened. -/
theorem append_cases (h : w.unlinked = none) (r : JsonObject) :
    (w.append r).config = w.config ∧ (w.append r).unlinked = none ∧
      ((w.append r).seq = w.seq ∧ (w.append r).dir = w.grown r ∨
        (w.append r).seq = w.seq + 1 ∧ (w.append r).dir =
          if w.seq + 1 ∈ w.grown r then w.grown r else (w.grown r).insert (w.seq + 1) []) := by
  obtain ⟨k, hk⟩ := append_eq h r
  rw [hk, rotateIfNeeded]
  split
  · exact ⟨rfl, rfl, Or.inr ⟨rfl, rfl⟩⟩
  · exact ⟨rfl, h, Or.inl ⟨rfl, rfl⟩⟩

theorem lookup_openDir (d : SegmentDir) (m n : ℕ) :
    ((if m ∈ d then d else d.insert m []).lookup n).getD [] = (d.lookup n).getD [] := by
  split
  · rfl
  · rename_i hm
    rcases eq_or_ne n m with rfl | hne
    · rw [AList.lookup_insert, AList.lookup_eq_none.mpr hm]
      rfl
    · rw [AList.lookup_insert_ne hne]

theorem mem_openDir {d : SegmentDir} {m n : ℕ} :
    n ∈ (if m ∈ d then d else d.insert m []) ↔ n = m ∨ n ∈ d := by
  split
  · rename_i hm
    refine ⟨Or.inr, ?_⟩
    rintro (rfl | hn)
    · exact hm
    · exact hn
  · exact AList.mem_insert _

/-- An append adds one line to the active segment and leaves the others. -/
theorem segment_append (h : w.unlinked = none) (r : JsonObject) (n : ℕ) :
    (w.append r).segment n = w.segment n ++ if n = w.seq then logBytes [r] else [] := by
  obtain ⟨-, -, ⟨-, hd⟩ | ⟨-, hd⟩⟩ := append_cases h r
  · rw [segment, hd, lookup_grown]
  · rw [segment, hd, lookup_openDir, lookup_grown]

theorem mem_append (h : w.unlinked = none) (r : JsonObject) {n : ℕ} :
    n ∈ (w.append r).dir ↔ n ∈ w.dir ∨ n = w.seq ∨ n = (w.append r).seq := by
  obtain ⟨-, -, ⟨hs, hd⟩ | ⟨hs, hd⟩⟩ := append_cases h r
  · rw [hd, hs, mem_grown]
    tauto
  · rw [hd, hs, mem_openDir, mem_grown]
    tauto

theorem seq_append (h : w.unlinked = none) (r : JsonObject) :
    (w.append r).seq = w.seq ∨ (w.append r).seq = w.seq + 1 := by
  obtain ⟨-, -, ⟨hs, -⟩ | ⟨hs, -⟩⟩ := append_cases h r
  · exact Or.inl hs
  · exact Or.inr hs

/-- With a size of at most one byte, every append opens the next segment. -/
theorem append_rotates (h : w.unlinked = none) (hs : w.config.segmentBytes ≤ 1) (r : JsonObject) :
    (w.append r).seq = w.seq + 1 := by
  obtain ⟨k, hk⟩ := append_eq h r
  have hfile : openFile { w with dir := w.grown r, sinceSync := k } =
      w.segment w.seq ++ (Utf8.encode (encode r) ++ Utf8.encode ['\n']) := by
    rw [openFile, h, Option.getD_none, grown, AList.lookup_insert, Option.getD_some, logBytes,
      logText_singleton, line, Utf8.encode_append]
  have hlen : 1 ≤ (openFile { w with dir := w.grown r, sinceSync := k }).length := by
    have hnl : (Utf8.encode ['\n']).length = 1 := by decide +kernel
    rw [hfile, List.length_append, List.length_append, hnl]
    omega
  rw [hk, rotateIfNeeded, if_pos (by show w.config.segmentBytes ≤ _; omega)]
  rfl

theorem segment_unlink (m n : ℕ) :
    (w.unlink m).segment n = if n = m then [] else w.segment n := by
  have hd : (w.unlink m).dir = w.dir.erase m := rfl
  rw [segment, hd]
  rcases eq_or_ne n m with rfl | h
  · rw [AList.lookup_erase, if_pos rfl]
    rfl
  · rw [AList.lookup_erase_ne h, if_neg h]
    rfl

/-- The active segment exists, under its name, and no segment has a larger number. -/
structure WellNumbered (w : SegmentedWal) : Prop where
  linked : w.unlinked = none
  active : w.seq ∈ w.dir
  last : ∀ n ∈ w.dir, n ≤ w.seq

/-- **The active segment stays the last one.** -/
theorem WellNumbered.append (h : w.WellNumbered) (r : JsonObject) : (w.append r).WellNumbered := by
  refine ⟨(append_cases h.linked r).2.1, (mem_append h.linked r).mpr (Or.inr (Or.inr rfl)),
    fun n hn => ?_⟩
  have hseq := seq_append h.linked r
  rcases (mem_append h.linked r).mp hn with hn | rfl | rfl
  · have := h.last n hn
    omega
  · omega
  · exact le_refl _

theorem WellNumbered.unlink (h : w.WellNumbered) {n : ℕ} (hn : n ≠ w.seq) :
    (w.unlink n).WellNumbered := by
  refine ⟨?_, ?_, fun m hm => h.last m (AList.mem_erase.mp hm).2⟩
  · simp only [SegmentedWal.unlink, hn, false_and, if_false, h.linked]
  · exact AList.mem_erase.mpr ⟨hn.symm, h.active⟩

/-- A restart resumes the segment with the last name. -/
theorem openAt_of_highest {d : SegmentDir} {m : ℕ} (h : highestSegment d = m) (h0 : m ≠ 0)
    (hm : m ∈ d) (config : SegmentConfig) : openAt config d = { config, seq := m, dir := d } := by
  rw [openAt, h, if_neg h0, openSegment, if_pos hm]

/-- A restart finds the log as it was, when the numbers have at most eight digits. -/
theorem openAt_dir (h : w.WellNumbered) (h8 : w.seq < 10 ^ 8) (h0 : 0 < w.seq)
    (config : SegmentConfig) :
    openAt config w.dir = { config, seq := w.seq, dir := w.dir } :=
  openAt_of_highest (highestSegment_eq h.active h.last h8) (Nat.pos_iff_ne_zero.mp h0) h.active
    config

/-- A restart changes no segment. -/
theorem segment_openAt (config : SegmentConfig) (d : SegmentDir) (n : ℕ) :
    (openAt config d).segment n = (d.lookup n).getD [] := by
  rw [segment, openAt, openSegment]
  exact lookup_openDir d _ n

theorem openAt_empty (config : SegmentConfig) :
    openAt config ∅ = { config, seq := 1, dir := (∅ : SegmentDir).insert 1 [] } := rfl

theorem openAt_empty_wellNumbered (config : SegmentConfig) :
    (openAt config ∅).WellNumbered := by
  rw [openAt_empty]
  refine ⟨rfl, AList.mem_insert _ |>.mpr (Or.inl rfl), fun n hn => ?_⟩
  exact ((AList.mem_insert _).mp hn).elim (fun e => le_of_eq e) fun h =>
    absurd h (AList.notMem_empty n)

/-- A listing of consecutive numbers. -/
theorem segments_eq_range {d : SegmentDir} {a b : ℕ} (h : ∀ n, n ∈ d ↔ a ≤ n ∧ n < b)
    (h8 : b ≤ 10 ^ 8) : segments d = List.range' a (b - a) := by
  have hp := sortedLE_segments (d := d) fun n hn => by have := (h n).mp hn; omega
  have hr : (List.range' a (b - a)).Pairwise (· < ·) := List.pairwise_lt_range'
  refine List.Perm.eq_of_pairwise (fun a b _ _ h₁ h₂ => absurd h₁ ?_) hp hr ?_
  · omega
  rw [List.perm_ext_iff_of_nodup (nodup_segments d) List.nodup_range']
  intro n
  rw [mem_segments, h, List.mem_range'_1]
  omega

/-! ## Logs of whole lines -/

theorem readSegment_logBytes (rs : List JsonObject) :
    readSegment (logBytes rs) = .ok (rs.map JsonObject.toJson) := by
  rw [readSegment, readLog_logBytes]

/-- Segment by segment, the records of the log. -/
theorem readSegments_eq {ns : List ℕ} {f : ℕ → List Json}
    (h : ∀ n ∈ ns, readSegment (w.segment n) = .ok (f n)) :
    w.readSegments ns = .ok (ns.flatMap f) := by
  induction ns with
  | nil => rfl
  | cons n ns ih =>
    rw [readSegments, h n List.mem_cons_self, ih fun m hm => h m (List.mem_cons_of_mem _ hm)]
    rfl

/-- With a size of at most one byte, each record has a segment of its own. -/
theorem appendAll_rotating (config : SegmentConfig) (h : config.segmentBytes ≤ 1)
    (rs : List JsonObject) : ∀ w, (openAt config ∅).appendAll rs = w →
      w.WellNumbered ∧ w.config = config ∧ w.seq = rs.length + 1 ∧
        (∀ n, n ∈ w.dir ↔ 0 < n ∧ n ≤ rs.length + 1) ∧
        w.segment 0 = [] ∧ ∀ i, w.segment (i + 1) = logBytes rs[i]?.toList := by
  induction rs using List.reverseRecOn with
  | nil =>
    rintro w rfl
    have hopen : (openAt config ∅).appendAll [] = openAt config ∅ := rfl
    rw [hopen]
    refine ⟨openAt_empty_wellNumbered config, rfl, rfl, ?_, rfl, ?_⟩
    · intro n
      rw [openAt_empty, AList.mem_insert, List.length_nil]
      simp only [AList.notMem_empty, or_false]
      omega
    · intro i
      rw [openAt_empty, segment]
      rcases Nat.eq_zero_or_pos i with rfl | hi
      · rfl
      · rw [AList.lookup_insert_ne (by omega)]
        rfl
  | append_singleton rs r ih =>
    rintro w rfl
    obtain ⟨hw, hc, hseq, hdir, h0, hseg⟩ := ih _ rfl
    have happ : (openAt config ∅).appendAll (rs ++ [r]) =
        ((openAt config ∅).appendAll rs).append r := by
      simp [appendAll]
    generalize (openAt config ∅).appendAll rs = v at *
    -- any line fills the active segment, so every append opens the next one
    have hnext := append_rotates hw.linked (hc ▸ h) r
    rw [happ]
    refine ⟨hw.append r, (append_cases hw.linked r).1.trans hc, ?_, ?_, ?_, ?_⟩
    · rw [hnext, hseq, List.length_append, List.length_singleton]
    · intro n
      rw [mem_append hw.linked, hdir, hnext, hseq, List.length_append, List.length_singleton]
      omega
    · rw [segment_append hw.linked, h0, if_neg (by omega)]
      rfl
    · intro i
      rw [segment_append hw.linked, hseg, hseq]
      rcases lt_trichotomy i rs.length with hi | rfl | hi
      · rw [if_neg (by omega), List.append_nil, List.getElem?_append_left hi]
      · rw [if_pos rfl, List.getElem?_append_right (le_refl _), Nat.sub_self,
          List.getElem?_eq_none (le_refl _)]
        rfl
      · rw [if_neg (by omega), List.append_nil, List.getElem?_eq_none (by omega),
          List.getElem?_eq_none (by rw [List.length_append, List.length_singleton]; omega)]

end SegmentedWal
