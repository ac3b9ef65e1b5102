import PreauthGateway.Json.Limits
import PreauthGateway.Shipping.ShipOnce

/-!
# Watermarks that cannot be read

`read` answers a file that is no JSON, or an object without the key `"shipped"`, with the empty set.
It raises on other files that are no watermark: on bytes that are no UTF-8, on a JSON value that is
no object, on a `"shipped"` that cannot be iterated or holds an unhashable value, and where
`json.loads` meets a limit of the interpreter. And it makes a set of ids from a string, an object,
or a list of other values.

## Main definitions

* `Watermark.readWithin`: `read`, under the limits of the interpreter
* `Watermark.IsWatermark`: a JSON object whose `"shipped"` is an array of strings
* `Shipping.ReadsAsNothing`: the file reads as the empty set, so nothing counts as shipped
* `Watermark.HoldsNothing`: the files for which it does

## Main results

* `Watermark.read_of_readWithin`: what is read under limits is what `read` reads
* `Shipping.exec_truncate_empty`: where nothing counts as shipped, nothing is deleted
* `Shipping.unreadable_iff`: **which unreadable watermarks read as nothing**
-/

open Json

namespace Watermark

/-- What `json.loads` raises. A `JSONDecodeError` reads as the empty set. -/
def loadFailure (lim : Limits) : LoadError → Except PyError PySet
  | .decode => .ok .empty
  | .recursion => .error .recursionError
  | .digits n => .error (.valueError ("Exceeds the limit (" ++ toString lim.digits ++
      " digits) for integer string conversion: value has " ++ toString n ++
      " digits; use sys.set_int_max_str_digits() to increase the limit"))

/-- `read`, on the contents of the file, under the limits of the interpreter. -/
def readWithin (lim : Limits) : Option Bytes → Except PyError PySet
  | none => .ok .empty
  | some b =>
    match readText b with
    | none => .error .unicodeDecodeError
    | some t =>
      match loadsWithin lim t with
      | .error e => loadFailure lim e
      | .ok v => shippedIn v

/-- **What is read under limits is what `read` reads.** -/
theorem read_of_readWithin {lim : Limits} {file : Option Bytes} {ids : PySet}
    (h : readWithin lim file = .ok ids) : read file = .ok ids := by
  cases file with
  | none => exact h
  | some b =>
    rw [readWithin] at h
    rw [read]
    cases ht : readText b with
    | none =>
      rw [ht] at h
      cases h
    | some t =>
      rw [ht] at h
      dsimp only at h ⊢
      rcases (loadsWithin_agrees lim t).cases with ⟨v, hf, hg⟩ | ⟨hf, hg⟩ | ⟨e, he, hf⟩
      · rw [hf] at h
        rw [hg]
        exact h
      · rw [hf] at h
        rw [hg]
        exact h
      · rw [hf] at h
        cases e with
        | decode => exact absurd rfl he
        | recursion => cases h
        | digits n => cases h

/-- A JSON object whose member `"shipped"` is an array of strings. -/
def IsWatermark (b : Bytes) : Prop :=
  ∃ t kvs xs, readText b = some t ∧ loads t = some (.obj kvs) ∧
    Json.get? shippedKey kvs = some (.arr xs) ∧ ∀ x ∈ xs, ∃ y, x = .str y

/-- The text is no JSON, or an object in which `"shipped"` is missing, `""` or an empty object. -/
def HoldsNothing (lim : Limits) (b : Bytes) : Prop :=
  ∃ t, readText b = some t ∧ (loadsWithin lim t = .error .decode ∨
    ∃ kvs, loadsWithin lim t = .ok (.obj kvs) ∧
      ∀ x, Json.get? shippedKey kvs = some x → x = .str [] ∨ x = .obj [])

theorem setOf_eq_empty {xs : List Json} : setOf xs = .ok .empty ↔ xs = [] := by
  refine ⟨fun h => ?_, fun h => by rw [h]; rfl⟩
  unfold setOf at h
  split at h
  · rename_i ids hids
    cases h
    by_contra hne
    obtain ⟨x, hx⟩ := List.exists_mem_of_ne_nil xs hne
    cases hk : x.key with
    | none =>
      rw [PySet.ofList_eq_none.mpr ⟨x, hx, hk⟩] at hids
      cases hids
    | some k => exact PySet.not_mem_empty k ((PySet.mem_ofList hids k).mpr ⟨x, hx, hk⟩)
  · cases h

/-- A value is iterated to the empty set when it is an empty list, string or object. -/
theorem iterate_eq_empty {x : Json} :
    iterate x = .ok .empty ↔ x = .arr [] ∨ x = .str [] ∨ x = .obj [] := by
  cases x with
  | arr xs => simp [iterate, setOf_eq_empty]
  | str s => simp [iterate, setOf_eq_empty]
  | obj kvs => simp [iterate, setOf_eq_empty]
  | null => simp [iterate]
  | bool b => simp [iterate]
  | int i => simp [iterate]
  | float lit => simp [iterate]

theorem shippedIn_eq_empty {v : Json} : shippedIn v = .ok .empty ↔
    ∃ kvs, v = .obj kvs ∧ ∀ x, Json.get? shippedKey kvs = some x →
      x = .arr [] ∨ x = .str [] ∨ x = .obj [] := by
  cases v with
  | obj kvs =>
    rw [shippedIn]
    cases hx : Json.get? shippedKey kvs with
    | none => simp [hx]
    | some x => simp [hx, iterate_eq_empty]
  | null => simp [shippedIn]
  | bool b => simp [shippedIn]
  | int i => simp [shippedIn]
  | float lit => simp [shippedIn]
  | str s => simp [shippedIn]
  | arr xs => simp [shippedIn]

/-- **Which files that are no watermark read as the empty set.** -/
theorem readWithin_eq_empty {lim : Limits} {b : Bytes} (h : ¬ IsWatermark b) :
    readWithin lim (some b) = .ok .empty ↔ HoldsNothing lim b := by
  rw [readWithin, HoldsNothing]
  cases ht : readText b with
  | none => simp
  | some t =>
    dsimp only
    cases hload : loadsWithin lim t with
    | error e => cases e <;> simp [loadFailure, hload]
    | ok v =>
      rw [shippedIn_eq_empty]
      constructor
      · rintro ⟨kvs, rfl, hshipped⟩
        refine ⟨t, rfl, .inr ⟨kvs, hload, fun x hx => ?_⟩⟩
        -- an empty array would make it a watermark
        refine (hshipped x hx).resolve_left fun hx' => h ⟨t, kvs, [], ht, ?_, hx' ▸ hx, by simp⟩
        exact (loadsWithin_agrees lim t).1 _ hload
      · rintro ⟨t', ht', hcases⟩
        cases ht'
        rw [hload] at hcases
        obtain hdecode | ⟨kvs, hkvs, hshipped⟩ := hcases
        · cases hdecode
        · cases hkvs
          exact ⟨kvs, rfl, fun x hx => .inr (hshipped x hx)⟩

end Watermark

namespace Shipping

section Empty

variable {sink : Sink} {s : World}

/-- Where nothing counts as shipped, no segment is deleted: the first record of a segment is not
acknowledged, or its id cannot be looked up. -/
theorem exec_truncateSegments_empty (active : ℕ) (ns : List ℕ) (deleted : ℕ) :
    (Prog.exec (serve sink) (Shipper.truncateSegments .empty active ns deleted) s).2 = s := by
  induction ns with
  | nil => rfl
  | cons n ns ih =>
    rw [Shipper.truncateSegments]
    split
    · exact ih
    rw [Prog.exec_bind, exec_readSegment]
    cases SegmentedWal.readSegment (s.wal.segment n) with
    | error e => rfl
    | ok recs =>
      rw [Prog.andThen]
      split
      · exact ih
      rename_i hne
      obtain ⟨r, rs, rfl⟩ := List.exists_cons_of_ne_nil hne
      have hfirst : allIn .empty (r :: rs) ≠ .ok true := by
        rw [allIn, idIn]
        cases getDecisionId r with
        | error e => simp [bind, Except.bind]
        | ok i =>
          dsimp only [bind, Except.bind]
          cases hashKey i with
          | error e => simp
          | ok k => simp [pure, Except.pure]
      cases hall : allIn .empty (r :: rs) with
      | error e => rfl
      | ok b =>
        cases b with
        | false => exact ih
        | true => exact absurd hall hfirst

theorem exec_truncate_empty (h : Watermark.read s.watermark = .ok .empty) :
    (Prog.exec (serve sink) Shipper.truncate s).2 = s := by
  rw [Shipper.truncate, Prog.exec_bind, exec_readWatermark, h, Prog.andThen, exec_ask_bind,
    exec_ask_bind]
  exact exec_truncateSegments_empty _ _ _

/-- Where nothing counts as shipped, every record is unshipped. -/
theorem exec_unshipped_empty (h : Watermark.read s.watermark = .ok .empty) {recs : List JsonObject}
    (hrecs : s.wal.records = .ok (recs.map JsonObject.toJson)) (hh : ∀ r ∈ recs, r.Hashable) :
    Prog.exec (serve sink) Shipper.unshipped s = (.ok (recs.map JsonObject.toJson), s) := by
  rw [exec_unshipped, pendingOf, h, hrecs]
  have hall : notIn .empty (recs.map JsonObject.toJson) = .ok (recs.map JsonObject.toJson) :=
    (notIn_eq hh).trans (congrArg Except.ok (pendingRecords_empty recs))
  exact Prod.ext hall rfl

end Empty

/-- The watermark file reads as the empty set, so `unshipped` returns every record, and `truncate`
deletes no segment. -/
def ReadsAsNothing (sink : Sink) (lim : Limits) (b : Bytes) : Prop :=
  Watermark.readWithin lim (some b) = .ok .empty ∧
    ∀ s : World, s.watermark = some b →
      (∀ recs : List JsonObject, s.wal.records = .ok (recs.map JsonObject.toJson) →
        (∀ r ∈ recs, r.Hashable) →
        Prog.exec (serve sink) Shipper.unshipped s = (.ok (recs.map JsonObject.toJson), s)) ∧
      (Prog.exec (serve sink) Shipper.truncate s).2.wal.dir = s.wal.dir

/-- What is written is read back, under the limits of the interpreter. -/
def ReadsBack (sink : Sink) (lim : Limits) (ids : PySet) (s : World) : Prop :=
  ∃ s' ids', Prog.exec (serve sink) (Shipper.writeWatermark ids) s = (.ok (), s') ∧
    Watermark.readWithin lim s'.watermark = .ok ids' ∧ ∀ k, ids'.Mem k ↔ ids.Mem k

theorem readsAsNothing_iff (sink : Sink) {lim : Limits} {b : Bytes}
    (h : ¬ Watermark.IsWatermark b) :
    ReadsAsNothing sink lim b ↔ Watermark.HoldsNothing lim b := by
  rw [← Watermark.readWithin_eq_empty h]
  refine ⟨fun hread => hread.1, fun hread => ⟨hread, fun s hs => ?_⟩⟩
  have hempty : Watermark.read s.watermark = .ok .empty :=
    hs ▸ Watermark.read_of_readWithin hread
  exact ⟨fun recs hrecs hh => exec_unshipped_empty hempty hrecs hh,
    by rw [exec_truncate_empty hempty]⟩

/-- A list whose values are all strings of Unicode characters. -/
theorem exists_strings {l : List Json} (h : ∀ v ∈ l, ∃ x, v = .str x ∧ x.Unicode) :
    ∃ xs : List PyStr, l = xs.map .str ∧ ∀ x ∈ xs, x.Unicode := by
  induction l with
  | nil => exact ⟨[], rfl, by simp⟩
  | cons v l ih =>
    obtain ⟨x, rfl, hx⟩ := h v List.mem_cons_self
    obtain ⟨xs, rfl, hxs⟩ := ih fun w hw => h w (List.mem_cons_of_mem _ hw)
    exact ⟨x :: xs, rfl, List.forall_mem_cons.mpr ⟨hx, hxs⟩⟩

/-- **A set of strings is read back**, when none of them spells a character as two surrogates. -/
theorem readsBack_iff (sink : Sink) (lim : Limits) (ids : PySet) (s : World)
    (hids : ∀ k, ids.Mem k → ∃ x, k = .str x) :
    ReadsBack sink lim ids s ↔ ∀ x, ids.Mem (.str x) → x.Unicode := by
  have helems : ∀ v ∈ ids.elems, ∃ x, v = .str x ∧ ids.Mem (.str x) := by
    intro v hv
    obtain ⟨k, hk⟩ := Option.ne_none_iff_exists'.mp (ids.hashable v hv)
    have hmem : ids.Mem k := List.mem_map.mpr ⟨v, hv, hk⟩
    obtain ⟨x, rfl⟩ := hids k hmem
    exact ⟨x, key_eq_str.mp hk, hmem⟩
  constructor
  · rintro ⟨s', ids', -, hread, hmem⟩ x hx
    obtain ⟨v, hv, hk⟩ := List.mem_map.mp ((hmem _).mpr hx)
    have hvalid := Watermark.read_valid (Watermark.read_of_readWithin hread) v hv
    rw [key_eq_str.mp hk, Valid, isValid] at hvalid
    exact of_decide_eq_true hvalid
  · intro hunicode
    obtain ⟨b, hb⟩ := (Watermark.exists_payload_iff ids).mpr fun j k hj hk => by
      obtain ⟨x, rfl⟩ := hids j hj
      obtain ⟨y, rfl⟩ := hids k hk
      rfl
    obtain ⟨l, hl, hbytes⟩ : ∃ l, ids.sorted = some l ∧
        b = Utf8.encode (dumps .spaced (Watermark.document l)) := by
      unfold Watermark.payload at hb
      split at hb
      · rename_i l hl
        cases hb
        exact ⟨l, hl, rfl⟩
      · cases hb
    obtain ⟨xs, rfl, hxs⟩ := exists_strings (l := l) fun v hv => by
      obtain ⟨x, rfl, hx⟩ := helems v ((PySet.mem_sorted hl v).mp hv)
      exact ⟨x, rfl, hunicode x hx⟩
    obtain ⟨ids', hset, hmem⟩ := PySet.ofList_sorted hl
    have hkey : Watermark.shippedKey.Unicode := by decide +kernel
    -- the text that is written is printable, so it is read as it was written
    have hread : Watermark.readWithin lim (some b) = .ok ids' := by
      have hvalid : (Watermark.document (xs.map .str)).Valid := Watermark.document_valid fun v hv => by
        obtain ⟨x, hx, rfl⟩ := List.mem_map.mp hv
        exact decide_eq_true (hxs x hx)
      rw [Watermark.readWithin, hbytes, Watermark.readText_dumps _ hvalid]
      dsimp only
      rw [Watermark.document, loadsWithin_strings lim .spaced hkey hxs]
      simp only [Watermark.shippedIn, Json.get?, if_true, Watermark.iterate, Watermark.setOf, hset]
    refine ⟨{ s with tmp := some b }.replaceWatermark, ids', ?_, hread, hmem⟩
    rw [Shipper.writeWatermark, Prog.exec_bind, Prog.exec_ofExcept, hb]
    rfl

/-- **Which unreadable watermarks read as nothing**, under any limits of the interpreter. A set of
string ids is read back after it was written exactly when its ids are strings of Unicode characters.
A file that is no JSON object with an array of strings under `"shipped"` reads as the empty set
exactly when it holds no JSON text, or an object in which `"shipped"` is missing, an empty string or
an empty object. -/
theorem unreadable_iff (sink : Sink) (lim : Limits) :
    (∀ (ids : PySet) (s : World), (∀ k, ids.Mem k → ∃ x, k = .str x) →
      (ReadsBack sink lim ids s ↔ ∀ x, ids.Mem (.str x) → x.Unicode)) ∧
    ∀ b, ¬ Watermark.IsWatermark b → (ReadsAsNothing sink lim b ↔ Watermark.HoldsNothing lim b) :=
  ⟨fun ids s => readsBack_iff sink lim ids s, fun _ => readsAsNothing_iff sink⟩

/-- The limits of a Python process. -/
def pythonLimits : Limits := ⟨1000, 4300, by decide⟩

/-- A byte that is no UTF-8. -/
def brokenByte : Bytes := [0xFF]

theorem readText_brokenByte : readText brokenByte = none := by decide +kernel

theorem not_isWatermark_brokenByte : ¬ Watermark.IsWatermark brokenByte := by
  rintro ⟨t, -, -, ht, -⟩
  rw [readText_brokenByte] at ht
  cases ht

/-- It is no watermark, and `read` raises. -/
theorem broken_raises :
    ¬ ∀ lim b, ¬ Watermark.IsWatermark b → ReadsAsNothing .accepting lim b := by
  intro h
  have hread := (h pythonLimits brokenByte not_isWatermark_brokenByte).1
  rw [Watermark.readWithin, readText_brokenByte] at hread
  cases hread

/-- A watermark of which the end is missing. -/
def tornWatermark : Bytes := Utf8.encode "\x7b\"shipped\": [\"d".toList

/-- Ids that are written and read back. -/
def twoIds : PySet := ⟨[.str (PyStr.ofString "d"), .str (PyStr.ofString "é")], by simp, by
  decide +kernel⟩

/-- The torn file reads as nothing, and the one that is no UTF-8 does not. -/
theorem unreadable_iff_broken :
    ReadsBack .accepting pythonLimits twoIds (init {}).world ∧
      ¬ ReadsAsNothing .accepting pythonLimits brokenByte ∧
      ReadsAsNothing .accepting pythonLimits tornWatermark := by
  obtain ⟨hback, hnothing⟩ := unreadable_iff .accepting pythonLimits
  obtain ⟨t, htext, hload, hnone⟩ : ∃ t, readText tornWatermark = some t ∧
      loadsWithin pythonLimits t = .error .decode ∧ loads t = none :=
    ⟨"\x7b\"shipped\": [\"d".toList, by decide +kernel, by decide +kernel, by decide +kernel⟩
  have htorn : ¬ Watermark.IsWatermark tornWatermark := by
    rintro ⟨t', kvs, xs, ht, hload', -⟩
    cases htext.symm.trans ht
    cases hnone.symm.trans hload'
  refine ⟨(hback twoIds _ ?_).mpr ?_, fun h => ?_, (hnothing _ htorn).mpr ⟨t, htext, .inl hload⟩⟩
  · intro k hk
    rcases List.mem_pair.mp hk with h | h <;> exact ⟨_, (Option.some.inj h)⟩
  · intro x hx
    rcases List.mem_pair.mp hx with h | h <;> cases Option.some.inj h
    · exact PyStr.unicode_ofString "d"
    · exact PyStr.unicode_ofString "é"
  · obtain ⟨t, ht, -⟩ := (hnothing _ not_isWatermark_brokenByte).mp h
    rw [readText_brokenByte] at ht
    cases ht

end Shipping
