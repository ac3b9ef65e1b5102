import PreauthGateway.Shipping.Delivery

/-!
# The acknowledgements of a pass

A pass collects the ids of the records that the sink settles and writes the watermark once, at its
end. Whatever raises before that undoes the acknowledgements of the whole pass: a watermark or an id
that cannot be read, a settled record without an id, or ids that cannot be sorted together.

## Main definitions

* `KeepsAcknowledgements`: a pass returns, and the watermark has what it had and what was settled
* `Acknowledgeable`: the ids of the settled records can be collected and sorted

## Main results

* `exec_shipOnce`, `exec_shipOnce_error`: a pass that returns, and one that raises
* `keepsAcknowledgements_iff`: when a pass keeps its acknowledgements
-/

open Json

namespace Shipping

section Exec

variable {sink : Sink}

/-! ## The whole pass -/

theorem exec_readWatermark (s : World) :
    Prog.exec (serve sink) Shipper.readWatermark s = (Watermark.read s.watermark, s) := by
  rw [Shipper.readWatermark, exec_ask_bind, Prog.exec_ofExcept]
  rfl

theorem exec_readSegment (s : World) (n : ℕ) :
    Prog.exec (serve sink) (Shipper.readSegment n) s =
      (SegmentedWal.readSegment (s.wal.segment n), s) := by
  rw [Shipper.readSegment, exec_ask_bind, Prog.exec_ofExcept]
  rfl

theorem exec_readAll (s : World) (ns : List ℕ) :
    Prog.exec (serve sink) (Shipper.readAll ns) s = (s.wal.readSegments ns, s) := by
  induction ns with
  | nil => rfl
  | cons n ns ih =>
    rw [Shipper.readAll, SegmentedWal.readSegments, Prog.exec_bind, exec_readSegment]
    cases SegmentedWal.readSegment (s.wal.segment n) with
    | error e => rfl
    | ok out =>
      rw [Prog.andThen, Prog.exec_bind, ih]
      cases s.wal.readSegments ns <;> rfl

/-- The records that are not acknowledged. -/
def pendingOf (s : World) : Except PyError (List Json) := do
  let acked ← Watermark.read s.watermark
  let recs ← s.wal.records
  notIn acked recs

theorem exec_unshipped (s : World) :
    Prog.exec (serve sink) Shipper.unshipped s = (pendingOf s, s) := by
  rw [Shipper.unshipped, pendingOf, Prog.exec_bind, exec_readWatermark]
  cases Watermark.read s.watermark with
  | error e => rfl
  | ok acked =>
    rw [Prog.andThen, exec_ask_bind, Prog.exec_bind]
    have hlist : serve sink .listSegments s = (segments s.wal.dir, s) := rfl
    rw [hlist, exec_readAll]
    show Prog.andThen _ _ (s.wal.records, s) = _
    cases s.wal.records with
    | error e => rfl
    | ok recs =>
      rw [Prog.andThen, Prog.exec_ofExcept]
      rfl

/-- Nothing to acknowledge. -/
theorem exec_acknowledge_nil (acked : PySet) (s : World) :
    Prog.exec (serve sink) (Shipper.acknowledge acked []) s = (.ok 0, s) := by
  rw [Shipper.acknowledge, if_pos rfl]
  rfl

/-- The ids are collected and written, or one of the two raises. -/
theorem exec_acknowledge (acked : PySet) {newly : List Json} (hne : newly ≠ []) (s : World) :
    (∀ ids b, Watermark.setOf newly = .ok ids → Watermark.payload (acked.union ids) = .ok b →
      ∃ s', Prog.exec (serve sink) (Shipper.acknowledge acked newly) s = (.ok newly.length, s') ∧
        s'.watermark = some b ∧ s'.wal = s.wal ∧ s'.appended = s.appended ∧ s'.sends = s.sends) ∧
    ((∀ ids b, Watermark.setOf newly = .ok ids → Watermark.payload (acked.union ids) ≠ .ok b) →
      ∃ e s', Prog.exec (serve sink) (Shipper.acknowledge acked newly) s = (.error e, s')) := by
  rw [Shipper.acknowledge, if_neg hne, Prog.exec_bind, Prog.exec_ofExcept]
  cases hset : Watermark.setOf newly with
  | error e =>
    constructor
    · intro ids b h
      cases h
    · exact fun _ => ⟨e, s, rfl⟩
  | ok ids =>
    rw [Prog.andThen, Prog.exec_bind, Shipper.writeWatermark, Prog.exec_bind, Prog.exec_ofExcept]
    -- sorting the ids may raise, before the file is touched
    cases hb : Watermark.payload (acked.union ids) with
    | error e =>
      refine ⟨fun ids' b h₁ h₂ => ?_, fun _ => ⟨e, s, rfl⟩⟩
      cases h₁
      rw [hb] at h₂
      cases h₂
    | ok b =>
      refine ⟨fun ids' b' h₁ h₂ => ?_, fun h => absurd hb (h ids b rfl)⟩
      cases h₁
      rw [hb] at h₂
      cases h₂
      exact ⟨_, rfl, rfl, rfl, rfl, rfl⟩

end Exec

/-! ## When a pass keeps its acknowledgements -/

/-- The sends settle a record: one of them returned with it, or it was rejected on its own. -/
def Settles (sends : List (List Json × SinkAnswer)) (r : Json) : Prop :=
  ∃ p ∈ sends, (p.2.result = .returned ∧ r ∈ p.1) ∨ (p.2.result = .rejected ∧ p.1 = [r])

/-- A pass from `s` returns, and the watermark has then what it had before and the string id of
every record that a send of the pass settled. -/
def KeepsAcknowledgements (sink : Sink) (maxAttempts batchSize : ℕ) (s : World) : Prop :=
  ∃ n s' acked acked',
    Prog.exec (serve sink) (Shipper.shipOnce maxAttempts batchSize) s = (.ok n, s') ∧
      Marked acked s ∧ Marked acked' s' ∧ (∀ k, acked.Mem k → acked'.Mem k) ∧
      ∀ r x, Settles (s'.sends.drop s.sends.length) r → itemDecisionId r = .ok (.str x) →
        acked'.Mem (.str x)

/-- A value that is in the set, or is the id of a listed record. -/
def IdAmong (acked : PySet) (settled : List Json) (k : Key) : Prop :=
  acked.Mem k ∨ ∃ r ∈ settled, ∃ i, itemDecisionId r = .ok i ∧ i.key = some k

/-- Every settled record has an id, these ids can be sorted together with those of the watermark,
and a record that was rejected on its own is settled when it is sent again. -/
structure Acknowledgeable (acked : PySet) (d : Delivery) : Prop where
  haveIds : ∀ r ∈ d.settled, ∃ i, itemDecisionId r = .ok i
  sortable : d.settled ≠ [] → ∀ j k, IdAmong acked d.settled j → IdAmong acked d.settled k →
    j.kind = k.kind
  resent : ∀ p ∈ d.sends, p.2.result = .rejected → ∀ r, p.1 = [r] → ∀ x,
    itemDecisionId r = .ok (.str x) → ∃ r' ∈ d.settled, itemDecisionId r' = .ok (.str x)

/-- The records that a pass sends, when its watermark holds `acked`. -/
def pendingRecords (acked : PySet) (recs : List JsonObject) : List Json :=
  (recs.filter fun r => ¬ r.Acked acked).map JsonObject.toJson

theorem itemDecisionIds_eq {rs : List Json} (h : ∀ r ∈ rs, ∃ i, itemDecisionId r = .ok i) :
    ∃ is, itemDecisionIds rs = .ok is ∧ (is = [] ↔ rs = []) ∧
      ∀ i, i ∈ is ↔ ∃ r ∈ rs, itemDecisionId r = .ok i := by
  induction rs with
  | nil => exact ⟨[], rfl, by simp, by simp⟩
  | cons r rs ih =>
    obtain ⟨i, hi⟩ := h r List.mem_cons_self
    obtain ⟨is, his, -, hmem⟩ := ih fun r' hr' => h r' (List.mem_cons_of_mem _ hr')
    refine ⟨i :: is, ?_, by simp, ?_⟩
    · rw [itemDecisionIds, hi, his]
      rfl
    · intro j
      rw [List.mem_cons, hmem, List.exists_mem_cons_iff, hi, Except.ok.injEq, eq_comm]

theorem itemDecisionIds_error {rs : List Json} {r : Json} {e : PyError} (hr : r ∈ rs)
    (h : itemDecisionId r = .error e) : ∃ e', itemDecisionIds rs = .error e' := by
  induction rs with
  | nil => cases hr
  | cons r' rs ih =>
    rw [itemDecisionIds]
    cases h' : itemDecisionId r' with
    | error e' => exact ⟨e', rfl⟩
    | ok i =>
      rcases List.mem_cons.mp hr with rfl | hr
      · rw [h] at h'
        cases h'
      · obtain ⟨e', he'⟩ := ih hr
        exact ⟨e', by rw [he']; rfl⟩

theorem mem_pendingRecords {acked : PySet} {recs : List JsonObject} {v : Json} :
    v ∈ pendingRecords acked recs ↔ ∃ r ∈ recs, ¬ r.Acked acked ∧ r.toJson = v := by
  simp only [pendingRecords, List.mem_map, List.mem_filter, decide_eq_true_eq, and_assoc]

section ShipOnce

variable {sink : Sink} {s : World} {acked : PySet} {recs : List JsonObject}
  {maxAttempts batchSize : ℕ}

theorem batches_nil (h : 0 < batchSize) : batches batchSize [] = [] := by
  have h0 : (0 + batchSize - 1) / batchSize = 0 := Nat.div_eq_of_lt (by omega)
  rw [batches, List.length_nil, h0]
  rfl

/-- What a pass sends and settles. -/
def delivery (sink : Sink) (maxAttempts batchSize : ℕ) (s : World) (acked : PySet)
    (recs : List JsonObject) : Delivery :=
  deliver sink maxAttempts s.sends (batches batchSize (pendingRecords acked recs))

/-- What a pass sends and settles was not acknowledged. -/
theorem delivery_from :
    (delivery sink maxAttempts batchSize s acked recs).From (pendingRecords acked recs) := by
  apply (deliver_from sink maxAttempts s.sends _).mono
  intro v hv
  obtain ⟨b, hb, hvb⟩ := List.mem_flatten.mp hv
  exact mem_batches hb v hvb

/-- The ids of settled records make a set. -/
theorem exists_setOf (acked : PySet) {settled is : List Json} (hh : ∀ r ∈ recs, r.Hashable)
    (hset : ∀ v ∈ settled, ∃ r ∈ recs, r.toJson = v)
    (his : ∀ i, i ∈ is ↔ ∃ v ∈ settled, itemDecisionId v = .ok i) :
    ∃ ids, Watermark.setOf is = .ok ids ∧ (∀ i ∈ ids.elems, i.Valid) ∧
      ∀ k, (acked.union ids).Mem k ↔ IdAmong acked settled k := by
  have hkeys : ∀ i ∈ is, i.key ≠ none := by
    intro i hi
    obtain ⟨v, hv, hvi⟩ := (his i).mp hi
    obtain ⟨r, hr, rfl⟩ := hset v hv
    rw [← itemDecisionId_toJson hvi]
    exact hh r hr
  obtain ⟨ids, hids⟩ := PySet.exists_ofList hkeys
  refine ⟨ids, by rw [Watermark.setOf, hids], ?_, ?_⟩
  · intro i hi
    obtain ⟨v, hv, hvi⟩ := (his i).mp (PySet.elems_ofList hids i hi)
    obtain ⟨r, -, rfl⟩ := hset v hv
    rw [← itemDecisionId_toJson hvi]
    exact r.decisionId_valid
  · intro k
    rw [PySet.mem_union, PySet.mem_ofList hids, IdAmong]
    apply or_congr_right
    constructor
    · rintro ⟨i, hi, hk⟩
      obtain ⟨v, hv, hvi⟩ := (his i).mp hi
      exact ⟨v, hv, i, hvi, hk⟩
    · rintro ⟨v, hv, i, hvi, hk⟩
      exact ⟨i, (his i).mpr ⟨v, hv, hvi⟩, hk⟩

/-- The pass up to the watermark: the pending records are sent in batches. -/
theorem exec_shipOnce_eq (hm : Marked acked s)
    (hrecs : s.wal.records = .ok (recs.map JsonObject.toJson)) (hh : ∀ r ∈ recs, r.Hashable)
    (hb : 0 < batchSize) :
    Prog.exec (serve sink) (Shipper.shipOnce maxAttempts batchSize) s =
      if pendingRecords acked recs = [] then (.ok 0, s)
      else Prog.exec (serve sink) (do
        let newly ← Shipper.sendBatches maxAttempts (batches batchSize (pendingRecords acked recs)) []
        Shipper.acknowledge acked newly) s := by
  have hpending : pendingOf s = .ok (pendingRecords acked recs) := by
    have hread : Watermark.read s.watermark = .ok acked := hm
    rw [pendingOf, hread, hrecs]
    exact notIn_eq hh
  rw [Shipper.shipOnce, Prog.exec_bind, exec_unshipped, hpending, Prog.andThen]
  split
  · rfl
  · have hread : Prog.exec (serve sink) Shipper.readWatermark s = (.ok acked, s) := by
      rw [exec_readWatermark]
      exact Prod.ext hm rfl
    rw [Prog.exec_bind, hread, Prog.andThen, if_neg (Nat.pos_iff_ne_zero.mp hb)]

/-- **A pass whose settled records have sortable ids returns**, and adds these to the watermark. -/
theorem exec_shipOnce (hm : Marked acked s)
    (hrecs : s.wal.records = .ok (recs.map JsonObject.toJson)) (hh : ∀ r ∈ recs, r.Hashable)
    (hb : 0 < batchSize) {d : Delivery}
    (hd : delivery sink maxAttempts batchSize s acked recs = d)
    (hids : ∀ r ∈ d.settled, ∃ i, itemDecisionId r = .ok i)
    (hsort : d.settled ≠ [] → ∀ j k, IdAmong acked d.settled j → IdAmong acked d.settled k →
      j.kind = k.kind) :
    ∃ n s' acked', Prog.exec (serve sink) (Shipper.shipOnce maxAttempts batchSize) s = (.ok n, s') ∧
      Marked acked' s' ∧ (∀ k, acked'.Mem k ↔ IdAmong acked d.settled k) ∧
      s'.sends = s.sends ++ d.sends ∧ s'.wal = s.wal ∧ s'.appended = s.appended := by
  have hnil (h : d.settled = []) (k : Key) : acked.Mem k ↔ IdAmong acked d.settled k := by
    rw [IdAmong, h]
    simp
  rw [exec_shipOnce_eq hm hrecs hh hb]
  split
  · rename_i h0
    have hd0 : d = {} := by
      rw [← hd, delivery, h0, batches_nil hb]
      rfl
    refine ⟨0, s, acked, rfl, hm, hnil (by rw [hd0]), ?_, rfl, rfl⟩
    rw [hd0, List.append_nil]
  · have hsend : Delivers sink (Shipper.sendBatches maxAttempts
        (batches batchSize (pendingRecords acked recs)) []) [] s
          (delivery sink maxAttempts batchSize s acked recs) :=
      delivers_sendBatches maxAttempts _
    rw [hd] at hsend
    obtain ⟨is, his, hisnil, hismem⟩ := itemDecisionIds_eq hids
    obtain ⟨st, hst⟩ := hsend.1 is his
    rw [Prog.exec_bind, hst, Prog.andThen, List.nil_append]
    rcases eq_or_ne is [] with h0 | hne
    · rw [h0, exec_acknowledge_nil]
      exact ⟨0, _, acked, rfl, hm, hnil (hisnil.mp h0), rfl, rfl, rfl⟩
    · have hset : d.settled ≠ [] := fun h => hne (hisnil.mpr h)
      have hsub : ∀ v ∈ d.settled, ∃ r ∈ recs, r.toJson = v := by
        intro v hv
        rw [← hd] at hv
        obtain ⟨r, hr, -, e⟩ := mem_pendingRecords.mp (delivery_from.settled v hv)
        exact ⟨r, hr, e⟩
      obtain ⟨ids, hsetOf, hnew, hunion⟩ := exists_setOf acked hh hsub hismem
      obtain ⟨b, hbytes⟩ := (Watermark.exists_payload_iff (acked.union ids)).mpr (by
        intro j k hj hk
        exact hsort hset j k ((hunion j).mp hj) ((hunion k).mp hk))
      obtain ⟨s', hexec, hwm, hwal, happ, hsends⟩ :=
        (exec_acknowledge acked hne (d.after s st)).1 ids b hsetOf hbytes
      have hvalid : ∀ v ∈ (acked.union ids).elems, v.Valid := by
        intro v hv
        rcases PySet.elems_union hv with hv | hv
        · exact Watermark.read_valid hm v hv
        · exact hnew v hv
      obtain ⟨acked', hread, hmem, -⟩ := Watermark.read_payload hvalid hbytes
      refine ⟨is.length, s', acked', hexec, ?_, ?_, hsends, hwal, happ⟩
      · rw [Marked, hwm]
        exact hread
      · intro k
        rw [hmem, hunion]

/-- Otherwise it raises. -/
theorem exec_shipOnce_error (hm : Marked acked s)
    (hrecs : s.wal.records = .ok (recs.map JsonObject.toJson)) (hh : ∀ r ∈ recs, r.Hashable)
    (hb : 0 < batchSize) {d : Delivery}
    (hd : delivery sink maxAttempts batchSize s acked recs = d)
    (h : (∀ r ∈ d.settled, ∃ i, itemDecisionId r = .ok i) → d.settled ≠ [] ∧
      ¬ ∀ j k, IdAmong acked d.settled j → IdAmong acked d.settled k → j.kind = k.kind) :
    ∃ e s', Prog.exec (serve sink) (Shipper.shipOnce maxAttempts batchSize) s = (.error e, s') := by
  have hsend : Delivers sink (Shipper.sendBatches maxAttempts
      (batches batchSize (pendingRecords acked recs)) []) [] s
        (delivery sink maxAttempts batchSize s acked recs) :=
    delivers_sendBatches maxAttempts _
  have hsub : ∀ v ∈ d.settled, ∃ r ∈ recs, r.toJson = v := by
    intro v hv
    rw [← hd] at hv
    obtain ⟨r, hr, -, e⟩ := mem_pendingRecords.mp (delivery_from.settled v hv)
    exact ⟨r, hr, e⟩
  have hne : pendingRecords acked recs ≠ [] := by
    intro h0
    have hd0 : d.settled = [] := by
      rw [← hd, delivery, h0, batches_nil hb]
      rfl
    exact (h (by rw [hd0]; simp)).1 hd0
  rw [hd] at hsend
  rw [exec_shipOnce_eq hm hrecs hh hb, if_neg hne, Prog.exec_bind]
  by_cases hids : ∀ r ∈ d.settled, ∃ i, itemDecisionId r = .ok i
  · obtain ⟨hset, hkinds⟩ := h hids
    obtain ⟨is, his, hisnil, hismem⟩ := itemDecisionIds_eq hids
    obtain ⟨st, hst⟩ := hsend.1 is his
    obtain ⟨ids, hsetOf, -, hunion⟩ := exists_setOf acked hh hsub hismem
    rw [hst, Prog.andThen, List.nil_append]
    apply (exec_acknowledge acked (fun e => hset (hisnil.mp e)) _).2
    intro ids' b h₁ h₂
    rw [hsetOf] at h₁
    cases h₁
    apply hkinds
    intro j k hj hk
    exact (Watermark.exists_payload_iff _).mp ⟨b, h₂⟩ j k ((hunion j).mpr hj) ((hunion k).mpr hk)
  · push Not at hids
    obtain ⟨r, hr, hno⟩ := hids
    obtain ⟨e, he⟩ : ∃ e, itemDecisionId r = .error e := by
      cases hr' : itemDecisionId r with
      | error e => exact ⟨e, rfl⟩
      | ok i => exact absurd hr' (hno i)
    obtain ⟨e', he'⟩ := itemDecisionIds_error hr he
    obtain ⟨s', hs'⟩ := hsend.2 e' he'
    exact ⟨e', s', by rw [hs']; rfl⟩

theorem notIn_error (ids : PySet) {r : JsonObject} (hr : r ∈ recs) (h : ¬ r.Hashable) :
    ∃ e, notIn ids (recs.map JsonObject.toJson) = .error e := by
  induction recs with
  | nil => cases hr
  | cons r' recs ih =>
    rw [List.map_cons, notIn]
    rcases List.mem_cons.mp hr with rfl | hr
    · have hk : r.decisionId.key = none := not_not.mp h
      rw [idIn_of_unhashable hk]
      exact ⟨_, rfl⟩
    · obtain ⟨e, he⟩ := ih hr
      cases idIn ids r'.toJson with
      | error e' => exact ⟨e', rfl⟩
      | ok b =>
        rw [he]
        exact ⟨e, rfl⟩

/-- A pass that returns read the watermark and looked up every id. -/
theorem readable_of_exec {n : ℕ} {s' : World}
    (hrecs : s.wal.records = .ok (recs.map JsonObject.toJson))
    (h : Prog.exec (serve sink) (Shipper.shipOnce maxAttempts batchSize) s = (.ok n, s')) :
    (∃ acked, Marked acked s) ∧ ∀ r ∈ recs, r.Hashable := by
  have hpending : ∃ pending, pendingOf s = .ok pending := by
    rw [Shipper.shipOnce, Prog.exec_bind, exec_unshipped] at h
    cases hp : pendingOf s with
    | ok pending => exact ⟨pending, rfl⟩
    | error e =>
      rw [hp] at h
      cases h
  obtain ⟨pending, hp⟩ := hpending
  rw [pendingOf, hrecs] at hp
  cases hread : Watermark.read s.watermark with
  | error e =>
    rw [hread] at hp
    cases hp
  | ok acked =>
    refine ⟨⟨acked, hread⟩, ?_⟩
    intro r hr
    by_contra hno
    obtain ⟨e, he⟩ := notIn_error acked hr hno
    have hp' : notIn acked (recs.map JsonObject.toJson) = .ok pending := by rwa [hread] at hp
    rw [he] at hp'
    cases hp'

/-- **When a pass keeps its acknowledgements.** The log holds the records `recs`; the watermark file
and the sink are any. -/
theorem keepsAcknowledgements_iff (hb : 0 < batchSize)
    (hrecs : s.wal.records = .ok (recs.map JsonObject.toJson)) :
    KeepsAcknowledgements sink maxAttempts batchSize s ↔
      ∃ acked, Marked acked s ∧ (∀ r ∈ recs, r.Hashable) ∧
        Acknowledgeable acked (delivery sink maxAttempts batchSize s acked recs) := by
  constructor
  · rintro ⟨n, s', acked, acked', hexec, hm, hm', hold, hnew⟩
    obtain ⟨-, hh⟩ := readable_of_exec hrecs hexec
    obtain ⟨d, hd⟩ : ∃ d, delivery sink maxAttempts batchSize s acked recs = d := ⟨_, rfl⟩
    have hgood : (∀ r ∈ d.settled, ∃ i, itemDecisionId r = .ok i) ∧ (d.settled ≠ [] →
        ∀ j k, IdAmong acked d.settled j → IdAmong acked d.settled k → j.kind = k.kind) := by
      by_contra hbad
      obtain ⟨e, t, he⟩ := exec_shipOnce_error hm hrecs hh hb hd (by
        intro hids
        constructor
        · rintro h0
          exact hbad ⟨hids, fun h => absurd h0 h⟩
        · exact fun hsort => hbad ⟨hids, fun _ => hsort⟩)
      rw [hexec] at he
      cases he
    refine ⟨acked, hm, hh, ?_⟩
    rw [hd]
    refine ⟨hgood.1, hgood.2, ?_⟩
    obtain ⟨n', t, acked'', hexec', hm'', hmem, hsends, -, -⟩ :=
      exec_shipOnce hm hrecs hh hb hd hgood.1 hgood.2
    rw [hexec] at hexec'
    cases hexec'
    obtain rfl : acked' = acked'' := Except.ok.inj (hm'.symm.trans hm'')
    intro p hp hrej r hpr x hx
    have hin : acked'.Mem (.str x) := by
      apply hnew r x _ hx
      rw [hsends, List.drop_left]
      exact ⟨p, hp, Or.inr ⟨hrej, hpr⟩⟩
    rcases (hmem _).mp hin with hack | ⟨r', hr', i, hi, hik⟩
    · rw [← hd] at hp
      have hin' := delivery_from.sends p hp r (by rw [hpr]; exact List.mem_cons_self)
      obtain ⟨r₀, -, hnot, e⟩ := mem_pendingRecords.mp hin'
      rw [← e] at hx
      exact absurd ⟨_, by rw [itemDecisionId_toJson hx]; rfl, hack⟩ hnot
    · rw [key_eq_str] at hik
      exact ⟨r', hr', hik ▸ hi⟩
  · rintro ⟨acked, hm, hh, hok⟩
    obtain ⟨n, s', acked', hexec, hm', hmem, hsends, -, -⟩ :=
      exec_shipOnce hm hrecs hh hb rfl hok.haveIds hok.sortable
    refine ⟨n, s', acked, acked', hexec, hm, hm', fun k hk => (hmem k).mpr (Or.inl hk), ?_⟩
    rintro r x ⟨p, hp, hcase⟩ hx
    rw [hsends, List.drop_left] at hp
    rw [hmem]
    right
    rcases hcase with ⟨hret, hr⟩ | ⟨hrej, hpr⟩
    · exact ⟨r, deliver_sound sink maxAttempts s.sends _ p hp hret r hr, _, hx, rfl⟩
    · obtain ⟨r', hr', hx'⟩ := hok.resent p hp hrej r hpr x hx
      exact ⟨r', hr', _, hx', rfl⟩

end ShipOnce

/-! ## A log with one segment and a sink that takes everything -/

/-- A log whose records are all in its first segment. -/
def oneSegment (recs : List JsonObject) : SegmentedWal :=
  { config := {}, seq := 1, dir := (∅ : SegmentDir).insert 1 (logBytes recs) }

theorem records_oneSegment (recs : List JsonObject) :
    (oneSegment recs).records = .ok (recs.map JsonObject.toJson) := by
  have hread : ∀ n ∈ segments (oneSegment recs).dir,
      SegmentedWal.readSegment ((oneSegment recs).segment n) =
        .ok (recs.map JsonObject.toJson) := by
    intro n hn
    have h1 : n = 1 := List.mem_singleton.mp hn
    rw [h1]
    exact SegmentedWal.readSegment_logBytes recs
  rw [SegmentedWal.records, SegmentedWal.readSegments_eq hread]
  exact congrArg Except.ok (List.append_nil _)

/-- Every send returns. -/
def Sink.accepting : Sink := fun _ _ => { result := .returned }

theorem deliver_accepting {maxAttempts : ℕ} (h : 0 < maxAttempts)
    (hist : List (List Json × SinkAnswer)) (bs : List (List Json)) :
    (deliver .accepting maxAttempts hist bs).settled = bs.flatten ∧
      ∀ p ∈ (deliver .accepting maxAttempts hist bs).sends, p.2.result = .returned := by
  obtain ⟨attempts, rfl⟩ := Nat.exists_eq_succ_of_ne_zero (Nat.pos_iff_ne_zero.mp h)
  induction bs generalizing hist with
  | nil => exact ⟨rfl, by simp [deliver]⟩
  | cons b bs ih =>
    have hb : deliverBatch .accepting b (attempts + 1) hist =
        { sends := [(b, { result := .returned })], settled := b } := rfl
    rw [deliver, hb]
    constructor
    · rw [Delivery.append_settled, (ih _).1]
      rfl
    · intro p hp
      rcases List.mem_append.mp hp with hp | hp
      · rw [List.mem_singleton.mp hp]
      · exact (ih _).2 p hp

/-- The batches make up the list. -/
theorem flatten_batches {size : ℕ} (h : 0 < size) (pending : List Json) :
    (batches size pending).flatten = pending := by
  have htake (k : ℕ) : ((List.range k).map fun i => (pending.drop (i * size)).take size).flatten =
      pending.take (k * size) := by
    induction k with
    | zero => simp
    | succ k ih =>
      rw [List.range_succ, List.map_append, List.flatten_append, ih, List.map_singleton,
        List.flatten_singleton, Nat.succ_mul, List.take_add]
  rw [batches, htake]
  apply List.take_of_length_le
  have hdiv := Nat.div_add_mod (pending.length + size - 1) size
  have hmod := Nat.mod_lt (pending.length + size - 1) h
  rw [Nat.mul_comm] at hdiv
  omega

theorem pendingRecords_empty (recs : List JsonObject) :
    pendingRecords .empty recs = recs.map JsonObject.toJson := by
  have hall : ∀ r ∈ recs, decide (¬ JsonObject.Acked .empty r) = true := by
    intro r _
    rw [decide_eq_true_eq]
    rintro ⟨k, -, hk⟩
    exact PySet.not_mem_empty k hk
  rw [pendingRecords, List.filter_eq_self.mpr hall]

/-- From an empty watermark, a sink that takes everything settles the whole log. -/
theorem delivery_accepting {maxAttempts batchSize : ℕ} (ha : 0 < maxAttempts) (hb : 0 < batchSize)
    (s : World) (recs : List JsonObject) :
    (delivery .accepting maxAttempts batchSize s .empty recs).settled =
        recs.map JsonObject.toJson ∧
      ∀ p ∈ (delivery .accepting maxAttempts batchSize s .empty recs).sends,
        p.2.result = .returned := by
  obtain ⟨hset, hret⟩ := deliver_accepting ha s.sends
    (batches batchSize (pendingRecords .empty recs))
  rw [flatten_batches hb] at hset
  exact ⟨hset.trans (pendingRecords_empty recs), hret⟩

/-- String ids can be sorted. -/
theorem sortable_of_named {settled : List Json}
    (h : ∀ v ∈ settled, ∃ x, itemDecisionId v = .ok (.str x)) (j k : Key)
    (hj : IdAmong .empty settled j) (hk : IdAmong .empty settled k) : j.kind = k.kind := by
  have hkind (l : Key) (hl : IdAmong .empty settled l) : l.kind = .str := by
    rcases hl with hl | ⟨v, hv, i, hi, hil⟩
    · exact absurd hl (PySet.not_mem_empty l)
    · obtain ⟨x, hx⟩ := h v hv
      rw [hx, Except.ok.injEq] at hi
      rw [← hi, key_str, Option.some.injEq] at hil
      rw [← hil]
      rfl
  rw [hkind j hj, hkind k hk]

theorem itemDecisionId_withId {x : PyStr} (h : x.Unicode) :
    itemDecisionId (JsonObject.withId x h).toJson = .ok (.str x) := by
  simp [itemDecisionId, JsonObject.toJson, JsonObject.withId, Json.get?]

/-- **A sink that takes everything**: the ids of the log come into the watermark, when they are
strings. -/
theorem exec_shipOnce_accepting {s : World} {recs : List JsonObject} (maxAttempts batchSize : ℕ)
    (ha : 0 < maxAttempts) (hb : 0 < batchSize) (hm : Marked .empty s)
    (hrecs : s.wal.records = .ok (recs.map JsonObject.toJson))
    (hnamed : ∀ r ∈ recs, ∃ x, itemDecisionId r.toJson = .ok (.str x)) :
    ∃ n s' acked, Prog.exec (serve .accepting) (Shipper.shipOnce maxAttempts batchSize) s =
        (.ok n, s') ∧ Marked acked s' ∧
      (∀ k, acked.Mem k ↔ ∃ r ∈ recs, r.decisionId.key = some k) ∧ s'.wal = s.wal ∧
        s'.appended = s.appended := by
  have hh : ∀ r ∈ recs, r.Hashable := by
    intro r hr
    obtain ⟨x, hx⟩ := hnamed r hr
    rw [JsonObject.Hashable, itemDecisionId_toJson hx]
    exact Option.some_ne_none _
  have hset := (delivery_accepting ha hb s recs).1
  have hids : ∀ v ∈ (delivery .accepting maxAttempts batchSize s .empty recs).settled,
      ∃ x, itemDecisionId v = .ok (.str x) := by
    rw [hset]
    intro v hv
    obtain ⟨r, hr, rfl⟩ := List.mem_map.mp hv
    exact hnamed r hr
  obtain ⟨n, s', acked, hexec, hm', hmem, -, hwal, happ⟩ := exec_shipOnce hm hrecs hh hb rfl
    (fun v hv => ⟨_, (hids v hv).choose_spec⟩) fun _ => sortable_of_named hids
  refine ⟨n, s', acked, hexec, hm', ?_, hwal, happ⟩
  intro k
  rw [hmem, IdAmong, hset]
  constructor
  · rintro (hk | ⟨v, hv, i, hi, hik⟩)
    · exact absurd hk (PySet.not_mem_empty k)
    · obtain ⟨r, hr, rfl⟩ := List.mem_map.mp hv
      exact ⟨r, hr, by rw [itemDecisionId_toJson hi, hik]⟩
  · rintro ⟨r, hr, hk⟩
    obtain ⟨x, hx⟩ := hnamed r hr
    rw [itemDecisionId_toJson hx] at hk
    exact Or.inr ⟨r.toJson, List.mem_map_of_mem hr, _, hx, hk⟩

/-- A record with the id `"d"`. -/
def namedRecord : JsonObject :=
  JsonObject.withId [CodePoint.ofChar 'd'] (PyStr.unicode_singleton _)

/-- The empty object has no id. -/
def namelessRecord : JsonObject := ⟨[], by decide⟩

theorem keepsAcknowledgements_named :
    KeepsAcknowledgements .accepting 1 1 { wal := oneSegment [namedRecord] } := by
  have hd := delivery_accepting Nat.one_pos Nat.one_pos { wal := oneSegment [namedRecord] }
    [namedRecord]
  have hkey : ∀ r ∈ (delivery .accepting 1 1 { wal := oneSegment [namedRecord] } .empty
      [namedRecord]).settled, itemDecisionId r = .ok (.str [CodePoint.ofChar 'd']) := by
    intro r hr
    rw [hd.1, List.map_singleton, List.mem_singleton] at hr
    rw [hr]
    exact itemDecisionId_withId _
  refine (keepsAcknowledgements_iff (s := { wal := oneSegment [namedRecord] }) Nat.one_pos
    (records_oneSegment [namedRecord])).mpr ⟨.empty, rfl, ?_, fun r hr => ⟨_, hkey r hr⟩, ?_, ?_⟩
  · intro r hr
    rw [List.mem_singleton.mp hr, JsonObject.Hashable, namedRecord,
      JsonObject.decisionId_withId]
    exact Option.some_ne_none _
  · exact fun _ => sortable_of_named fun v hv => ⟨_, hkey v hv⟩
  · intro p hp hrej
    rw [hd.2 p hp] at hrej
    cases hrej

/-- A record without an id undoes the acknowledgement of the one that was sent before it. -/
theorem nameless_undoes :
    ¬ KeepsAcknowledgements .accepting 1 1 { wal := oneSegment [namedRecord, namelessRecord] } := by
  have hd := delivery_accepting Nat.one_pos Nat.one_pos
    { wal := oneSegment [namedRecord, namelessRecord] } [namedRecord, namelessRecord]
  have hh : ∀ r ∈ [namedRecord, namelessRecord], r.Hashable := by
    intro r hr
    rcases List.mem_pair.mp hr with rfl | rfl
    · rw [JsonObject.Hashable, namedRecord, JsonObject.decisionId_withId]
      exact Option.some_ne_none _
    · exact Option.some_ne_none _
  rintro ⟨n, s', acked, acked', hexec, -⟩
  obtain ⟨e, t, he⟩ := exec_shipOnce_error (s := { wal := oneSegment [namedRecord, namelessRecord] })
    (d := delivery .accepting 1 1 { wal := oneSegment [namedRecord, namelessRecord] } .empty
      [namedRecord, namelessRecord])
    rfl (records_oneSegment [namedRecord, namelessRecord]) hh Nat.one_pos rfl (by
      intro hids
      obtain ⟨i, hi⟩ := hids namelessRecord.toJson (by rw [hd.1]; simp)
      cases hi)
  rw [hexec] at he
  cases he

end Shipping
