import PreauthGateway.Shipping.System

/-!
# What a pass and a truncation keep

The shipper's programs keep an invariant when it is kept by the few calls that change something: a
send, a record put in the poison list, a watermark that adds ids of settled records to the one that
was read, and the deletion of a segment whose records were all found acknowledged. What the rest of
the process may do in between is a parameter.

## Main definitions

* `FromLog`, `Earned`: records of the log, and ids of records that are settled
* `PassRules`, `TruncateRules`: what an invariant has to satisfy

## Main results

* `PassRules.shipOnce`, `TruncateRules.truncate`: the programs keep it
-/

open Json Prog

namespace Shipping

/-- The values are records of the log. -/
def FromLog (out : List Json) (s : World) : Prop :=
  ∃ rs : List JsonObject, out = rs.map JsonObject.toJson ∧ ∀ r ∈ rs, r ∈ s.appended

/-- The record was accepted by the sink, or is in the poison list. -/
def Settled (s : World) (r : JsonObject) : Prop := r.toJson ∈ s.accepted ∨ r.toJson ∈ s.poison

/-- The values are the ids of settled records. -/
def Earned (newly : List Json) (s : World) : Prop :=
  ∀ i ∈ newly, ∃ r ∈ s.appended, r.decisionId = i ∧ Settled s r

/-- The watermark file reads as `acked`. -/
def Marked (acked : PySet) (s : World) : Prop := Watermark.read s.watermark = .ok acked

section Records

variable {s s' : World}

theorem FromLog.mono {out : List Json} (h : FromLog out s)
    (ha : ∀ r ∈ s.appended, r ∈ s'.appended) : FromLog out s' := by
  obtain ⟨rs, e, hr⟩ := h
  exact ⟨rs, e, fun r hm => ha r (hr r hm)⟩

theorem fromLog_nil (s : World) : FromLog [] s := ⟨[], rfl, by simp⟩

theorem FromLog.append {out out' : List Json} (h : FromLog out s) (h' : FromLog out' s) :
    FromLog (out ++ out') s := by
  obtain ⟨rs, rfl, hr⟩ := h
  obtain ⟨rs', rfl, hr'⟩ := h'
  refine ⟨rs ++ rs', (List.map_append).symm, ?_⟩
  intro r hm
  rcases List.mem_append.mp hm with hm | hm
  · exact hr r hm
  · exact hr' r hm

theorem FromLog.mem {out : List Json} (h : FromLog out s) {v : Json} (hv : v ∈ out) :
    ∃ r ∈ s.appended, v = r.toJson := by
  obtain ⟨rs, rfl, hr⟩ := h
  obtain ⟨r, hm, rfl⟩ := List.mem_map.mp hv
  exact ⟨r, hr r hm, rfl⟩

/-- A list of records of the log is one. -/
theorem fromLog_of_mem {out : List Json} (h : ∀ v ∈ out, ∃ r ∈ s.appended, v = r.toJson) :
    FromLog out s := by
  induction out with
  | nil => exact fromLog_nil s
  | cons v out ih =>
    obtain ⟨r, hr, rfl⟩ := h v List.mem_cons_self
    obtain ⟨rs, rfl, hrs⟩ := ih fun w hw => h w (List.mem_cons_of_mem _ hw)
    exact ⟨r :: rs, rfl, List.forall_mem_cons.mpr ⟨hr, hrs⟩⟩

theorem FromLog.subset {out out' : List Json} (h : FromLog out s) (hs : ∀ v ∈ out', v ∈ out) :
    FromLog out' s := fromLog_of_mem fun v hv => h.mem (hs v hv)

theorem notIn_subset {ids : PySet} {out pending : List Json} (h : notIn ids out = .ok pending) :
    ∀ v ∈ pending, v ∈ out := by
  induction out generalizing pending with
  | nil =>
    cases h
    simp
  | cons r rs ih =>
    rw [notIn] at h
    cases hb : idIn ids r with
    | error e => rw [hb] at h; cases h
    | ok b =>
      cases hr : notIn ids rs with
      | error e => rw [hb, hr] at h; cases h
      | ok rest =>
        rw [hb, hr] at h
        have hp : (if b = true then rest else r :: rest) = pending := Except.ok.inj h
        intro v hv
        rw [← hp] at hv
        split at hv
        · exact List.mem_cons_of_mem _ (ih hr v hv)
        · rcases List.mem_cons.mp hv with rfl | hv
          · exact List.mem_cons_self
          · exact List.mem_cons_of_mem _ (ih hr v hv)

theorem mem_batches {size : ℕ} {pending b : List Json} (hb : b ∈ batches size pending) :
    ∀ v ∈ b, v ∈ pending := by
  obtain ⟨i, -, rfl⟩ := List.mem_map.mp hb
  intro v hv
  exact List.mem_of_mem_drop (List.mem_of_mem_take hv)

theorem itemDecisionId_toJson {r : JsonObject} {i : Json} (h : itemDecisionId r.toJson = .ok i) :
    r.decisionId = i := by
  rw [JsonObject.toJson, itemDecisionId] at h
  split at h
  · rename_i v hv
    cases h
    rw [JsonObject.decisionId, JsonObject.get?, hv, Option.getD_some]
  · cases h

theorem Earned.mono {newly : List Json} (h : Earned newly s)
    (ha : ∀ r ∈ s.appended, r ∈ s'.appended) (hs : ∀ r, Settled s r → Settled s' r) :
    Earned newly s' := by
  intro i hi
  obtain ⟨r, hr, e, hset⟩ := h i hi
  exact ⟨r, ha r hr, e, hs r hset⟩

theorem earned_nil (s : World) : Earned [] s := by
  intro i hi
  cases hi

theorem Earned.append {newly newly' : List Json} (h : Earned newly s) (h' : Earned newly' s) :
    Earned (newly ++ newly') s := by
  intro i hi
  rcases List.mem_append.mp hi with hi | hi
  · exact h i hi
  · exact h' i hi

theorem earned_item {r : Json} {i : Json} (hr : FromLog [r] s)
    (hi : itemDecisionId r = .ok i) (hs : r ∈ s.accepted ∨ r ∈ s.poison) : Earned [i] s := by
  obtain ⟨x, hx, rfl⟩ := hr.mem List.mem_cons_self
  intro j hj
  rw [List.mem_singleton.mp hj]
  exact ⟨x, hx, itemDecisionId_toJson hi, hs⟩

/-- The ids of a batch the sink accepted. -/
theorem earned_items {batch is : List Json} (hb : FromLog batch s)
    (hi : itemDecisionIds batch = .ok is) (hs : ∀ r ∈ batch, r ∈ s.accepted) : Earned is s := by
  induction batch generalizing is with
  | nil =>
    cases hi
    exact earned_nil s
  | cons r rs ih =>
    rw [itemDecisionIds] at hi
    cases h1 : itemDecisionId r with
    | error e => rw [h1] at hi; cases hi
    | ok i =>
      cases h2 : itemDecisionIds rs with
      | error e => rw [h1, h2] at hi; cases hi
      | ok js =>
        rw [h1, h2] at hi
        cases hi
        have hr : FromLog [r] s := hb.subset (by simp)
        have hrs : FromLog rs s := hb.subset fun v hv => List.mem_cons_of_mem _ hv
        exact (earned_item hr h1 (Or.inl (hs r List.mem_cons_self))).append
          (ih hrs h2 fun v hv => hs v (List.mem_cons_of_mem _ hv))

theorem accepted_send (s : World) (batch : List Json) (a : SinkAnswer) :
    (s.send batch a).accepted = s.accepted ++ a.accepted batch := by
  simp only [World.accepted, World.send, List.flatMap_append, List.flatMap_singleton]

theorem settled_send {r : JsonObject} (h : Settled s r) (batch : List Json) (a : SinkAnswer) :
    Settled (s.send batch a) r := by
  rw [Settled, accepted_send]
  exact h.imp (List.mem_append_left _) id

theorem marked_unique {acked acked' : PySet} (h : Marked acked s) (h' : Marked acked' s) :
    acked = acked' := Except.ok.inj (h.symm.trans h')

/-- A watermark to which earned ids are added is read back, with them. -/
theorem read_earned {acked ids : PySet} {newly : List Json} {b : Bytes} (hm : Marked acked s)
    (hn : Earned newly s) (hids : Watermark.setOf newly = .ok ids)
    (hb : Watermark.payload (acked.union ids) = .ok b) :
    ∃ acked', Watermark.read (some b) = .ok acked' ∧ (∀ k, acked.Mem k → acked'.Mem k) ∧
      ∀ k, acked'.Mem k →
        acked.Mem k ∨ ∃ r ∈ s.appended, r.decisionId.key = some k ∧ Settled s r := by
  have hset : PySet.ofList newly = some ids := by
    unfold Watermark.setOf at hids
    split at hids
    · rename_i t hl
      rw [hl, Except.ok.inj hids]
    · cases hids
  have hvalid : ∀ v ∈ (acked.union ids).elems, v.Valid := by
    intro v hv
    rcases PySet.elems_union hv with hv | hv
    · exact Watermark.read_valid hm v hv
    · obtain ⟨r, -, e, -⟩ := hn v (PySet.elems_ofList hset v hv)
      exact e ▸ r.decisionId_valid
  obtain ⟨acked', hread, hmem, -⟩ := Watermark.read_payload hvalid hb
  refine ⟨acked', hread, ?_, ?_⟩
  · intro k hk
    exact (hmem k).mpr ((PySet.mem_union _ _ k).mpr (Or.inl hk))
  · intro k hk
    rcases (PySet.mem_union _ _ k).mp ((hmem k).mp hk) with hold | hadd
    · exact Or.inl hold
    · obtain ⟨i, hi, hik⟩ := (PySet.mem_ofList hset k).mp hadd
      obtain ⟨r, hra, rfl, hsettled⟩ := hn i hi
      exact Or.inr ⟨r, hra, hik, hsettled⟩

theorem replaceWatermark_eq {b : Bytes} (h : s.tmp = some b) : s.replaceWatermark =
    { s with watermark := some b, tmp := none, writes := s.writes ++ [(b, s.poison)] } := by
  rw [World.replaceWatermark, h]

end Records

/-! ## A pass -/

/-- What an invariant has to satisfy to be kept by a pass: the environment `R` leaves the shipper's
files and history alone, the segments hold whole records, and the calls that change something keep
it. -/
structure PassRules (g : Guard) (R : World → World → Prop) (I : World → Prop) : Prop where
  rely : ∀ s s', R s s' → s'.watermark = s.watermark ∧ s'.tmp = s.tmp ∧ s'.sends = s.sends ∧
    s'.poison = s.poison ∧ ∀ r ∈ s.appended, r ∈ s'.appended
  whole : ∀ s, I s → ∀ n, ∃ rs, s.wal.segment n = logBytes rs ∧ ∀ r ∈ rs, r ∈ s.appended
  send : ∀ s batch a, I s → I (s.send batch a)
  poison : ∀ s r, I s → r ∈ s.appended → I { s with poison := s.poison ++ [r.toJson] }
  count : ∀ s c n, I s → I { s with stats := s.stats.add n c }
  writeTmp : ∀ s b, I s → I { s with tmp := some b }
  replace : ∀ s acked newly ids b, I s → g.call .replaceWatermark s → Marked acked s →
    Earned newly s →
    Watermark.setOf newly = .ok ids → Watermark.payload (acked.union ids) = .ok b →
    s.tmp = some b → I s.replaceWatermark

/-- What is known while the pending records are sent: the ids to acknowledge are earned, and the
watermark is the one that was read. -/
def Sending (acked : PySet) (pending newly : List Json) (s : World) : Prop :=
  Earned newly s ∧ FromLog pending s ∧ Marked acked s

section Sending

variable {acked : PySet} {pending newly : List Json} {s : World}

theorem Sending.send (hs : Sending acked pending newly s) (b : List Json) (a : SinkAnswer) :
    Sending acked pending newly (s.send b a) :=
  ⟨hs.1.mono (fun _ hr => hr) fun _ hr => settled_send hr b a, hs.2.1.mono fun _ hr => hr, hs.2.2⟩

theorem Sending.count (hs : Sending acked pending newly s) (st : ShipperStats) :
    Sending acked pending newly { s with stats := st } :=
  ⟨hs.1.mono (fun _ hr => hr) fun _ hr => hr, hs.2.1.mono fun _ hr => hr, hs.2.2⟩

theorem Sending.poison (hs : Sending acked pending newly s) (r : Json) :
    Sending acked pending newly { s with poison := s.poison ++ [r] } :=
  ⟨hs.1.mono (fun _ hr => hr) fun _ hr => hr.imp id (List.mem_append_left _),
    hs.2.1.mono fun _ hr => hr, hs.2.2⟩

theorem Sending.earn (hs : Sending acked pending newly s) {newly' : List Json}
    (h : Earned newly' s) : Sending acked pending (newly ++ newly') s :=
  ⟨hs.1.append h, hs.2⟩

end Sending

/-- One call, from what its handler does. -/
theorem triple_ask {g : Guard} {R : World → World → Prop} {I Φ : World → Prop} {o : Call}
    {Ψ : o.Answer → World → Prop} (hΦ : Stable R I Φ) (hΨ : ∀ r, Stable R I (Ψ r))
    (h : ∀ s a, I s → g.call o s → Φ s →
      I (handle o a s).2 ∧ Ψ (handle o a s).1 (handle o a s).2) :
    Triple g.Answers R I Φ (ask o) Ψ := by
  apply Triple.perform hΦ hΨ
  intro s hI hs r s' ⟨hg, a, ha⟩
  obtain ⟨hI', hr⟩ := h s a hI hg hs
  rw [ha] at hI' hr
  exact ⟨hI', hr⟩

namespace PassRules

variable {g : Guard} {R : World → World → Prop} {I : World → Prop} (h : PassRules g R I)

include h

theorem stable_fromLog (out : List Json) : Stable R I (FromLog out) := by
  intro s s' _ _ hR hf
  exact hf.mono (h.rely s s' hR).2.2.2.2

theorem stable_marked (acked : PySet) : Stable R I (Marked acked) := by
  intro s s' _ _ hR hm
  rw [Marked, (h.rely s s' hR).1]
  exact hm

theorem stable_earned (newly : List Json) : Stable R I (Earned newly) := by
  intro s s' _ _ hR he
  obtain ⟨-, -, hs, hp, ha⟩ := h.rely s s' hR
  apply he.mono ha
  intro r hr
  rw [Settled, World.accepted, hs, hp]
  exact hr

theorem stable_tmp (b : Bytes) : Stable R I fun s => s.tmp = some b := by
  intro s s' _ _ hR ht
  rw [(h.rely s s' hR).2.1]
  exact ht

theorem stable_accepted (batch : List Json) :
    Stable R I fun s => ∀ r ∈ batch, r ∈ s.accepted := by
  intro s s' _ _ hR hb
  rw [World.accepted, (h.rely s s' hR).2.2.1]
  exact hb

theorem stable_poison (r : Json) : Stable R I fun s => r ∈ s.poison := by
  intro s s' _ _ hR hr
  rw [(h.rely s s' hR).2.2.2.1]
  exact hr

theorem stable_sending (acked : PySet) (pending newly : List Json) :
    Stable R I (Sending acked pending newly) :=
  (h.stable_earned newly).and ((h.stable_fromLog pending).and (h.stable_marked acked))

/-- A send, and what is known when it returns. -/
theorem triple_send (batch : List Json) {Φ : World → Prop} (hΦ : Stable R I Φ)
    (hsend : ∀ s a, Φ s → Φ (s.send batch a)) :
    Triple g.Answers R I Φ (ask (.send batch)) fun result s =>
      Φ s ∧ (result = .returned → ∀ r ∈ batch, r ∈ s.accepted) := by
  refine triple_ask hΦ ?_ ?_
  · intro result
    refine hΦ.and ?_
    intro s s' hI hI' hR hs e
    exact h.stable_accepted batch s s' hI hI' hR (hs e)
  · intro s a hI _ hs
    refine ⟨h.send s batch a hI, hsend s a hs, ?_⟩
    intro e r hr
    have hall : a.accepted batch = batch := by
      have e' : a.result = .returned := e
      rw [SinkAnswer.accepted, e']
    show r ∈ (s.send batch a).accepted
    rw [accepted_send, hall]
    exact List.mem_append_right _ hr

theorem triple_count (c : Counter) (n : ℕ) {Φ : World → Prop} (hΦ : Stable R I Φ)
    (hc : ∀ s st, Φ s → Φ { s with stats := st }) :
    Triple g.Answers R I Φ (ask (.count c n)) fun _ s => Φ s := by
  refine triple_ask hΦ (fun _ => hΦ) ?_
  intro s a hI _ hs
  exact ⟨h.count s c n hI, hc s _ hs⟩

variable [Std.Refl R]

/-- Reading the watermark. -/
theorem readWatermark {Φ : World → Prop} (hΦ : Stable R I Φ) :
    Triple g.Answers R I Φ Shipper.readWatermark fun acked s => Marked acked s ∧ Φ s := by
  have hstable (file : Option Bytes) : Stable R I fun s => s.watermark = file ∧ Φ s := by
    apply Stable.and _ hΦ
    intro s s' _ _ hR hw
    rw [(h.rely s s' hR).1]
    exact hw
  apply Triple.bind (Ψ := fun file s => s.watermark = file ∧ Φ s)
  · apply triple_ask hΦ hstable
    intro s a hI _ hs
    exact ⟨hI, rfl, hs⟩
  · intro file
    apply Triple.ofExcept (hstable file)
    intro acked ha s _ hs
    refine ⟨?_, hs.2⟩
    rw [Marked, hs.1]
    exact ha

/-- Reading one segment; `hΨ` says what is known of its records when they are read. -/
theorem readSegment {Φ : World → Prop} {Ψ : List Json → World → Prop} {n : ℕ}
    (hΦ : Stable R I Φ) (hstable : ∀ out, Stable R I (Ψ out))
    (hΨ : ∀ s rs, I s → Φ s → s.wal.segment n = logBytes rs → (∀ r ∈ rs, r ∈ s.appended) →
      Ψ (rs.map JsonObject.toJson) s) :
    Triple g.Answers R I Φ (Shipper.readSegment n) Ψ := by
  -- what is known of the bytes: whatever they are read as satisfies `Ψ`
  apply Triple.bind (Ψ := fun b s => ∀ out, SegmentedWal.readSegment b = .ok out → Ψ out s)
  · apply triple_ask hΦ
    · intro b s s' hI hI' hR hb out hout
      exact hstable out s s' hI hI' hR (hb out hout)
    · intro s a hI _ hs
      refine ⟨hI, ?_⟩
      intro out hout
      obtain ⟨rs, hrs, hmem⟩ := h.whole s hI n
      have he : SegmentedWal.readSegment (s.wal.segment n) = .ok out := hout
      rw [hrs, SegmentedWal.readSegment_logBytes] at he
      cases he
      exact hΨ s rs hI hs hrs hmem
  · intro b
    apply Triple.ofExcept
    · intro s s' hI hI' hR hb out hout
      exact hstable out s s' hI hI' hR (hb out hout)
    · intro out hout s _ hs
      exact hs out hout

theorem readAll {Φ : World → Prop} (hΦ : Stable R I Φ) (ns : List ℕ) :
    Triple g.Answers R I Φ (Shipper.readAll ns) fun out s => FromLog out s ∧ Φ s := by
  induction ns generalizing Φ with
  | nil =>
    refine Triple.ret hΦ ?_
    intro s _ hs
    exact ⟨fromLog_nil s, hs⟩
  | cons n ns ih =>
    have hout (out : List Json) : Stable R I fun s => FromLog out s ∧ Φ s :=
      (h.stable_fromLog out).and hΦ
    refine Triple.bind (h.readSegment hΦ hout ?_) ?_
    · intro s rs _ hs _ hmem
      exact ⟨⟨rs, rfl, hmem⟩, hs⟩
    · intro out
      refine Triple.bind (ih (hout out)) ?_
      intro rest
      refine Triple.ret ((h.stable_fromLog rest).and (hout out)) ?_
      intro s _ hs
      exact ⟨hs.2.1.append hs.1, hs.2.2⟩

/-- `unshipped` returns records of the log. -/
theorem unshipped : Triple g.Answers R I (fun _ => True) Shipper.unshipped FromLog := by
  refine Triple.bind (h.readWatermark (Stable.const True)) ?_
  intro acked
  refine Triple.bind (Ψ := fun _ _ => True) ?_ ?_
  · refine triple_ask ((h.stable_marked acked).and (Stable.const True)) ?_ ?_
    · intro _
      exact Stable.const True
    · intro s a hI _ _
      exact ⟨hI, trivial⟩
  · intro segs
    refine Triple.bind (h.readAll (Stable.const True) segs) ?_
    intro recs
    refine Triple.ofExcept ((h.stable_fromLog recs).and (Stable.const True)) ?_
    intro pending hp s _ hs
    exact hs.1.subset (notIn_subset hp)

section Sends

variable (acked : PySet) (pending : List Json)

/-- The records of a rejected batch, one at a time. -/
theorem sendEach (rs newly : List Json) (hsub : ∀ v ∈ rs, v ∈ pending) :
    Triple g.Answers R I (Sending acked pending newly) (Shipper.sendEach rs newly)
      (Sending acked pending) := by
  induction rs generalizing newly with
  | nil => exact Triple.ret (h.stable_sending acked pending newly) fun s _ hs => hs
  | cons r rs ih =>
    have hstable := h.stable_sending acked pending newly
    have hrs : ∀ v ∈ rs, v ∈ pending := fun v hv => hsub v (List.mem_cons_of_mem r hv)
    have hrest {Φ : World → Prop} (hΦ : Stable R I Φ)
        (hs : ∀ s, Φ s → Sending acked pending newly s ∧ (r ∈ s.accepted ∨ r ∈ s.poison)) :
        Triple g.Answers R I Φ (do
          let i ← ofExcept (itemDecisionId r)
          Shipper.sendEach rs (newly ++ [i])) (Sending acked pending) := by
      refine Triple.bind (Ψ := fun i => Sending acked pending (newly ++ [i])) ?_ fun i => ih _ hrs
      refine Triple.ofExcept hΦ ?_
      intro i hi s _ hΦs
      obtain ⟨hsend, hset⟩ := hs s hΦs
      have hr : FromLog [r] s := hsend.2.1.subset fun v hv => by
        rw [List.mem_singleton.mp hv]
        exact hsub r List.mem_cons_self
      exact hsend.earn (earned_item hr hi hset)
    refine Triple.bind (h.triple_send [r] hstable fun s a hs => hs.send [r] a) ?_
    intro result
    cases result with
    | returned =>
      have hacc : Stable R I fun s => SendResult.returned = .returned →
          ∀ x ∈ [r], x ∈ s.accepted := by
        intro s s' hI hI' hR hs e
        exact h.stable_accepted [r] s s' hI hI' hR (hs e)
      refine hrest (hstable.and hacc) ?_
      intro s hs
      exact ⟨hs.1, Or.inl (hs.2 rfl r List.mem_cons_self)⟩
    | rejected =>
      have hpois : Stable R I fun s => Sending acked pending newly s ∧ r ∈ s.poison :=
        hstable.and (h.stable_poison r)
      have hput : Triple g.Answers R I (Sending acked pending newly) (ask (.poison r))
          fun _ s => Sending acked pending newly s ∧ r ∈ s.poison := by
        refine triple_ask hstable (fun _ => hpois) ?_
        intro s a hI _ hs
        obtain ⟨x, hx, rfl⟩ := hs.2.1.mem (hsub r List.mem_cons_self)
        exact ⟨h.poison s x hI hx, hs.poison x.toJson, List.mem_append_right _ (by simp)⟩
      refine Triple.bind (Triple.conseq hput (fun s _ hs => hs.1) fun _ _ _ hs => hs) ?_
      intro _
      refine Triple.bind (h.triple_count .poisoned 1 hpois fun s st hs => ⟨hs.1.count st, hs.2⟩) ?_
      intro _
      exact hrest hpois fun s hs => ⟨hs.1, Or.inr hs.2⟩
    | error => exact Triple.conseq (ih newly hrs) (fun s _ hs => hs.1) fun _ _ _ hs => hs

/-- The attempts to send one batch. -/
theorem sendBatch (batch newly : List Json) (hsub : ∀ v ∈ batch, v ∈ pending) (attempts : ℕ) :
    Triple g.Answers R I (Sending acked pending newly) (Shipper.sendBatch batch attempts newly)
      (Sending acked pending) := by
  have hstable := h.stable_sending acked pending newly
  induction attempts with
  | zero => exact Triple.ret hstable fun s _ hs => hs
  | succ n ih =>
    refine Triple.bind (h.triple_send batch hstable fun s a hs => hs.send batch a) ?_
    intro result
    cases result with
    | returned =>
      -- what was accepted stays accepted while others append
      have hacc : Stable R I fun s => Sending acked pending newly s ∧
          (SendResult.returned = .returned → ∀ x ∈ batch, x ∈ s.accepted) := by
        refine hstable.and ?_
        intro s s' hI hI' hR hs e
        exact h.stable_accepted batch s s' hI hI' hR (hs e)
      refine Triple.bind (Ψ := fun is => Sending acked pending (newly ++ is)) ?_ ?_
      · refine Triple.ofExcept hacc ?_
        intro is hi s _ hs
        exact hs.1.earn (earned_items (hs.1.2.1.subset hsub) hi (hs.2 rfl))
      · intro is
        exact Triple.ret (h.stable_sending acked pending _) fun s _ hs => hs
    | rejected =>
      exact Triple.conseq (h.sendEach acked pending batch newly hsub) (fun s _ hs => hs.1)
        fun _ _ _ hs => hs
    | error =>
      refine Triple.bind (Triple.conseq (h.triple_count .retries 1 hstable fun s st hs =>
        hs.count st) (fun s _ hs => hs.1) fun _ _ _ hs => hs) ?_
      intro _
      exact ih

/-- The loop over the batches. -/
theorem sendBatches (maxAttempts : ℕ) (bs : List (List Json)) (newly : List Json)
    (hsub : ∀ b ∈ bs, ∀ v ∈ b, v ∈ pending) :
    Triple g.Answers R I (Sending acked pending newly) (Shipper.sendBatches maxAttempts bs newly)
      (Sending acked pending) := by
  induction bs generalizing newly with
  | nil => exact Triple.ret (h.stable_sending acked pending newly) fun s _ hs => hs
  | cons b bs ih =>
    refine Triple.bind (h.triple_count .batches 1 (h.stable_sending acked pending newly)
      fun s st hs => hs.count st) ?_
    intro _
    refine Triple.bind (h.sendBatch acked pending b newly (hsub b List.mem_cons_self) maxAttempts) ?_
    intro newly'
    exact ih newly' fun b' hb' => hsub b' (List.mem_cons_of_mem b hb')

end Sends

/-- The end of a pass. -/
theorem acknowledge (acked : PySet) (pending newly : List Json) :
    Triple g.Answers R I (Sending acked pending newly) (Shipper.acknowledge acked newly)
      fun _ _ => True := by
  have hstable := h.stable_sending acked pending newly
  unfold Shipper.acknowledge
  split
  · exact Triple.ret hstable fun _ _ _ => trivial
  refine Triple.bind (Ψ := fun ids s => Sending acked pending newly s ∧
    Watermark.setOf newly = .ok ids) (Triple.ofExcept hstable fun ids hi s _ hs => ⟨hs, hi⟩) ?_
  intro ids
  have hids : Stable R I fun s => Sending acked pending newly s ∧
      Watermark.setOf newly = .ok ids := hstable.and (Stable.const _)
  have hwrite : Triple g.Answers R I (fun s => Sending acked pending newly s ∧
      Watermark.setOf newly = .ok ids) (Shipper.writeWatermark (acked.union ids))
      fun _ _ => True := by
    refine Triple.bind (Ψ := fun b s => (Sending acked pending newly s ∧
      Watermark.setOf newly = .ok ids) ∧ Watermark.payload (acked.union ids) = .ok b)
      (Triple.ofExcept hids fun b hb s _ hs => ⟨hs, hb⟩) ?_
    intro b
    have hb := hids.and (Stable.const (R := R) (I := I)
      (Watermark.payload (acked.union ids) = .ok b))
    refine Triple.bind (Ψ := fun _ s => ((Sending acked pending newly s ∧
      Watermark.setOf newly = .ok ids) ∧ Watermark.payload (acked.union ids) = .ok b) ∧
        s.tmp = some b) ?_ ?_
    · refine triple_ask hb (fun _ => hb.and (h.stable_tmp b)) ?_
      intro s a hI _ hs
      exact ⟨h.writeTmp s b hI, ⟨⟨⟨hs.1.1.1.mono (fun _ hr => hr) fun _ hr => hr,
        hs.1.1.2.1.mono fun _ hr => hr, hs.1.1.2.2⟩, hs.1.2⟩, hs.2⟩, rfl⟩
    · intro _
      -- the replacement is the step that the invariant speaks of
      refine triple_ask (hb.and (h.stable_tmp b)) (fun _ => Stable.const True) ?_
      rintro s a hI hg ⟨⟨⟨hs, hi⟩, hp⟩, ht⟩
      exact ⟨h.replace s acked newly ids b hI hg hs.2.2 hs.1 hi hp ht, trivial⟩
  refine Triple.bind hwrite ?_
  intro _
  refine Triple.bind (h.triple_count .watermarkWrites 1 (Stable.const True) fun _ _ hs => hs) ?_
  intro _
  refine Triple.bind (h.triple_count .shipped _ (Stable.const True) fun _ _ hs => hs) ?_
  intro _
  exact Triple.ret (Stable.const True) fun _ _ _ => trivial

/-- **A pass keeps the invariant.** -/
theorem shipOnce (maxAttempts batchSize : ℕ) :
    Triple g.Answers R I (fun _ => True) (Shipper.shipOnce maxAttempts batchSize)
      fun _ _ => True := by
  refine Triple.bind h.unshipped ?_
  intro pending
  have hp := h.stable_fromLog pending
  split
  · exact Triple.ret hp fun _ _ _ => trivial
  refine Triple.bind (h.readWatermark hp) ?_
  intro acked
  split
  · exact Triple.raise _
  refine Triple.bind (Ψ := Sending acked pending) ?_ ?_
  · refine Triple.conseq (h.sendBatches acked pending maxAttempts (batches batchSize pending) []
      fun b hb => mem_batches hb) ?_ fun _ _ _ hs => hs
    intro s _ hs
    exact ⟨earned_nil s, hs.2, hs.1⟩
  · intro newly
    exact h.acknowledge acked pending newly

end PassRules

/-! ## A truncation -/

/-- What an invariant has to satisfy to be kept by a truncation: besides the rules of a pass, `T`
holds from the reading of the watermark and of the active segment on, `D` of a segment once its
records were found acknowledged, and then the deletion of the segment keeps the invariant. -/
structure TruncateRules (g : Guard) (R : World → World → Prop) (I : World → Prop)
    (T : PySet → ℕ → World → Prop) (D : PySet → ℕ → ℕ → World → Prop) : Prop
    extends PassRules g R I where
  stable_begun : ∀ acked active, Stable R I (T acked active)
  stable_doomed : ∀ acked active n, Stable R I (D acked active n)
  begun : ∀ s acked, I s → Marked acked s → T acked s.wal.seq s
  doomed : ∀ s acked active n rs, I s → T acked active s → n ≠ active →
    s.wal.segment n = logBytes rs → rs ≠ [] → (∀ r ∈ rs, r.Acked acked) → D acked active n s
  begun_count : ∀ s acked active st, T acked active s → T acked active { s with stats := st }
  doomed_count : ∀ s acked active n st, D acked active n s → D acked active n { s with stats := st }
  unlink : ∀ s acked active n, I s → g.call (.unlink n) s → D acked active n s →
    I { s with wal := s.wal.unlink n } ∧ T acked active { s with wal := s.wal.unlink n }

theorem acked_of_allIn {ids : PySet} {rs : List JsonObject}
    (h : allIn ids (rs.map JsonObject.toJson) = .ok true) : ∀ r ∈ rs, r.Acked ids := by
  induction rs with
  | nil => simp
  | cons r rs ih =>
    rw [List.map_cons, allIn] at h
    cases hb : idIn ids r.toJson with
    | error e => rw [hb] at h; cases h
    | ok b =>
      rw [hb] at h
      cases b with
      | false => cases h
      | true => exact List.forall_mem_cons.mpr ⟨acked_of_idIn hb, ih h⟩

namespace TruncateRules

variable {g : Guard} {R : World → World → Prop} {I : World → Prop}
  {T : PySet → ℕ → World → Prop} {D : PySet → ℕ → ℕ → World → Prop} [Std.Refl R]
  (h : TruncateRules g R I T D)

include h

/-- The loop over the segments. -/
theorem truncateSegments (acked : PySet) (active : ℕ) (ns : List ℕ) (deleted : ℕ) :
    Triple g.Answers R I (T acked active) (Shipper.truncateSegments acked active ns deleted)
      fun _ _ => True := by
  have hT := h.stable_begun acked active
  induction ns generalizing deleted with
  | nil => exact Triple.ret hT fun _ _ _ => trivial
  | cons n ns ih =>
    unfold Shipper.truncateSegments
    split
    · exact ih deleted
    rename_i hne
    have hD := h.stable_doomed acked active n
    have hread : Triple g.Answers R I (T acked active) (Shipper.readSegment n) fun out s =>
        T acked active s ∧ (out ≠ [] ∧ allIn acked out = .ok true → D acked active n s) := by
      refine h.toPassRules.readSegment hT (fun out => hT.and hD.imp) ?_
      intro s rs hI hs hseg _
      refine ⟨hs, ?_⟩
      rintro ⟨h0, hall⟩
      exact h.doomed s acked active n rs hI hs hne hseg (fun e => h0 (by rw [e]; rfl))
        (acked_of_allIn hall)
    refine Triple.bind hread ?_
    intro recs
    have hrecs : Stable R I fun s => T acked active s ∧
        (recs ≠ [] ∧ allIn acked recs = .ok true → D acked active n s) := hT.and hD.imp
    split
    · exact Triple.conseq (ih deleted) (fun s _ hs => hs.1) fun _ _ _ hs => hs
    rename_i h0
    refine Triple.bind (Ψ := fun b s => T acked active s ∧ (b = true → D acked active n s)) ?_ ?_
    · refine Triple.ofExcept hrecs ?_
      intro b hb s _ hs
      refine ⟨hs.1, ?_⟩
      intro e
      exact hs.2 ⟨h0, by rw [hb, e]⟩
    intro b
    split
    · rename_i hb
      refine Triple.bind (Ψ := fun _ => D acked active n) ?_ ?_
      · refine triple_ask (hT.and hD.imp) (fun _ => hD) ?_
        intro s a hI _ hs
        exact ⟨hI, hs.2 hb⟩
      intro size
      refine Triple.bind (h.toPassRules.triple_count .bytesReclaimed size hD
        fun s st hs => h.doomed_count s acked active n st hs) ?_
      intro _
      refine Triple.bind (Ψ := fun _ => T acked active) ?_ ?_
      · refine triple_ask hD (fun _ => hT) ?_
        intro s a hI hg hs
        exact h.unlink s acked active n hI hg hs
      intro _
      refine Triple.bind (h.toPassRules.triple_count .segmentsDeleted 1 hT
        fun s st hs => h.begun_count s acked active st hs) ?_
      intro _
      exact ih (deleted + 1)
    · exact Triple.conseq (ih deleted) (fun s _ hs => hs.1) fun _ _ _ hs => hs

/-- **A truncation keeps the invariant.** -/
theorem truncate : Triple g.Answers R I (fun _ => True) Shipper.truncate fun _ _ => True := by
  refine Triple.bind (h.toPassRules.readWatermark (Stable.const True)) ?_
  intro acked
  refine Triple.bind (Ψ := fun active => T acked active) ?_ ?_
  · refine triple_ask ((h.toPassRules.stable_marked acked).and (Stable.const True))
      (h.stable_begun acked) ?_
    intro s a hI _ hs
    exact ⟨hI, h.begun s acked hI hs.1⟩
  intro active
  refine Triple.bind (Ψ := fun _ => T acked active) ?_ ?_
  · refine triple_ask (h.stable_begun acked active) (fun _ => h.stable_begun acked active) ?_
    intro s a hI _ hs
    exact ⟨hI, hs⟩
  · intro segs
    exact h.truncateSegments acked active segs 0

/-- **Every program of the shipper keeps the invariant.** -/
theorem threadSafe_program {c : Config} {a : Action} {p : Option (ShipperM Unit)}
    (hp : program c a = some p) {s : World} (hI : I s) : ThreadSafe g R I s p := by
  cases a with
  | shipOnce b =>
    cases hp
    exact threadSafe_start (h.toPassRules.shipOnce c.maxAttempts b) hI
  | truncate =>
    cases hp
    exact threadSafe_start h.truncate hI
  | run b =>
    cases hp
    have hrun : Triple g.Answers R I (fun _ => True) (Shipper.run c.maxAttempts b)
        fun _ _ => True := by
      refine Triple.bind (h.toPassRules.shipOnce c.maxAttempts b) ?_
      intro shipped
      refine Triple.bind h.truncate ?_
      intro deleted
      refine Triple.bind (Triple.conseq h.toPassRules.unshipped (fun _ _ hs => hs)
        fun _ _ _ _ => trivial) ?_
      intro remaining
      exact Triple.ret (Stable.const True) fun _ _ _ => trivial
    exact threadSafe_start hrun hI
  | append r => cases hp
  | call b => cases hp
  | crash => cases hp

end TruncateRules

end Shipping
