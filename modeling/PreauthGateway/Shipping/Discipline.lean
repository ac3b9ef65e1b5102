import PreauthGateway.Shipping.Passes

/-!
# What the shipper's programs send

Whatever its calls return, a program of the shipper sends only records that it read from a segment,
and puts a record in the poison list only right after a send of that record alone was rejected. This
is a property of the programs by themselves: it is stated over a diary of the calls and their
answers, with no system around them, and the system that runs a program keeps the diary beside it.

## Main definitions

* `Diary`, `Diary.enter`: what a program knows from its calls
* `Disciplined`: every call that is left to a program is allowed

## Main results

* `disciplined_program`: **the programs of the shipper are disciplined**
-/

open Json Prog

namespace Shipping

/-- The records that were read, the batch whose rejection was the last answer, and whether every
call was allowed. -/
structure Diary where
  read : List Json := []
  rejected : Option (List Json) := none
  sound : Prop := True

namespace Diary

/-- Only records that were read are sent, and only the record just rejected alone is poison. -/
def Allows (d : Diary) : Call → Prop
  | .send batch => ∀ r ∈ batch, r ∈ d.read
  | .poison r => d.rejected = some [r]
  | _ => True

/-- The diary after a call and its answer. -/
def enter (d : Diary) (o : Call) (answer : o.Answer) : Diary where
  read :=
    match o, answer with
    | .readSegment _, b => d.read ++ ((SegmentedWal.readSegment b).toOption.getD [])
    | _, _ => d.read
  rejected :=
    match o, answer with
    | .send batch, .rejected => some batch
    | _, _ => none
  sound := d.sound ∧ d.Allows o

theorem read_subset_enter (d : Diary) (o : Call) (answer : o.Answer) :
    ∀ r ∈ d.read, r ∈ (d.enter o answer).read := by
  intro r hr
  unfold enter
  dsimp only
  split
  · exact List.mem_append_left _ hr
  · exact hr

end Diary

/-- What a call is answered is entered. -/
def Entered (o : Call) (d : Diary) (answer : o.Answer) (d' : Diary) : Prop := d' = d.enter o answer

/-- Started where `Φ` holds of the diary, every call is allowed, and `Ψ` holds of the value. -/
abbrev Allowed {α : Type} (Φ : Diary → Prop) (p : ShipperM α) (Ψ : α → Diary → Prop) : Prop :=
  Triple Entered Eq Diary.sound Φ p Ψ

/-- Every call that is left is allowed. -/
def Disciplined (d : Diary) : Option (ShipperM Unit) → Prop
  | none => True
  | some p => Safe Entered Eq Diary.sound p (fun _ _ => True) d

theorem stable_diary (Φ : Diary → Prop) : Stable Eq Diary.sound Φ := by
  rintro d d' - - rfl hd
  exact hd

theorem disciplined_resume {p : ShipperM Unit} {d : Diary}
    (h : Safe Entered Eq Diary.sound p (fun _ _ => True) d) : Disciplined d (resume p) := by
  cases p with
  | ret a => trivial
  | raise e => trivial
  | call o k => exact h

/-! ## The programs -/

section Programs

/-- A call that is allowed. -/
theorem allowed_ask {o : Call} {Φ : Diary → Prop} {Ψ : o.Answer → Diary → Prop}
    (h : ∀ d, Φ d → d.Allows o ∧ ∀ answer, Ψ answer (d.enter o answer)) : Allowed Φ (ask o) Ψ := by
  refine Triple.perform (stable_diary Φ) (fun _ => stable_diary _) ?_
  rintro d hsound hd answer d' rfl
  exact ⟨⟨hsound, (h d hd).1⟩, (h d hd).2 answer⟩

/-- What was read stays read. -/
def HasRead (rs : List Json) (d : Diary) : Prop := ∀ r ∈ rs, r ∈ d.read

theorem HasRead.enter {rs : List Json} {d : Diary} (h : HasRead rs d) (o : Call)
    (answer : o.Answer) : HasRead rs (d.enter o answer) :=
  fun r hr => d.read_subset_enter o answer r (h r hr)

theorem hasRead_nil (d : Diary) : HasRead [] d := by
  rintro r ⟨⟩

theorem HasRead.append {rs rs' : List Json} {d : Diary} (h : HasRead rs d) (h' : HasRead rs' d) :
    HasRead (rs ++ rs') d := fun r hr => (List.mem_append.mp hr).elim (h r) (h' r)

variable {rs : List Json}

/-- A call that neither sends nor poisons. -/
theorem allowed_quiet {o : Call} (ho : ∀ d : Diary, d.Allows o) :
    Allowed (HasRead rs) (ask o) fun _ => HasRead rs :=
  allowed_ask fun d hd => ⟨ho d, fun answer => hd.enter o answer⟩

theorem allowed_ofExcept {α : Type} (x : Except PyError α) {Ψ : α → Diary → Prop}
    (h : ∀ a, x = .ok a → ∀ d, HasRead rs d → Ψ a d) : Allowed (HasRead rs) (ofExcept x) Ψ :=
  Triple.ofExcept (stable_diary _) fun a ha d _ hd => h a ha d hd

theorem allowed_ret {α : Type} (a : α) : Allowed (HasRead rs) (.ret a) fun _ => HasRead rs :=
  Triple.ret (stable_diary _) fun _ _ hd => hd

theorem allowed_readWatermark :
    Allowed (HasRead rs) Shipper.readWatermark fun _ => HasRead rs :=
  Triple.bind (allowed_quiet fun _ => trivial) fun _ => allowed_ofExcept _ fun _ _ _ hd => hd

/-- The records of a segment are read. -/
theorem allowed_readSegment (n : ℕ) :
    Allowed (HasRead rs) (Shipper.readSegment n) fun out => HasRead (rs ++ out) := by
  refine Triple.bind (Ψ := fun b => HasRead (rs ++ (SegmentedWal.readSegment b).toOption.getD []))
    ?_ ?_
  · refine allowed_ask fun d hd => ⟨trivial, fun b => ?_⟩
    exact (hd.enter _ b).append fun r hr => List.mem_append_right _ hr
  · intro b
    refine allowed_ofExcept _ fun out hout d hd => ?_
    rw [hout] at hd
    exact hd

theorem allowed_readAll (ns : List ℕ) :
    Allowed (HasRead rs) (Shipper.readAll ns) fun out => HasRead (rs ++ out) := by
  induction ns generalizing rs with
  | nil =>
    refine Triple.ret (stable_diary _) fun d _ hd => ?_
    rw [List.append_nil]
    exact hd
  | cons n ns ih =>
    refine Triple.bind (allowed_readSegment n) fun out => Triple.bind ih fun rest => ?_
    refine Triple.ret (stable_diary _) fun d _ hd => ?_
    rw [← List.append_assoc]
    exact hd

/-- What is pending was read. -/
theorem allowed_unshipped :
    Allowed (HasRead rs) Shipper.unshipped fun pending => HasRead (rs ++ pending) := by
  refine Triple.bind allowed_readWatermark fun acked => ?_
  refine Triple.bind (allowed_quiet fun _ => trivial) fun segs => ?_
  refine Triple.bind (allowed_readAll segs) fun recs => ?_
  refine allowed_ofExcept _ fun pending hp d hd r hr => ?_
  rcases List.mem_append.mp hr with hr | hr
  · exact hd r (List.mem_append_left _ hr)
  · exact hd r (List.mem_append_right _ (notIn_subset hp r hr))

/-- The records of a rejected batch, one at a time. -/
theorem allowed_sendEach (xs newly : List Json) (hsub : ∀ r ∈ xs, r ∈ rs) :
    Allowed (HasRead rs) (Shipper.sendEach xs newly) fun _ => HasRead rs := by
  induction xs generalizing newly with
  | nil => exact allowed_ret newly
  | cons r xs ih =>
    have hrest (newly : List Json) := ih newly fun x hx => hsub x (List.mem_cons_of_mem r hx)
    have hid : Allowed (HasRead rs) (do
        let i ← ofExcept (itemDecisionId r)
        Shipper.sendEach xs (newly ++ [i])) fun _ => HasRead rs :=
      Triple.bind (allowed_ofExcept _ fun _ _ _ hd => hd) fun i => hrest _
    -- its rejection is what allows the poison
    refine Triple.bind (Ψ := fun result d => HasRead rs d ∧
      (result = .rejected → d.rejected = some [r])) ?_ ?_
    · refine allowed_ask fun d hd => ⟨?_, fun result => ⟨hd.enter _ result, ?_⟩⟩
      · intro x hx
        rw [List.mem_singleton.mp hx]
        exact hd r (hsub r List.mem_cons_self)
      · rintro rfl
        rfl
    intro result
    cases result with
    | returned => exact Triple.conseq hid (fun _ _ hd => hd.1) fun _ _ _ hd => hd
    | rejected =>
      refine Triple.bind (Ψ := fun _ => HasRead rs) ?_ fun _ => ?_
      · exact allowed_ask fun d hd => ⟨hd.2 rfl, fun answer => hd.1.enter _ answer⟩
      · exact Triple.bind (allowed_quiet fun _ => trivial) fun _ => hid
    | error => exact Triple.conseq (hrest newly) (fun _ _ hd => hd.1) fun _ _ _ hd => hd

theorem allowed_sendBatch (batch newly : List Json) (hsub : ∀ r ∈ batch, r ∈ rs) (attempts : ℕ) :
    Allowed (HasRead rs) (Shipper.sendBatch batch attempts newly) fun _ => HasRead rs := by
  induction attempts with
  | zero => exact allowed_ret newly
  | succ n ih =>
    refine Triple.bind (Ψ := fun _ => HasRead rs) ?_ ?_
    · exact allowed_ask fun d hd => ⟨fun r hr => hd r (hsub r hr), fun result => hd.enter _ result⟩
    intro result
    cases result with
    | returned =>
      exact Triple.bind (allowed_ofExcept _ fun _ _ _ hd => hd) fun is => allowed_ret _
    | rejected => exact allowed_sendEach batch newly hsub
    | error => exact Triple.bind (allowed_quiet fun _ => trivial) fun _ => ih

theorem allowed_sendBatches (maxAttempts : ℕ) (bs : List (List Json)) (newly : List Json)
    (hsub : ∀ b ∈ bs, ∀ r ∈ b, r ∈ rs) :
    Allowed (HasRead rs) (Shipper.sendBatches maxAttempts bs newly) fun _ => HasRead rs := by
  induction bs generalizing newly with
  | nil => exact allowed_ret newly
  | cons b bs ih =>
    refine Triple.bind (allowed_quiet fun _ => trivial) fun _ => ?_
    refine Triple.bind (allowed_sendBatch b newly (hsub b List.mem_cons_self) maxAttempts) fun _ => ?_
    exact ih _ fun b' hb' => hsub b' (List.mem_cons_of_mem b hb')

theorem allowed_acknowledge (acked : PySet) (newly : List Json) :
    Allowed (HasRead rs) (Shipper.acknowledge acked newly) fun _ => HasRead rs := by
  unfold Shipper.acknowledge
  split
  · exact allowed_ret 0
  refine Triple.bind (allowed_ofExcept _ fun _ _ _ hd => hd) fun ids => ?_
  have hwrite : Allowed (HasRead rs) (Shipper.writeWatermark (acked.union ids))
      fun _ => HasRead rs :=
    Triple.bind (allowed_ofExcept _ fun _ _ _ hd => hd) fun b =>
      Triple.bind (allowed_quiet fun _ => trivial) fun _ => allowed_quiet fun _ => trivial
  refine Triple.bind hwrite fun _ => ?_
  refine Triple.bind (allowed_quiet fun _ => trivial) fun _ => ?_
  exact Triple.bind (allowed_quiet fun _ => trivial) fun _ => allowed_ret _

/-- A pass. -/
theorem allowed_shipOnce (maxAttempts batchSize : ℕ) :
    Allowed (HasRead rs) (Shipper.shipOnce maxAttempts batchSize) fun _ => HasRead rs := by
  refine Triple.bind allowed_unshipped fun pending => ?_
  refine Triple.conseq (Ψ := fun _ => HasRead (rs ++ pending)) (Φ := HasRead (rs ++ pending)) ?_
    (fun _ _ hd => hd) fun _ _ _ hd r hr => hd r (List.mem_append_left _ hr)
  split
  · exact allowed_ret 0
  refine Triple.bind allowed_readWatermark fun acked => ?_
  split
  · exact Triple.raise _
  refine Triple.bind (allowed_sendBatches maxAttempts _ [] ?_) fun newly =>
    allowed_acknowledge acked newly
  exact fun b hb r hr => List.mem_append_right _ (mem_batches hb r hr)

theorem allowed_truncateSegments (acked : PySet) (active : ℕ) (ns : List ℕ) (deleted : ℕ) :
    Allowed (HasRead rs) (Shipper.truncateSegments acked active ns deleted)
      fun _ => HasRead rs := by
  induction ns generalizing deleted with
  | nil => exact allowed_ret deleted
  | cons n ns ih =>
    unfold Shipper.truncateSegments
    split
    · exact ih deleted
    refine Triple.bind (Triple.conseq (allowed_readSegment n) (fun _ _ hd => hd)
      fun _ _ _ hd r hr => hd r (List.mem_append_left _ hr)) fun recs => ?_
    split
    · exact ih deleted
    refine Triple.bind (allowed_ofExcept _ fun _ _ _ hd => hd) fun b => ?_
    split
    · refine Triple.bind (allowed_quiet fun _ => trivial) fun size => ?_
      refine Triple.bind (allowed_quiet fun _ => trivial) fun _ => ?_
      refine Triple.bind (allowed_quiet fun _ => trivial) fun _ => ?_
      exact Triple.bind (allowed_quiet fun _ => trivial) fun _ => ih (deleted + 1)
    · exact ih deleted

theorem allowed_truncate : Allowed (HasRead rs) Shipper.truncate fun _ => HasRead rs := by
  refine Triple.bind allowed_readWatermark fun acked => ?_
  refine Triple.bind (allowed_quiet fun _ => trivial) fun active => ?_
  exact Triple.bind (allowed_quiet fun _ => trivial) fun segs =>
    allowed_truncateSegments acked active segs 0

theorem allowed_run (maxAttempts batchSize : ℕ) :
    Allowed (HasRead rs) (Shipper.run maxAttempts batchSize) fun _ => HasRead rs := by
  refine Triple.bind (allowed_shipOnce maxAttempts batchSize) fun shipped => ?_
  refine Triple.bind allowed_truncate fun deleted => ?_
  refine Triple.bind (Triple.conseq allowed_unshipped (fun _ _ hd => hd)
    fun _ _ _ hd r hr => hd r (List.mem_append_left _ hr)) fun remaining => ?_
  exact allowed_ret _

end Programs

/-- A program starts with an empty diary. -/
theorem disciplined_start {α : Type} {p : ShipperM α} {Ψ : α → Diary → Prop}
    (h : Allowed (HasRead []) p Ψ) : Disciplined {} (start p) := by
  apply disciplined_resume
  refine Safe.bind (I := Diary.sound) trivial (h {} trivial (hasRead_nil _)) ?_ ?_
  · intro a d _ _ d' _ _
    trivial
  · intro e d _ _
    trivial

/-- **The programs of the shipper are disciplined**: they send what they read, and poison what was
rejected alone. -/
theorem disciplined_program {c : Config} {a : Action} {p : Option (ShipperM Unit)}
    (hp : program c a = some p) : Disciplined {} p := by
  cases a with
  | shipOnce b =>
    cases hp
    exact disciplined_start (allowed_shipOnce c.maxAttempts b)
  | truncate =>
    cases hp
    exact disciplined_start allowed_truncate
  | run b =>
    cases hp
    exact disciplined_start (allowed_run c.maxAttempts b)
  | append r => cases hp
  | call b => cases hp
  | crash => cases hp

end Shipping
