import PreauthGateway.Program.Runs
import PreauthGateway.Shipping.Shipper

/-!
# A process that logs and ships

One process appends to the segmented log while its shipper works through a pass, a truncation or
both, one call at a time; the sink answers each send as it likes. A crash ends the process between
two steps, and a new one starts from the files: it has an empty poison list and no pass under way.

The world also keeps the history that the properties speak of: the records appended, the sends and
their answers, the watermarks written with the poison list of their writer, and the poisoned records
that a crash lost when their ids were in the watermark.

## Main definitions

* `World`, `handle`: the files, the process and the history; what each call does to them
* `Shipping`, `Shipping.Action`, `Shipping.step`: the system and its steps
-/

open Json

structure ShipperStats where
  batches : ℕ := 0
  shipped : ℕ := 0
  retries : ℕ := 0
  poisoned : ℕ := 0
  segmentsDeleted : ℕ := 0
  bytesReclaimed : ℕ := 0
  watermarkWrites : ℕ := 0
deriving DecidableEq

/-- Raise one counter. -/
def ShipperStats.add (st : ShipperStats) (n : ℕ) : Counter → ShipperStats
  | .batches => { st with batches := st.batches + n }
  | .shipped => { st with shipped := st.shipped + n }
  | .retries => { st with retries := st.retries + n }
  | .poisoned => { st with poisoned := st.poisoned + n }
  | .segmentsDeleted => { st with segmentsDeleted := st.segmentsDeleted + n }
  | .bytesReclaimed => { st with bytesReclaimed := st.bytesReclaimed + n }
  | .watermarkWrites => { st with watermarkWrites := st.watermarkWrites + n }

/-- How the sink answers a send: the outcome, and which records it kept although it raised. -/
structure SinkAnswer where
  result : SendResult
  part : List Json := []

/-- What the sink accepted of a batch: all of it when the send returned. -/
def SinkAnswer.accepted (a : SinkAnswer) (batch : List Json) : List Json :=
  match a.result with
  | .returned => batch
  | .error | .rejected => a.part.filter fun r => r ∈ batch

/-- The files, the process, and the history. -/
structure World where
  wal : SegmentedWal
  watermark : Option Bytes := none
  tmp : Option Bytes := none
  poison : List Json := []
  stats : ShipperStats := {}
  appended : List JsonObject := []
  sends : List (List Json × SinkAnswer) := []
  writes : List (Bytes × List Json) := []
  stranded : List Json := []

namespace World

/-- The records the sink accepted. -/
def accepted (s : World) : List Json := s.sends.flatMap fun p => p.2.accepted p.1

/-- `SegmentedWal.append`. -/
def append (s : World) (r : JsonObject) : World :=
  { s with wal := s.wal.append r, appended := s.appended ++ [r] }

/-- A send and its answer. -/
def send (s : World) (batch : List Json) (a : SinkAnswer) : World :=
  { s with sends := s.sends ++ [(batch, a)] }

/-- `os.replace` of the temporary file. -/
def replaceWatermark (s : World) : World :=
  match s.tmp with
  | some b => { s with watermark := some b, tmp := none, writes := s.writes ++ [(b, s.poison)] }
  | none => s

/-- The records of the poison list whose ids are in the watermark. -/
def poisonMarked (s : World) : List Json :=
  match Watermark.read s.watermark with
  | .ok acked => s.poison.filter fun r => (idIn acked r).toOption.getD false
  | .error _ => []

/-- A crash, and the start of a new process on the files. -/
def crash (s : World) : World :=
  { s with
    wal := SegmentedWal.openAt s.wal.config s.wal.dir
    poison := []
    stats := {}
    stranded := s.stranded ++ s.poisonMarked }

end World

/-- What a call returns and does; `a` is the sink's answer, should it be a send. -/
def handle : (o : Call) → SinkAnswer → World → o.Answer × World
  | .readWatermark, _, s => (s.watermark, s)
  | .listSegments, _, s => (segments s.wal.dir, s)
  | .readSegment n, _, s => (s.wal.segment n, s)
  | .activeSegment, _, s => (s.wal.activeSegment, s)
  | .send batch, a, s => (a.result, s.send batch a)
  | .poison r, _, s => ((), { s with poison := s.poison ++ [r] })
  | .writeTmp b, _, s => ((), { s with tmp := some b })
  | .replaceWatermark, _, s => ((), s.replaceWatermark)
  | .segmentSize n, _, s => ((s.wal.segment n).length, s)
  | .unlink n, _, s => ((), { s with wal := s.wal.unlink n })
  | .count c n, _, s => ((), { s with stats := s.stats.add n c })

/-- A process with what is left of its shipper's current program. -/
structure Shipping where
  world : World
  thread : Option (ShipperM Unit) := none

namespace Shipping

/-- The settings of a process. -/
structure Config where
  segment : SegmentConfig := {}
  maxAttempts : ℕ := 4

inductive Action
  | append (r : JsonObject)
  | shipOnce (batchSize : ℕ)
  | truncate
  | run (batchSize : ℕ)
  | call (a : SinkAnswer)
  | crash

/-- What is left to run, if anything. -/
def resume : ShipperM Unit → Option (ShipperM Unit)
  | .call o k => some (.call o k)
  | .ret _ => none
  | .raise _ => none

/-- The start of a program whose value nobody waits for. -/
def start {α : Type} (p : ShipperM α) : Option (ShipperM Unit) := resume (p >>= fun _ => .ret ())

/-- One step; only one program of the shipper is under way at a time. -/
def step (c : Config) (s : Shipping) : Action → Option Shipping
  | .append r => some { s with world := s.world.append r }
  | .shipOnce batchSize =>
    if s.thread.isSome then none
    else some { s with thread := start (Shipper.shipOnce c.maxAttempts batchSize) }
  | .truncate =>
    if s.thread.isSome then none else some { s with thread := start Shipper.truncate }
  | .run batchSize =>
    if s.thread.isSome then none
    else some { s with thread := start (Shipper.run c.maxAttempts batchSize) }
  | .call a =>
    match s.thread with
    | some (.call o k) =>
      some { world := (handle o a s.world).2, thread := resume (k (handle o a s.world).1) }
    | _ => none
  | .crash => some { world := s.world.crash, thread := none }

/-- A first process, on an empty directory. -/
def init (c : Config) : Shipping := { world := { wal := SegmentedWal.openAt c.segment ∅ } }

/-- The program an action starts. -/
def program (c : Config) : Action → Option (Option (ShipperM Unit))
  | .shipOnce batchSize => some (start (Shipper.shipOnce c.maxAttempts batchSize))
  | .truncate => some (start Shipper.truncate)
  | .run batchSize => some (start (Shipper.run c.maxAttempts batchSize))
  | .append _ | .call _ | .crash => none

/-- **What a step can do.** -/
theorem step_cases {c : Config} {s s' : Shipping} {a : Action} (h : step c s a = some s') :
    (∃ r, a = .append r ∧ s' = { s with world := s.world.append r }) ∨
    (∃ p, program c a = some p ∧ s.thread = none ∧ s' = { s with thread := p }) ∨
    (∃ b o k, a = .call b ∧ s.thread = some (.call o k) ∧
      s' = { world := (handle o b s.world).2, thread := resume (k (handle o b s.world).1) }) ∨
    (a = .crash ∧ s' = { world := s.world.crash, thread := none }) := by
  have hstart {p : Option (ShipperM Unit)} (hp : program c a = some p)
      (h : (if s.thread.isSome then none else some { s with thread := p }) = some s') :
      ∃ p, program c a = some p ∧ s.thread = none ∧ s' = { s with thread := p } := by
    split at h
    · cases h
    · rename_i hs
      cases h
      exact ⟨p, hp, by simpa using hs, rfl⟩
  cases a with
  | append r =>
    cases h
    exact Or.inl ⟨r, rfl, rfl⟩
  | shipOnce b => exact Or.inr (Or.inl (hstart rfl h))
  | truncate => exact Or.inr (Or.inl (hstart rfl h))
  | run b => exact Or.inr (Or.inl (hstart rfl h))
  | call b =>
    rw [step] at h
    split at h
    · rename_i o k hk
      cases h
      exact Or.inr (Or.inr (Or.inl ⟨b, o, k, rfl, hk, rfl⟩))
    · cases h
  | crash =>
    cases h
    exact Or.inr (Or.inr (Or.inr ⟨rfl, rfl⟩))

/-! ## Invariants -/

/-- A condition on the steps of the system. -/
structure Guard where
  append : Shipping → JsonObject → Prop := fun _ _ => True
  call : (o : Call) → World → Prop := fun _ _ => True
  crash : World → Prop := fun _ => True

/-- An action meets the condition. -/
def Guard.Meets (g : Guard) (s : Shipping) : Action → Prop
  | .append r => g.append s r
  | .call _ => ∀ o k, s.thread = some (.call o k) → g.call o s.world
  | .crash => g.crash s.world
  | .shipOnce _ | .truncate | .run _ => True

/-- Both conditions. -/
def Guard.and (g g' : Guard) : Guard where
  append s r := g.append s r ∧ g'.append s r
  call o s := g.call o s ∧ g'.call o s
  crash s := g.crash s ∧ g'.crash s

theorem Guard.Meets.and {g g' : Guard} {s : Shipping} {a : Action} (h : g.Meets s a)
    (h' : g'.Meets s a) : (g.and g').Meets s a := by
  cases a with
  | append r => exact ⟨h, h'⟩
  | call b => exact fun o k hk => ⟨h o k hk, h' o k hk⟩
  | crash => exact ⟨h, h'⟩
  | shipOnce b => trivial
  | truncate => trivial
  | run b => trivial

instance Guard.decidableMeets (g : Guard) [∀ s r, Decidable (g.append s r)]
    [∀ o s, Decidable (g.call o s)] [∀ s, Decidable (g.crash s)] (s : Shipping) :
    (a : Action) → Decidable (g.Meets s a)
  | .append r => inferInstanceAs (Decidable (g.append s r))
  | .crash => inferInstanceAs (Decidable (g.crash s.world))
  | .shipOnce _ | .truncate | .run _ => isTrue trivial
  | .call _ =>
    match h : s.thread with
    | some (.call o _) => decidable_of_iff (g.call o s.world)
        ⟨fun hg _ _ e => by rw [h] at e; cases e; exact hg, fun hg => hg _ _ h⟩
    | none => isTrue fun _ _ e => by rw [h] at e; cases e
    | some (.ret _) => isTrue fun _ _ e => by rw [h] at e; cases e
    | some (.raise _) => isTrue fun _ _ e => by rw [h] at e; cases e

/-- What a call can return and do where the condition allows it. -/
def Guard.Answers (g : Guard) (o : Call) (s : World) (r : o.Answer) (s' : World) : Prop :=
  g.call o s ∧ ∃ a, handle o a s = (r, s')

variable (g : Guard) (R : World → World → Prop) (I : World → Prop)

/-- What is left of a program is safe. -/
def ThreadSafe (s : World) : Option (ShipperM Unit) → Prop
  | none => True
  | some p => Prog.Safe g.Answers R I p (fun _ _ => True) s

variable {g R I}

theorem threadSafe_resume {p : ShipperM Unit} {s : World}
    (h : Prog.Safe g.Answers R I p (fun _ _ => True) s) : ThreadSafe g R I s (resume p) := by
  cases p with
  | ret a => trivial
  | raise e => trivial
  | call o k => exact h

theorem threadSafe_start [Std.Refl R] {α : Type} {p : ShipperM α} {Ψ : α → World → Prop}
    (h : Prog.Triple g.Answers R I (fun _ => True) p Ψ) {s : World} (hI : I s) :
    ThreadSafe g R I s (start p) := by
  apply threadSafe_resume
  apply Prog.Safe.bind hI (h s hI trivial)
  · intro a s _ _ s₁ _ _
    trivial
  · intro e s _ _
    trivial

/-- **An invariant of the system**, from what each kind of step keeps. -/
theorem invariant [Std.Refl R] [IsTrans World R] {c : Config}
    (hprog : ∀ a p, program c a = some p → ∀ s, I s → ThreadSafe g R I s p)
    (happend : ∀ (s : Shipping) r, I s.world → g.append s r →
      I (s.world.append r) ∧ (s.thread ≠ none → R s.world (s.world.append r)))
    (hcrash : ∀ s, I s → g.crash s → I s.crash) (h0 : I (init c).world) {as : List Action}
    {s : Shipping} (hm : Runs.Meets (step c) g.Meets (init c) as)
    (hrun : Runs.run (step c) (init c) as = some s) : I s.world := by
  suffices h : I s.world ∧ ThreadSafe g R I s.world s.thread from h.1
  have h0' : I (init c).world ∧ ThreadSafe g R I (init c).world (init c).thread := ⟨h0, trivial⟩
  refine Runs.invariant (P := fun s => I s.world ∧ ThreadSafe g R I s.world s.thread) ?_ h0' hm hrun
  intro s a s' ⟨hI, hs⟩ hg h
  rcases step_cases h with ⟨r, rfl, rfl⟩ | ⟨p, hp, -, rfl⟩ | ⟨b, o, k, rfl, hk, rfl⟩ | ⟨rfl, rfl⟩
  · obtain ⟨hI', hR⟩ := happend s r hI hg
    refine ⟨hI', ?_⟩
    cases ht : s.thread with
    | none => trivial
    | some p =>
      rw [ht] at hs
      exact hs.rely (hR (by rw [ht]; exact Option.some_ne_none p))
  · exact ⟨hI, hprog a p hp s.world hI⟩
  · rw [hk] at hs
    obtain ⟨hI', hs'⟩ := hs s.world (refl_of R _) hI (handle o b s.world).1 (handle o b s.world).2
      ⟨hg o k hk, b, rfl⟩
    exact ⟨hI', threadSafe_resume hs'⟩
  · exact ⟨hcrash s.world hI hg, trivial⟩

end Shipping
