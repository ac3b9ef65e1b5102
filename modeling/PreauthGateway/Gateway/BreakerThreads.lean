import PreauthGateway.Gateway.Breaker
import PreauthGateway.Program.Threads

/-!
# The breaker under several threads

The breaker takes no lock: each read and each write of `failures` and of `opened_at` is a step of
its own. `is_open` reads `opened_at` twice, and reads the clock in between. When another thread
clears the field between the two reads, the second one finds `None`, and the subtraction raises.

## Main definitions

* `BreakerThread`, `BreakerThread.access`: the accesses of `is_open`, `record_failure`,
  `record_success`, and of the model stage of `decide`
* `ClearedBetween`: the last write between the two reads of a thread cleared the field
* `NeverCleared`: no thread ever finds it so

## Main results

* `BreakerThread.access_eq_none`: a thread goes on until it has returned or raised
* `BreakerThread.alone_isOpen`, `BreakerThread.alone_recordFailure`,
  `BreakerThread.alone_recordSuccess`: alone, the calls are those of `CircuitBreaker`
* `BreakerPool.neverRaises_iff`: **no thread raises exactly in the runs without one**
-/

/-- A call of the breaker. `modelStage ok` is that of `decide`, with a model that answers or
raises. -/
inductive BreakerCall
  | isOpen
  | recordFailure
  | recordSuccess
  | modelStage (ok : Bool)

/-- The next step of a thread. -/
inductive BreakerPoint
  -- is_open
  | checkOpened
  | readClock
  | subtract (now : ℚ)
  | halfOpen
  | forget
  | returned (isOpen : Bool)
  | raised
  -- record_failure
  | readFailures
  | writeFailures (read : ℕ)
  | compare
  | checkClosed
  | readOpeningClock
  | trip (now : ℚ)
  -- record_success
  | resetFailures
  | close
  | recorded
deriving DecidableEq

/-- A thread in a call: its next step, and for the model stage whether the model answers. -/
structure BreakerThread where
  point : BreakerPoint
  model : Option Bool := none
deriving DecidableEq

/-- What an access reads or writes; `check` and `subtract` are the two reads of `is_open`. -/
inductive BreakerAccess
  | check (opened : Bool)
  | subtract
  | readOpened
  | writeOpened (t : Option ℚ)
  | failures
  | clock
deriving DecidableEq

namespace BreakerThread

/-- A call begins. -/
def enter : BreakerCall → BreakerThread
  | .isOpen => { point := .checkOpened }
  | .recordFailure => { point := .readFailures }
  | .recordSuccess => { point := .resetFailures }
  | .modelStage ok => { point := .checkOpened, model := some ok }

/-- The thread goes on at a point. -/
def goto (q : BreakerPoint) (p : BreakerThread) : BreakerThread := { p with point := q }

/-- `is_open` returns: the model stage then calls the model unless the breaker is open. -/
def leave (isOpen : Bool) (p : BreakerThread) : BreakerThread :=
  match isOpen, p.model with
  | false, some true => p.goto .resetFailures
  | false, some false => p.goto .readFailures
  | _, _ => p.goto (.returned isOpen)

/-- One access; `x` is the reading of the clock, where it is read. -/
def access (x : ℚ) (p : BreakerThread) (b : CircuitBreaker) :
    Option (BreakerAccess × BreakerThread × CircuitBreaker) :=
  match p.point with
  -- if self.opened_at is None: return False
  | .checkOpened =>
    match b.openedAt with
    | none => some (.check false, p.leave false, b)
    | some _ => some (.check true, p.goto .readClock, b)
  -- if time.monotonic() - self.opened_at > self.cooldown_s
  | .readClock => some (.clock, p.goto (.subtract x), b)
  | .subtract now =>
    match b.openedAt with
    | none => some (.subtract, p.goto .raised, b)
    | some t =>
      if b.cooldownS < now - t then some (.subtract, p.goto .halfOpen, b)
      else some (.subtract, p.leave true, b)
  | .halfOpen => some (.writeOpened none, p.goto .forget, { b with openedAt := none })
  | .forget => some (.failures, p.leave false, { b with failures := 0 })
  -- self.failures += 1
  | .readFailures => some (.failures, p.goto (.writeFailures b.failures), b)
  | .writeFailures n => some (.failures, p.goto .compare, { b with failures := n + 1 })
  -- if self.failures >= self.threshold and self.opened_at is None
  | .compare =>
    some (.failures, p.goto (if b.threshold ≤ b.failures then .checkClosed else .recorded), b)
  | .checkClosed =>
    some (.readOpened, p.goto (if b.openedAt = none then .readOpeningClock else .recorded), b)
  | .readOpeningClock => some (.clock, p.goto (.trip x), b)
  | .trip now => some (.writeOpened (some now), p.goto .recorded, { b with openedAt := some now })
  | .resetFailures => some (.failures, p.goto .close, { b with failures := 0 })
  | .close => some (.writeOpened none, p.goto .recorded, { b with openedAt := none })
  | .returned _ | .raised | .recorded => none

/-- **A thread goes on until it has returned or raised.** -/
theorem access_eq_none {x : ℚ} {p : BreakerThread} {b : CircuitBreaker} :
    p.access x b = none ↔
      p.point = .raised ∨ p.point = .recorded ∨ ∃ isOpen, p.point = .returned isOpen := by
  unfold access
  split <;> (try split) <;> (try split) <;> simp_all

end BreakerThread

/-! ### A thread that is alone -/

namespace BreakerThread

/-- Alone, the accesses of `is_open` are `CircuitBreaker.isOpen`. -/
theorem alone_isOpen (x : ℚ) (b : CircuitBreaker) :
    Pool.alone (access x) 5 (enter .isOpen) b = (⟨.returned (b.isOpen x).1, none⟩, (b.isOpen x).2) := by
  rcases h : b.openedAt with _ | t
  · simp [Pool.alone, enter, access, leave, goto, CircuitBreaker.isOpen, h]
  · by_cases hlt : b.cooldownS < x - t <;>
      simp [Pool.alone, enter, access, leave, goto, CircuitBreaker.isOpen, h, hlt]

/-- Those of `record_failure` are `CircuitBreaker.recordFailure`. -/
theorem alone_recordFailure (x : ℚ) (b : CircuitBreaker) :
    Pool.alone (access x) 6 (enter .recordFailure) b = (⟨.recorded, none⟩, b.recordFailure x) := by
  by_cases hle : b.threshold ≤ (b.failures : ℤ) + 1
  · rcases h : b.openedAt with _ | t <;>
      simp [Pool.alone, enter, access, goto, CircuitBreaker.recordFailure, hle, h]
  · simp [Pool.alone, enter, access, goto, CircuitBreaker.recordFailure, hle]

/-- Those of `record_success` are `CircuitBreaker.recordSuccess`. -/
theorem alone_recordSuccess (x : ℚ) (b : CircuitBreaker) :
    Pool.alone (access x) 2 (enter .recordSuccess) b = (⟨.recorded, none⟩, b.recordSuccess) := by
  simp [Pool.alone, enter, access, goto, CircuitBreaker.recordSuccess]

end BreakerThread

/-- The accesses of a breaker's threads. -/
abbrev BreakerJournal := List (ℕ × BreakerAccess)

/-- The last value written to `opened_at`. -/
def lastOpened (J : BreakerJournal) : Option (Option ℚ) :=
  (J.filterMap fun e => match e.2 with
    | .writeOpened t => some t
    | _ => none).getLast?

/-- Between the two reads that `is_open` makes in the thread `i`, the last write to `opened_at`
clears it. -/
def ClearedBetween (i : ℕ) (J : BreakerJournal) : Prop :=
  ∃ pre mid post, J = pre ++ (i, .check true) :: (mid ++ (i, .subtract) :: post) ∧
    lastOpened mid = some none

/-- No `is_open` finds `opened_at` cleared since its first read. -/
def NeverCleared (J : BreakerJournal) : Prop := ∀ i, ¬ ClearedBetween i J

/-- The pool of the threads of a breaker. -/
abbrev BreakerPool := Pool CircuitBreaker BreakerThread BreakerAccess

/-- What may happen to it. -/
abbrev BreakerPool.next : BreakerPool → Pool.Event BreakerCall ℚ → Option BreakerPool :=
  Pool.next BreakerThread.enter fun _ => BreakerThread.access

/-! ## The journal -/

section Journal

variable {J : BreakerJournal} {i k : ℕ} {a : BreakerAccess}

theorem lastOpened_write (t : Option ℚ) : lastOpened (J ++ [(k, .writeOpened t)]) = some t := by
  simp [lastOpened]

theorem lastOpened_of_ne (h : ∀ t, a ≠ .writeOpened t) :
    lastOpened (J ++ [(k, a)]) = lastOpened J := by
  unfold lastOpened
  rw [List.filterMap_append]
  cases a with
  | writeOpened t => exact absurd rfl (h t)
  | _ => simp

/-- Only the second read of the thread itself can disturb it. -/
theorem clearedBetween_concat : ClearedBetween i (J ++ [(k, a)]) ↔
    ClearedBetween i J ∨ ((k, a) = (i, .subtract) ∧
      ∃ pre mid, J = pre ++ (i, .check true) :: mid ∧ lastOpened mid = some none) := by
  constructor
  · rintro ⟨pre, mid, post, h, hlast⟩
    rcases List.eq_nil_or_concat post with rfl | ⟨post, e, rfl⟩
    · rw [← List.cons_append, ← List.append_assoc] at h
      obtain ⟨hJ, he⟩ := List.append_inj' h rfl
      exact .inr ⟨(List.cons.inj he).1, pre, mid, hJ, hlast⟩
    · refine .inl ⟨pre, mid, post, ?_, hlast⟩
      have h' : J ++ [(k, a)] =
          (pre ++ (i, .check true) :: (mid ++ (i, .subtract) :: post)) ++ [e] := by
        rw [h]
        simp
      exact (List.append_inj' h' rfl).1
  · rintro (⟨pre, mid, post, rfl, hlast⟩ | ⟨he, pre, mid, rfl, hlast⟩)
    · exact ⟨pre, mid, post ++ [(k, a)], by simp, hlast⟩
    · exact ⟨pre, mid, [], by rw [he]; simp, hlast⟩

theorem clearedBetween_of_ne (h : (k, a) ≠ (i, .subtract)) :
    ClearedBetween i (J ++ [(k, a)]) ↔ ClearedBetween i J := by
  rw [clearedBetween_concat]
  exact or_iff_left fun h' => h h'.1

/-- A thread that has made no access is not disturbed. -/
theorem not_clearedBetween (h : ∀ e ∈ J, e.1 ≠ i) : ¬ ClearedBetween i J := by
  rintro ⟨pre, mid, post, rfl, -⟩
  exact h (i, .check true) (by simp) rfl

end Journal

/-! ## What an access does -/

namespace BreakerPoint

/-- `is_open` is between its two reads. -/
def Between (q : BreakerPoint) : Prop := q = .readClock ∨ ∃ now, q = .subtract now

/-- The two reads of `is_open` are made, without an exception, or not part of the call. -/
def Past (q : BreakerPoint) : Prop := q ≠ .checkOpened ∧ ¬ q.Between ∧ q ≠ .raised

end BreakerPoint

namespace BreakerThread

variable {x : ℚ} {p p' : BreakerThread} {a : BreakerAccess} {b b' : CircuitBreaker}

theorem past_leave (isOpen : Bool) (p : BreakerThread) : (p.leave isOpen).point.Past := by
  unfold leave
  split <;> simp [goto, BreakerPoint.Past, BreakerPoint.Between]

/-- Only a write to `opened_at` changes it. -/
theorem openedAt_access (h : p.access x b = some (a, p', b')) :
    (∃ t, a = .writeOpened t ∧ b'.openedAt = t) ∨
      ((∀ t, a ≠ .writeOpened t) ∧ b'.openedAt = b.openedAt) := by
  unfold access at h
  split at h <;> (try split at h) <;> (try split at h) <;> simp at h <;>
    obtain ⟨rfl, rfl, rfl⟩ := h <;> simp

theorem past_goto {q : BreakerPoint} (h : q.Past) (p : BreakerThread) : (p.goto q).point.Past := h

/-- Past its two reads a thread stays there. -/
theorem past_access (hp : p.point.Past) (h : p.access x b = some (a, p', b')) :
    a ≠ .subtract ∧ p'.point.Past := by
  obtain ⟨hcheck, hbetween, hraised⟩ := hp
  unfold access at h
  split at h
  case h_1 hp => exact absurd hp hcheck
  case h_2 hp => exact absurd (.inl hp) hbetween
  case h_3 now hp => exact absurd (.inr ⟨now, hp⟩) hbetween
  case h_5 =>
    cases h
    exact ⟨by simp, past_leave _ _⟩
  all_goals
    cases h <;> refine ⟨by simp, past_goto ?_ p⟩ <;> (try split) <;>
      simp [BreakerPoint.Past, BreakerPoint.Between]

/-- **What an access does to the reads of `is_open`.** -/
theorem access_cases (h : p.access x b = some (a, p', b')) :
    (p.point = .checkOpened ∧ a = .check true ∧ p'.point = .readClock ∧ b.openedAt ≠ none) ∨
    (p.point = .readClock ∧ a = .clock ∧ p'.point = .subtract x) ∨
    ((∃ now, p.point = .subtract now) ∧ a = .subtract ∧ b.openedAt = none ∧ p'.point = .raised) ∨
    ((∃ now, p.point = .subtract now) ∧ a = .subtract ∧ b.openedAt ≠ none ∧ p'.point.Past) ∨
    (¬ p.point.Between ∧ p.point ≠ .raised ∧ a ≠ .subtract ∧ p'.point.Past) := by
  by_cases hpast : p.point.Past
  · have hstays := past_access hpast h
    exact .inr (.inr (.inr (.inr ⟨hpast.2.1, hpast.2.2, hstays.1, hstays.2⟩)))
  unfold access at h
  split at h
  case h_1 hp =>
    split at h
    case h_1 hb =>
      -- the breaker is closed: one read is enough
      cases h
      refine .inr (.inr (.inr (.inr ⟨?_, ?_, by simp, past_leave _ _⟩)))
      · simp [hp, BreakerPoint.Between]
      · simp [hp]
    case h_2 t hb =>
      cases h
      exact .inl ⟨hp, rfl, rfl, by simp [hb]⟩
  case h_2 hp =>
    cases h
    exact .inr (.inl ⟨hp, rfl, rfl⟩)
  case h_3 now hp =>
    split at h
    case h_1 hb =>
      cases h
      exact .inr (.inr (.inl ⟨⟨now, hp⟩, rfl, hb, rfl⟩))
    case h_2 t hb =>
      refine .inr (.inr (.inr (.inl ?_)))
      split at h
      · cases h
        refine ⟨⟨now, hp⟩, rfl, by simp [hb], past_goto ?_ p⟩
        simp [BreakerPoint.Past, BreakerPoint.Between]
      · cases h
        exact ⟨⟨now, hp⟩, rfl, by simp [hb], past_leave _ _⟩
  all_goals
    first
      | cases h; done
      | refine absurd ?_ hpast; simp [*, BreakerPoint.Past, BreakerPoint.Between]

end BreakerThread

/-! ## Who raises -/

/-- What the journal tells of the thread `i`. -/
structure Traced (i : ℕ) (J : BreakerJournal) (b : CircuitBreaker) (p : BreakerThread) : Prop where
  raised : p.point = .raised ↔ ClearedBetween i J
  fresh : p.point = .checkOpened → ∀ e ∈ J, e.1 ≠ i
  between : p.point.Between → ∃ pre mid, J = pre ++ (i, .check true) :: mid ∧
    (i, .check true) ∉ pre ∧ (i, .check true) ∉ mid ∧
    (b.openedAt = none ↔ lastOpened mid = some none)

namespace Traced

variable {i j : ℕ} {J : BreakerJournal} {b b' : CircuitBreaker} {p p' q : BreakerThread} {x : ℚ}
  {a : BreakerAccess}

/-- A call that begins has made no access. -/
theorem enter (h : ∀ e ∈ J, e.1 ≠ i) (call : BreakerCall) :
    Traced i J b (BreakerThread.enter call) := by
  refine ⟨iff_of_false ?_ (not_clearedBetween h), fun _ => h, ?_⟩
  · cases call <;> simp [BreakerThread.enter]
  · cases call <;> simp [BreakerThread.enter, BreakerPoint.Between]

theorem past (hp : p.point.Past) (hc : ¬ ClearedBetween i J) : Traced i J b p where
  raised := iff_of_false hp.2.2 hc
  fresh h := absurd h hp.1
  between h := absurd h hp.2.1

/-- What was written between the two reads, after one more access. -/
theorem lastOpened_access {mid : BreakerJournal} (h : b.openedAt = none ↔ lastOpened mid = some none)
    (ha : p.access x b = some (a, p', b')) (k : ℕ) :
    b'.openedAt = none ↔ lastOpened (mid ++ [(k, a)]) = some none := by
  rcases BreakerThread.openedAt_access ha with ⟨t, rfl, ht⟩ | ⟨hne, hb⟩
  · rw [ht, lastOpened_write, Option.some.injEq]
  · rw [hb, lastOpened_of_ne hne, h]

/-- An access of another thread. -/
theorem other (h : Traced j J b q) (hij : i ≠ j) (ha : p.access x b = some (a, p', b')) :
    Traced j (J ++ [(i, a)]) b' q := by
  have hne (c : BreakerAccess) : (i, a) ≠ (j, c) := fun he => hij (Prod.mk.inj he).1
  refine ⟨h.raised.trans (clearedBetween_of_ne (hne _)).symm, fun hq e he => ?_, fun hq => ?_⟩
  · rcases List.mem_append.mp he with he | he
    · exact h.fresh hq e he
    · rw [List.mem_singleton.mp he]
      exact hij
  · obtain ⟨pre, mid, rfl, hpre, hmid, hlast⟩ := h.between hq
    refine ⟨pre, mid ++ [(i, a)], by simp, hpre, ?_, lastOpened_access hlast ha i⟩
    rw [List.mem_append, List.mem_singleton, not_or]
    exact ⟨hmid, (hne _).symm⟩

/-- The second read of a thread finds `opened_at` cleared exactly when the last write since its
first read cleared it. -/
theorem openedAt_eq_none (h : Traced i J b p) (hp : p.point.Between) :
    b.openedAt = none ↔
      ∃ pre mid, J = pre ++ (i, .check true) :: mid ∧ lastOpened mid = some none := by
  obtain ⟨pre, mid, rfl, hpre, hmid, hlast⟩ := h.between hp
  rw [hlast]
  constructor
  · intro hm
    exact ⟨pre, mid, rfl, hm⟩
  · rintro ⟨pre', mid', heq, hm⟩
    obtain ⟨-, -, rfl⟩ := (List.append_cons_inj_of_notMem hpre hmid).mp heq
    exact hm

/-- An access of the thread itself. -/
theorem own (h : Traced i J b p) (ha : p.access x b = some (a, p', b')) :
    Traced i (J ++ [(i, a)]) b' p' := by
  have hnot (hp : p.point ≠ .raised) : ¬ ClearedBetween i J := fun hc => hp (h.raised.mpr hc)
  rcases BreakerThread.access_cases ha with ⟨hp, rfl, hp', hopen⟩ | ⟨hp, rfl, hp'⟩ |
    ⟨⟨now, hp⟩, rfl, hnone, hp'⟩ | ⟨⟨now, hp⟩, rfl, hsome, hp'⟩ | ⟨hp, hr, hne, hp'⟩
  · have hfresh := h.fresh hp
    have hb : b'.openedAt = b.openedAt := by
      rcases BreakerThread.openedAt_access ha with ⟨t, ht, -⟩ | ⟨-, hb⟩
      · cases ht
      · exact hb
    refine ⟨iff_of_false (by simp [hp']) ?_, fun hq => by simp [hp'] at hq, fun _ =>
      ⟨J, [], rfl, fun hm => hfresh _ hm rfl, List.not_mem_nil, ?_⟩⟩
    · rw [clearedBetween_of_ne (by simp)]
      exact hnot (by simp [hp])
    · rw [hb]
      exact iff_of_false hopen (by simp [lastOpened])
  · obtain ⟨pre, mid, rfl, hpre, hmid, hlast⟩ := h.between (.inl hp)
    refine ⟨iff_of_false (by simp [hp']) ?_, fun hq => by simp [hp'] at hq, fun _ =>
      ⟨pre, mid ++ [(i, .clock)], by simp, hpre, by simp [hmid], lastOpened_access hlast ha i⟩⟩
    rw [clearedBetween_of_ne (by simp)]
    exact hnot (by simp [hp])
  · refine ⟨iff_of_true hp' (clearedBetween_concat.mpr (.inr ⟨rfl, ?_⟩)),
      fun hq => by simp [hp'] at hq, fun hq => by simp [hp', BreakerPoint.Between] at hq⟩
    exact (h.openedAt_eq_none (.inr ⟨now, hp⟩)).mp hnone
  · refine past hp' fun hc => ?_
    rcases clearedBetween_concat.mp hc with hc | ⟨-, hc⟩
    · exact hnot (by simp [hp]) hc
    · exact hsome ((h.openedAt_eq_none (.inr ⟨now, hp⟩)).mpr hc)
  · refine past hp' fun hc => ?_
    rw [clearedBetween_of_ne (by simpa using hne)] at hc
    exact hnot hr hc

end Traced

/-- What the journal tells of the threads holds after every run. -/
theorem BreakerPool.traced {b : CircuitBreaker} {es : List (Pool.Event BreakerCall ℚ)}
    {c : BreakerPool} (h : Runs.run BreakerPool.next { shared := b } es = some c) :
    Pool.Annotated (fun _ _ => True) Traced c := by
  refine Pool.invariant (fun i J s call _ hJ => .enter hJ call) ?_ ?_
    (Pool.annotated_init trivial) h
  · intro i J s x p a p' s' _ hp ha
    exact ⟨trivial, hp.own ha⟩
  · intro i j J s x p a p' s' q hij _ _ ha hq
    exact hq.other hij ha

/-- No call of the breaker ends with an exception, and so no model stage. -/
def BreakerPool.NeverRaises (c : BreakerPool) : Prop := ∀ p ∈ c.threads, p.point ≠ .raised

/-- **No thread raises exactly in the runs in which it is never cleared between two reads**: no
`is_open` that found the breaker open has `opened_at` cleared, and not set again, before it reads
the field a second time. -/
theorem BreakerPool.neverRaises_iff (threshold : ℤ) (cooldownS : ℚ)
    {es : List (Pool.Event BreakerCall ℚ)} {c : BreakerPool}
    (h : Runs.run BreakerPool.next { shared := { threshold, cooldownS } } es = some c) :
    c.NeverRaises ↔ NeverCleared c.journal := by
  have htraced := traced h
  constructor
  · intro hnever i hc
    obtain ⟨pre, mid, post, hJ, -⟩ := id hc
    have hlt : i < c.threads.length := htraced.known (i, .subtract) (by rw [hJ]; simp)
    have hget := List.getElem?_eq_getElem hlt
    exact hnever _ (List.getElem_mem hlt) ((htraced.threads hget).raised.mpr hc)
  · intro hnever p hp hraised
    obtain ⟨i, hi⟩ := List.mem_iff_getElem?.mp hp
    exact hnever i ((htraced.threads hi).raised.mp hraised)

/-- The threads of two requests, when five failures have opened the breaker at time `0`: both find
it open, and at time `3` the second half-opens it before the first reads `opened_at` again. -/
def halfOpenRace : List (Pool.Event BreakerCall ℚ) :=
  ((List.range 4).flatMap fun i => [.start .recordFailure, .step i 0, .step i 0, .step i 0]) ++
  [.start .recordFailure, .step 4 0, .step 4 0, .step 4 0, .step 4 0, .step 4 0, .step 4 0,
    .start (.modelStage true), .start (.modelStage true),
    .step 5 3, .step 5 3, .step 6 3, .step 6 3, .step 6 3, .step 6 3, .step 5 3]

theorem halfOpenRace_run : ∃ c, Runs.run BreakerPool.next { shared := {} } halfOpenRace = some c ∧
    c.threads[5]? = some ⟨.raised, some true⟩ := by
  have hrace : (Runs.run BreakerPool.next { shared := {} } halfOpenRace).map
      (fun c => c.threads[5]?) = some (some ⟨.raised, some true⟩) := by decide +kernel
  exact Option.map_eq_some_iff.mp hrace

/-- The first of them ends with an exception. -/
theorem BreakerPool.halfOpenRace_raises :
    ¬ ∀ es c, Runs.run BreakerPool.next { shared := {} } es = some c → c.NeverRaises := by
  intro h
  obtain ⟨c, hc, hthread⟩ := halfOpenRace_run
  exact h _ c hc _ (List.mem_of_getElem? hthread) rfl

/-- That run is disturbed. -/
theorem BreakerPool.neverRaises_iff_race :
    ∃ c, Runs.run BreakerPool.next { shared := {} } halfOpenRace = some c ∧
      ¬ NeverCleared c.journal := by
  obtain ⟨c, hc, hthread⟩ := halfOpenRace_run
  refine ⟨c, hc, fun hnever => ?_⟩
  exact (neverRaises_iff 5 2 hc).mpr hnever _ (List.mem_of_getElem? hthread) rfl
