import PreauthGateway.Program.Runs

/-!
# Threads that share a state

A thread is given by its program counter and its local values. Its next step is one atomic access to
the shared state; it may use the number of the thread, and an input from outside such as a reading
of the clock. The threads of a pool take their steps in any order, new ones start at any time, and
the journal lists the accesses made.

## Main definitions

* `Pool`, `Pool.Event`, `Pool.next`: a pool of threads and what may happen in it
* `Pool.alone`: a thread that takes its steps with no other in between
* `Pool.starts`: the calls that start in a run

## Main results

* `Pool.invariant`: **an invariant of the shared state with an assertion for each thread** holds
  after every run, if no step of one thread breaks the assertion of another
* `Pool.exists_restrict`: a pool in which only some calls start
-/

/-- Threads `π` over a shared state `σ`, with the accesses `α` made so far, each by the thread of a
number. -/
structure Pool (σ π α : Type*) where
  shared : σ
  threads : List π := []
  journal : List (ℕ × α) := []

namespace Pool

/-- A call starts a thread, or a thread takes its next step. -/
inductive Event (κ ι : Type*)
  | start (call : κ)
  | step (thread : ℕ) (input : ι)

/-- An event of a pool whose calls are read through `f`. -/
def Event.mapCall {κ κ' ι : Type*} (f : κ → κ') : Event κ ι → Event κ' ι
  | .start call => .start (f call)
  | .step i x => .step i x

/-- The calls that start in a run. -/
def starts {κ ι : Type*} : List (Event κ ι) → List κ
  | [] => []
  | .start call :: es => call :: starts es
  | .step _ _ :: es => starts es

variable {σ π α κ ι : Type*} (enter : κ → π) (atomic : ℕ → ι → π → σ → Option (α × π × σ))

/-- The pool after an event; a thread that has ended takes no step. -/
def next (c : Pool σ π α) : Event κ ι → Option (Pool σ π α)
  | .start call => some { c with threads := c.threads ++ [enter call] }
  | .step i x =>
    (c.threads[i]?).bind fun p =>
      (atomic i x p c.shared).map fun (a, p', s) =>
        { shared := s, threads := c.threads.set i p', journal := c.journal ++ [(i, a)] }

/-- At most `n` accesses of a thread, with no other thread in between. -/
def alone (access : π → σ → Option (α × π × σ)) : ℕ → π → σ → π × σ
  | 0, p, s => (p, s)
  | n + 1, p, s =>
    match access p s with
    | none => (p, s)
    | some (_, p, s) => alone access n p s

theorem mem_starts {call : κ} {es : List (Event κ ι)} :
    call ∈ starts es ↔ .start call ∈ es := by
  induction es with
  | nil => simp [starts]
  | cons e es ih => cases e <;> simp [starts, ih]

theorem starts_map {κ' : Type*} (f : κ → κ') (es : List (Event κ ι)) :
    starts (es.map (Event.mapCall f)) = (starts es).map f := by
  induction es with
  | nil => rfl
  | cons e es ih => cases e <;> simp [starts, Event.mapCall, ih]

variable {enter atomic}

/-- What one step of a thread does. -/
theorem next_step {c c' : Pool σ π α} {i : ℕ} {x : ι}
    (h : next enter atomic c (.step i x) = some c') :
    ∃ p a p' s, c.threads[i]? = some p ∧ atomic i x p c.shared = some (a, p', s) ∧
      c' = { shared := s, threads := c.threads.set i p', journal := c.journal ++ [(i, a)] } := by
  obtain ⟨p, hp, h⟩ := Option.bind_eq_some_iff.mp h
  obtain ⟨⟨a, p', s⟩, ha, rfl⟩ := Option.map_eq_some_iff.mp h
  exact ⟨p, a, p', s, hp, ha, rfl⟩

/-- The invariant `I` and the assertions `A` hold, and the journal names threads of the pool. -/
structure Annotated (I : List (ℕ × α) → σ → Prop) (A : ℕ → List (ℕ × α) → σ → π → Prop)
    (c : Pool σ π α) : Prop where
  shared : I c.journal c.shared
  threads : ∀ {i p}, c.threads[i]? = some p → A i c.journal c.shared p
  known : ∀ e ∈ c.journal, e.1 < c.threads.length

section Invariant

variable {I : List (ℕ × α) → σ → Prop} {A : ℕ → List (ℕ × α) → σ → π → Prop}

theorem annotated_init {s : σ} (h : I [] s) : Annotated I A { shared := s } where
  shared := h
  threads hp := by cases hp
  known e he := by cases he

/-- **The invariant and the assertions hold after every run**: a thread that starts meets its
assertion, a step keeps the invariant and takes the thread's assertion along, and it breaks no other
thread's assertion. -/
theorem invariant
    (hstart : ∀ i J s call, I J s → (∀ e ∈ J, e.1 ≠ i) → A i J s (enter call))
    (hown : ∀ i J s x p a p' s', I J s → A i J s p → atomic i x p s = some (a, p', s') →
      I (J ++ [(i, a)]) s' ∧ A i (J ++ [(i, a)]) s' p')
    (hother : ∀ i j J s x p a p' s' q, i ≠ j → I J s → A i J s p →
      atomic i x p s = some (a, p', s') → A j J s q → A j (J ++ [(i, a)]) s' q)
    {c c' : Pool σ π α} {es : List (Event κ ι)} (h0 : Annotated I A c)
    (h : Runs.run (next enter atomic) c es = some c') : Annotated I A c' := by
  refine Runs.preserved (P := Annotated I A) ?_ h0 h
  rintro c e c' ⟨hI, hA, hJ⟩ hn
  cases e with
  | start call =>
    cases hn
    refine ⟨hI, ?_, ?_⟩
    · intro i p hp
      rcases lt_or_ge i c.threads.length with hi | hi
      · rw [List.getElem?_append_left hi] at hp
        exact hA hp
      · have hlen : i = c.threads.length := by
          have := (List.getElem?_eq_some_iff.mp hp).1
          rw [List.length_append, List.length_singleton] at this
          omega
        rw [hlen, List.getElem?_concat_length] at hp
        cases hp
        exact hstart i _ _ call hI fun e he hei => by
          have := hJ e he
          omega
    · intro e he
      have := hJ e he
      dsimp only
      rw [List.length_append]
      omega
  | step i x =>
    obtain ⟨p, a, p', s, hp, ha, rfl⟩ := next_step hn
    obtain ⟨hI', hA'⟩ := hown i _ _ x p a p' s hI (hA hp) ha
    refine ⟨hI', ?_, ?_⟩
    · intro j q hq
      by_cases hij : i = j
      · subst hij
        rw [List.getElem?_set_self (List.getElem?_eq_some_iff.mp hp).1] at hq
        cases hq
        exact hA'
      · rw [List.getElem?_set_ne hij] at hq
        exact hother i j _ _ x p a p' s q hij hI (hA hp) ha (hA hq)
    · intro e he
      rw [List.length_set]
      rcases List.mem_append.mp he with he | he
      · exact hJ e he
      · rw [List.mem_singleton.mp he]
        exact (List.getElem?_eq_some_iff.mp hp).1

end Invariant

/-- A run in which only calls that meet `P` start is one of a pool for such calls. -/
theorem exists_restrict {P : κ → Prop} {es : List (Event κ ι)} (hP : ∀ call, .start call ∈ es → P call)
    (c : Pool σ π α) : ∃ es' : List (Event {call // P call} ι),
      Runs.run (next (fun call : {call // P call} => enter call.1) atomic) c es' =
        Runs.run (next enter atomic) c es := by
  induction es generalizing c with
  | nil => exact ⟨[], rfl⟩
  | cons e es ih =>
    have hes : ∀ call, .start call ∈ es → P call := fun call h => hP call (List.mem_cons_of_mem e h)
    cases hn : next enter atomic c e with
    | none =>
      cases e with
      | start call => cases hn
      | step i x =>
        refine ⟨[.step i x], ?_⟩
        rw [Runs.run_cons, Runs.run_cons, hn]
        exact congrArg (Option.bind · _) hn
    | some d =>
      obtain ⟨es', h⟩ := ih hes d
      cases e with
      | start call =>
        cases hn
        refine ⟨.start ⟨call, hP call List.mem_cons_self⟩ :: es', ?_⟩
        rw [Runs.run_cons, Runs.run_cons]
        exact h
      | step i x =>
        refine ⟨.step i x :: es', ?_⟩
        rw [Runs.run_cons, Runs.run_cons, hn]
        exact (congrArg (Option.bind · _) hn).trans h

end Pool
