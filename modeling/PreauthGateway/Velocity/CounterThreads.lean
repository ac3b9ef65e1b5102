import PreauthGateway.Program.Mutex
import PreauthGateway.Velocity.SafeCounter

/-!
# The velocity counter under threads

The endpoints of the service run in threads that share one `SafeCounter`. A call of `incr_and_count`
reads `available` before it asks for the lock; under the lock every test, every `popleft`, the
`append` and the `len` is an access of its own. Threads take their steps in any order, and
`available` may change between any two of them.

## Main definitions

* `CounterLine`, `counterCode`: the lines of the code under the lock, and what each does
* `InOneWindow`: the timestamps of a key lie within one window
* `Answered`: a thread has returned a count
* `SafeCounter.lockOrder`: the threads that increment a key, in the order of the lock

## Main results

* `SafeCounter.threads_linearizable`: **whatever the interleaving, the calls are answered one after
  the other**, in the order of the lock
* `SafeCounter.threads_exact`: **within one window the calls are answered 1, 2, 3, … in the order of
  the lock**, so no increment is lost
-/

/-- The lines under the lock: the test of the `while`, `popleft`, `append`, and `len`. -/
inductive CounterLine
  | loop
  | popleft
  | append
  | length

namespace CounterOp

/-- The line after the loop. -/
def afterLoop : CounterOp → CounterLine
  | .incrAndCount _ _ => .append
  | .count _ _ => .length

end CounterOp

namespace SafeCounter

/-- One access of a call to the queue of its key. -/
def access (c : SafeCounter) (op : CounterOp) :
    CounterLine → SafeCounter × ((CounterOp × CounterLine) ⊕ Option ℕ)
  | .loop =>
    match c.data op.key with
    | t :: _ =>
      if t ≤ op.nowMs - c.windowMs then (c, .inl (op, .popleft)) else (c, .inl (op, op.afterLoop))
    | [] => (c, .inl (op, op.afterLoop))
  | .popleft =>
    ({ c with data := Function.update c.data op.key (c.data op.key).tail }, .inl (op, .loop))
  | .append =>
    ({ c with data := Function.update c.data op.key (c.data op.key ++ [op.nowMs]) },
      .inl (op, .length))
  | .length => (c, .inr (some (c.data op.key).length))

end SafeCounter

/-- The code of the calls; the reading is that of `available`, which `count` does not look at. -/
def counterCode : Mutex.Code Bool CounterOp (CounterOp × CounterLine) SafeCounter (Option ℕ) where
  check available op :=
    match op with
    | .incrAndCount _ _ => if available then none else some none
    | .count _ _ => none
  enter op := (op, .loop)
  body _ l c := c.access l.1 l.2

/-- Threads that share a counter. -/
abbrev CounterPool :=
  Pool (Mutex.Guarded SafeCounter) (Mutex.Phase CounterOp (CounterOp × CounterLine) (Option ℕ))
    (Mutex.Access CounterOp)

namespace SafeCounter

/-! ## One call alone -/

section Alone

variable {c : SafeCounter} {op : CounterOp}

/-- What an available counter does. -/
theorem step_eq (h : c.available = true) : c.step op =
    (some (c.popExpired op.key op.nowMs ++ events op.key [op]).length, { c with
      data := Function.update c.data op.key
        (c.popExpired op.key op.nowMs ++ events op.key [op]) }) := by
  cases op with
  | incrAndCount key nowMs =>
    rw [CounterOp.key, CounterOp.nowMs, events_incrAndCount, step, incrAndCount, if_pos h]
  | count key nowMs =>
    rw [CounterOp.key, CounterOp.nowMs, events, events, List.append_nil]
    rfl

/-- A timestamp that has left the window makes no difference. -/
theorem step_tail {t : ℤ} {d : List ℤ} (hd : c.data op.key = t :: d)
    (ht : t ≤ op.nowMs - c.windowMs) (h : c.available = true) :
    ({ c with data := Function.update c.data op.key d } : SafeCounter).step op = c.step op := by
  have hpop : ({ c with data := Function.update c.data op.key d } : SafeCounter).popExpired op.key
      op.nowMs = c.popExpired op.key op.nowMs := by
    rw [popExpired, popExpired, hd, Window.trim_cons_of_le d ht]
    exact congrArg (Window.trim _) (Function.update_self op.key d c.data)
  rw [step_eq h, step_eq (c := { c with data := Function.update c.data op.key d }) h, hpop]
  simp only [Function.update_idem]

/-- Where no timestamp leaves the window, what follows the loop does what the call does. -/
theorem ends_afterLoop (hpop : c.popExpired op.key op.nowMs = c.data op.key)
    (h : c.available = true) :
    Mutex.Ends counterCode.body (op, op.afterLoop) c (c.step op) := by
  rw [step_eq h, hpop]
  cases op with
  | incrAndCount key nowMs =>
    rw [CounterOp.key, events_incrAndCount]
    have happend : ∀ x, counterCode.body x (.incrAndCount key nowMs, .append) c =
        ({ c with data := Function.update c.data key (c.data key ++ [nowMs]) },
          .inl (.incrAndCount key nowMs, .length)) := fun _ => rfl
    refine .step happend (.last fun _ => ?_)
    simp only [counterCode, access, CounterOp.key, Function.update_self]
  | count key nowMs =>
    rw [CounterOp.key, events, events, List.append_nil, Function.update_eq_self]
    exact .last fun _ => rfl

/-- **Alone, the lines under the lock do what the call does whole.** -/
theorem ends_loop (h : c.available = true) :
    Mutex.Ends counterCode.body (op, .loop) c (c.step op) := by
  -- by induction on the queue, which each round of the loop shortens
  induction hd : c.data op.key generalizing c with
  | nil =>
    have hexit : ∀ x, counterCode.body x (op, .loop) c = (c, .inl (op, op.afterLoop)) := fun _ => by
      simp only [counterCode, access, hd]
    refine .step hexit (ends_afterLoop ?_ h)
    rw [popExpired, hd, Window.trim_nil]
  | cons t d ih =>
    by_cases ht : t ≤ op.nowMs - c.windowMs
    · have htest : ∀ x, counterCode.body x (op, .loop) c = (c, .inl (op, .popleft)) := fun _ => by
        simp only [counterCode, access, hd, ht, if_true]
      have hpop : ∀ x, counterCode.body x (op, .popleft) c =
          ({ c with data := Function.update c.data op.key d }, .inl (op, .loop)) := fun _ => by
        simp only [counterCode, access, hd, List.tail_cons]
      have hrest : Mutex.Ends counterCode.body (op, .loop) _ _ :=
        @ih { c with data := Function.update c.data op.key d } h (Function.update_self _ _ _)
      rw [step_tail hd ht h] at hrest
      exact .step htest (.step hpop hrest)
    · have hexit : ∀ x, counterCode.body x (op, .loop) c = (c, .inl (op, op.afterLoop)) := fun _ => by
        simp only [counterCode, access, hd, ht, if_false]
      refine .step hexit (ends_afterLoop ?_ h)
      rw [popExpired, hd, Window.trim_cons_of_lt d (not_le.mp ht)]

end Alone

/-! ## Every interleaving -/

/-- The lines under the lock of an available counter are its calls. -/
theorem implements : Mutex.Implements counterCode step (fun c => c.available = true)
    fun c op l c' => Mutex.Ends counterCode.body l c' (c.step op) :=
  Mutex.implements_of_ends (fun _ op hc => (available_step op).trans hc) fun _ _ hc => ends_loop hc

/-- **Whatever the interleaving, the calls are answered one after the other, in the order in which
they took the lock**; a call that found the store unavailable has changed nothing. -/
theorem threads_linearizable {c₀ : SafeCounter} (h₀ : c₀.available = true)
    {es : List (Pool.Event CounterOp Bool)} {c : CounterPool}
    (h : Runs.run (Mutex.next counterCode) { shared := { value := c₀ } } es = some c) :
    Mutex.Linearized counterCode step c₀ c :=
  Mutex.linearizable implements h₀ h

/-- Two workers on one key: the first has read `available` when the second takes the lock. -/
def twoWorkers : List (Pool.Event CounterOp Bool) :=
  [.start (.incrAndCount [] 1000), .start (.incrAndCount [] 1001), .step 0 true, .step 1 true,
    .step 1 true, .step 1 true, .step 1 true, .step 1 true, .step 1 true,
    .step 0 false, .step 0 true, .step 0 true, .step 0 true, .step 0 true]

theorem threads_linearizable_two : ∃ c : CounterPool,
    Runs.run (Mutex.next counterCode) { shared := { value := {} } } twoWorkers = some c ∧
      Mutex.taken c.journal = [(1, .incrAndCount [] 1001), (0, .incrAndCount [] 1000)] ∧
      Mutex.Linearized counterCode step {} c :=
  ⟨_, rfl, rfl, threads_linearizable rfl (show Runs.run (Mutex.next counterCode)
    { shared := { value := {} } } twoWorkers = _ from rfl)⟩

end SafeCounter

/-! ## Calls within one window -/

/-- The timestamps of the calls under a key lie within one window. -/
def InOneWindow (W : ℕ) (key : PyStr) (ops : List CounterOp) : Prop :=
  ∀ t ∈ stamps key ops, ∀ u ∈ stamps key ops, u - W < t

/-- A call of `incr_and_count` under a key. -/
def CounterOp.increments (key : PyStr) (op : CounterOp) : Bool := events key [op] ≠ []

section InOneWindow

variable {W : ℕ} {key : PyStr} {ops : List CounterOp}

theorem mem_stamps {t : ℤ} : t ∈ stamps key ops ↔ ∃ op ∈ ops, op.key = key ∧ op.nowMs = t := by
  simp only [stamps, List.mem_map, List.mem_filter, decide_eq_true_eq, and_assoc]

theorem InOneWindow.mono {ops' : List CounterOp} (h : InOneWindow W key ops)
    (hsub : ∀ op ∈ ops', op ∈ ops) : InOneWindow W key ops' := by
  have hmem : ∀ t ∈ stamps key ops', t ∈ stamps key ops := fun t ht => by
    obtain ⟨op, hop, ht⟩ := mem_stamps.mp ht
    exact mem_stamps.mpr ⟨op, hsub op hop, ht⟩
  exact fun t ht u hu => h t (hmem t ht) u (hmem u hu)

theorem CounterOp.increments_iff {op : CounterOp} :
    op.increments key = true ↔ ∃ nowMs, op = .incrAndCount key nowMs := by
  cases op with
  | incrAndCount k nowMs => simp [increments, events]
  | count k nowMs => simp [increments, events]

theorem length_events (ops : List CounterOp) :
    (events key ops).length = (ops.filter (CounterOp.increments key)).length := by
  induction ops with
  | nil => rfl
  | cons op ops ih =>
    rw [show events key (op :: ops) = events key [op] ++ events key ops from
      events_append [op] ops, List.length_append, ih]
    cases op with
    | incrAndCount k nowMs =>
      by_cases hk : k = key <;> simp [CounterOp.increments, events, hk, Nat.add_comm]
    | count k nowMs => simp [CounterOp.increments, events]

namespace SafeCounter

/-- No timestamp of the key leaves its queue. -/
theorem data_oneWindow (h : InOneWindow W key ops) :
    (Machine.after step { windowMs := W } ops).data key = events key ops := by
  induction ops using List.reverseRecOn with
  | nil => rfl
  | append_singleton ops op ih =>
    have hops := ih (h.mono fun _ => List.mem_append_left [op])
    rw [Machine.after_concat]
    by_cases hk : key = op.key
    · subst hk
      have hpop : (Machine.after step { windowMs := W } ops).popExpired op.key op.nowMs =
          events op.key ops := by
        rw [popExpired, hops, windowMs_after]
        refine Window.trim_of_lt_head fun t ht => h t ?_ op.nowMs ?_
        · rw [stamps_append]
          exact List.mem_append_left _ ((events_sublist ops).subset (List.mem_of_mem_head? ht))
        · rw [stamps_append, stamps_self]
          exact List.mem_append_right _ (List.mem_singleton_self _)
      rw [data_step_self (available_after _ ops), hpop, events_append]
    · rw [data_step_of_ne hk, hops, events_append, events_of_ne hk, List.append_nil]

/-- A call is answered with the number of those before it and itself. -/
theorem step_oneWindow {op : CounterOp} (hop : op.increments key = true)
    (h : InOneWindow W key (ops ++ [op])) :
    ((Machine.after step { windowMs := W } ops).step op).1 = some ((events key ops).length + 1) := by
  obtain ⟨nowMs, hnow⟩ := CounterOp.increments_iff.mp hop
  obtain rfl : key = op.key := by
    rw [hnow]
    rfl
  have hav := available_after { windowMs := W } ops
  have hall := data_oneWindow h
  rw [Machine.after_concat, data_step_self hav op, events_append] at hall
  rw [step_fst hav, ← List.length_append, hall, List.length_append, length_events [op],
    List.filter_cons_of_pos hop]
  rfl

end SafeCounter

end InOneWindow

/-! ## What the threads are answered -/

/-- A thread has returned the count `k` of a key. -/
def Answered (c : CounterPool) (key : PyStr) (i k : ℕ) : Prop :=
  ∃ nowMs, c.threads[i]? = some (.done (.incrAndCount key nowMs) (some k))

/-- The calls of the threads that have ended. -/
def callsOf (c : CounterPool) : List CounterOp :=
  c.threads.filterMap fun p =>
    match p with
    | .done op _ => some op
    | _ => none

/-- What passes a filter at a place stands after as many that pass it. -/
theorem exists_split_of_getElem?_filter {α : Type*} {p : α → Bool} {l : List α} {k : ℕ} {e : α}
    (h : (l.filter p)[k]? = some e) :
    ∃ pre post, l = pre ++ e :: post ∧ (pre.filter p).length = k ∧ p e = true := by
  induction l generalizing k with
  | nil => cases h
  | cons a l ih =>
    by_cases ha : p a = true
    · rw [List.filter_cons_of_pos ha] at h
      cases k with
      | zero =>
        cases h
        exact ⟨[], l, rfl, rfl, ha⟩
      | succ k =>
        obtain ⟨pre, post, rfl, hk, he⟩ := ih h
        exact ⟨a :: pre, post, rfl, by rw [List.filter_cons_of_pos ha, List.length_cons, hk], he⟩
    · rw [List.filter_cons_of_neg ha] at h
      obtain ⟨pre, post, rfl, hk, he⟩ := ih h
      exact ⟨a :: pre, post, rfl, by rw [List.filter_cons_of_neg ha, hk], he⟩

namespace SafeCounter

/-- The calls under a key that took the lock, in order. -/
def admitted (c : CounterPool) (key : PyStr) : List (ℕ × CounterOp) :=
  (Mutex.taken c.journal).filter fun e => e.2.increments key

/-- The threads that increment a key, in the order in which they took the lock. -/
def lockOrder (c : CounterPool) (key : PyStr) : List ℕ := (admitted c key).map Prod.fst

/-- **Within one window no increment is lost, whatever the interleaving**: when all threads have
ended, those that were answered a count under the key are the threads that took the lock to
increment it, they were answered 1, 2, 3, … in the order of the lock, and the queue of the key has
as many timestamps. -/
theorem threads_exact {W : ℕ} {key : PyStr} {es : List (Pool.Event CounterOp Bool)} {c : CounterPool}
    (h : Runs.run (Mutex.next counterCode) { shared := { value := { windowMs := W } } } es = some c)
    (hended : ∀ p ∈ c.threads, ∃ op r, p = .done op r) (hone : InOneWindow W key (callsOf c)) :
    (lockOrder c key).Nodup ∧ (∀ i, i ∈ lockOrder c key ↔ ∃ k, Answered c key i k) ∧
      (∀ k i, (lockOrder c key)[k]? = some i → Answered c key i (k + 1)) ∧
      (c.shared.value.data key).length = (lockOrder c key).length := by
  have hlin : Mutex.Linearized counterCode step { windowMs := W } c :=
    Mutex.linearizable implements rfl h
  have hplace : ∀ pre e post, Mutex.taken c.journal = pre ++ e :: post →
      c.threads[e.1]? = some (.done e.2
        (step (Mutex.settled step { windowMs := W } pre) e.2).1) := by
    intro pre e post ht
    have hlt : e.1 < c.threads.length :=
      hlin.known e (by rw [ht]; exact List.mem_append_right _ List.mem_cons_self)
    obtain ⟨op, r, hp⟩ := hended _ (List.getElem_mem hlt)
    have hp : c.threads[e.1]? = some (.done op r) := by rw [List.getElem?_eq_getElem hlt, hp]
    obtain ⟨rfl, rfl⟩ := hlin.place ht hp
    exact hp
  have hsub : ∀ op ∈ (Mutex.taken c.journal).map Prod.snd, op ∈ callsOf c := by
    intro op hop
    obtain ⟨e, he, rfl⟩ := List.mem_map.mp hop
    obtain ⟨pre, post, ht⟩ := List.append_of_mem he
    exact List.mem_filterMap.mpr ⟨_, List.mem_of_getElem? (hplace pre e post ht), rfl⟩
  have hwin := hone.mono hsub
  have hat : ∀ k e, (admitted c key)[k]? = some e → Answered c key e.1 (k + 1) := by
    intro k e he
    obtain ⟨pre, post, ht, hk, hincr⟩ := exists_split_of_getElem?_filter he
    have hp := hplace pre e post ht
    have hwin : InOneWindow W key (pre.map Prod.snd ++ [e.2]) := by
      refine hwin.mono fun op hop => ?_
      rw [ht, List.map_append, List.map_cons, ← List.singleton_append, ← List.append_assoc]
      exact List.mem_append_left _ hop
    obtain ⟨nowMs, he₂⟩ := CounterOp.increments_iff.mp hincr
    rw [Mutex.settled, step_oneWindow hincr hwin, length_events, List.filter_map,
      List.length_map] at hp
    rw [← hk]
    exact ⟨nowMs, by rw [← he₂]; exact hp⟩
  refine ⟨?_, ?_, ?_, ?_⟩
  · exact hlin.once.sublist (List.filter_sublist.map _)
  · intro i
    constructor
    · intro hi
      obtain ⟨e, he, rfl⟩ := List.mem_map.mp hi
      obtain ⟨k, hk⟩ := List.mem_iff_getElem?.mp he
      exact ⟨k + 1, hat k e hk⟩
    · rintro ⟨k, nowMs, hp⟩
      rcases hlin.replies hp with ⟨-, x, hx⟩ | ⟨pre, post, ht, -⟩
      · simp only [counterCode] at hx
        split at hx <;> cases hx
      · refine List.mem_map.mpr ⟨(i, .incrAndCount key nowMs), List.mem_filter.mpr ⟨?_, ?_⟩, rfl⟩
        · rw [ht]
          exact List.mem_append_right _ List.mem_cons_self
        · exact CounterOp.increments_iff.mpr ⟨nowMs, rfl⟩
  · intro k i hk
    rw [lockOrder, List.getElem?_map] at hk
    obtain ⟨e, he, rfl⟩ := Option.map_eq_some_iff.mp hk
    exact hat k e he
  · rw [hlin.value (hlin.ended hended), Mutex.settled, data_oneWindow hwin, length_events,
      List.filter_map, List.length_map, lockOrder, List.length_map]
    rfl

/-- The second thread is answered 1. -/
theorem threads_exact_two : ∃ c : CounterPool,
    Runs.run (Mutex.next counterCode) { shared := { value := {} } } twoWorkers = some c ∧
      lockOrder c [] = [1, 0] ∧ (lockOrder c []).Nodup ∧
      (∀ i, i ∈ lockOrder c [] ↔ ∃ k, Answered c [] i k) ∧
      (∀ k i, (lockOrder c [])[k]? = some i → Answered c [] i (k + 1)) ∧
      (c.shared.value.data []).length = (lockOrder c []).length := by
  refine ⟨_, rfl, rfl, threads_exact (show Runs.run (Mutex.next counterCode)
    { shared := { value := { windowMs := 60000 } } } twoWorkers = _ from rfl) ?_ ?_⟩
  · simp
  · unfold InOneWindow
    decide

end SafeCounter
