import PreauthGateway.Program.LostUpdate
import PreauthGateway.Velocity.CounterThreads

/-!
# The counter without a lock

`UnsafeCounter` reads the queue of a key, makes a new one and writes it back. It is there to fail: a
write of another worker between the read and the write is lost.

## Main definitions

* `UnsafeCounter`, `UnsafeCounter.incrAndCount`: the counter, and a call of it
* `UnsafeCounter.next`: workers that share a counter, the read and the write being two accesses

## Main results

* `UnsafeCounter.threads_exact_iff`: **within one window the queue never holds more timestamps than
  there were calls, and holds them all exactly when no read was overtaken by a write**
-/

/-- `self._data`: the queue of a key, empty for a key not seen before. -/
structure UnsafeCounter where
  windowMs : ℕ := 60000
  data : PyStr → List ℤ := fun _ => []

namespace UnsafeCounter

/-- `items` as they are written back. -/
def items (windowMs : ℕ) (nowMs : ℤ) (d : List ℤ) : List ℤ :=
  d.filter (fun t => nowMs - windowMs < t) ++ [nowMs]

/-- `incr_and_count`, with no other worker in between. -/
def incrAndCount (c : UnsafeCounter) (key : PyStr) (nowMs : ℤ) : ℕ × UnsafeCounter :=
  let items := items c.windowMs nowMs (c.data key)
  (items.length, { c with data := Function.update c.data key items })

/-- A worker makes its calls one after the other; the counter is the queues of the keys. -/
abbrev Worker := LostUpdate.Thread PyStr ℤ (List ℤ)

/-- Workers that share a counter. -/
abbrev Workers := Pool (PyStr → List ℤ) Worker (LostUpdate.Access PyStr (List ℤ))

/-- The workers after an event: a worker starts with its calls, or reads or writes a queue. -/
abbrev next (windowMs : ℕ) : Workers → Pool.Event (List (PyStr × ℤ)) Unit → Option Workers :=
  LostUpdate.next (items windowMs)

/-- A read and a write with no other worker in between are `incr_and_count`. -/
theorem alone_eq (c : UnsafeCounter) (key : PyStr) (nowMs : ℤ) :
    Pool.alone (LostUpdate.atomic (items c.windowMs) 0 ()) 2 (LostUpdate.enter _ [(key, nowMs)])
      c.data = ({ call := [(key, nowMs)], rest := [] }, (c.incrAndCount key nowMs).2.data) := rfl

/-- The calls of the workers of a run. -/
def started (es : List (Pool.Event (List (PyStr × ℤ)) Unit)) : List (PyStr × ℤ) :=
  (Pool.starts es).flatten

/-- **Within one window the queue of a key never holds more timestamps than there were calls, and it
holds them all exactly when every write was made on a queue that no other worker had written since
it was read.** -/
theorem threads_exact_iff {W : ℕ} {key : PyStr} {es : List (Pool.Event (List (PyStr × ℤ)) Unit)}
    {c : Workers} (h : Runs.run (next W) { shared := fun _ => [] } es = some c)
    (hended : ∀ p ∈ c.threads, p.rest = [])
    (hone : ∀ t u, (key, t) ∈ started es → (key, u) ∈ started es → u - W < t) :
    (c.shared key).length ≤ LostUpdate.asked key c ∧
      ((c.shared key).length = LostUpdate.asked key c ↔ LostUpdate.Undisturbed key c.journal) := by
  have hgrow : ∀ (nowMs : ℤ) (d : List ℤ), (∀ t ∈ d, (key, t) ∈ started es) →
      (key, nowMs) ∈ started es →
        (∀ t ∈ items W nowMs d, (key, t) ∈ started es) ∧ (items W nowMs d).length = d.length + 1 := by
    intro nowMs d hd hnow
    have hkeep : d.filter (fun t => nowMs - W < t) = d :=
      List.filter_eq_self.mpr fun t ht => decide_eq_true (hone t nowMs (hd t ht) hnow)
    rw [items, hkeep]
    refine ⟨fun t ht => ?_, by rw [List.length_append, List.length_singleton]⟩
    rcases List.mem_append.mp ht with ht | ht
    · exact hd t ht
    · rw [List.mem_singleton.mp ht]
      exact hnow
  have hfits : ∀ calls, Pool.Event.start calls ∈ es → ∀ t, (key, t) ∈ calls →
      (key, t) ∈ started es := fun calls hc t ht =>
    List.mem_flatten.mpr ⟨calls, Pool.mem_starts.mpr hc, ht⟩
  have hle := LostUpdate.size_le_asked hgrow (fun t ht => by cases ht) hfits h
  have hiff := LostUpdate.size_eq_asked_iff hgrow (fun t ht => by cases ht) hfits h hended
  rw [List.length_nil, Nat.zero_add] at hle hiff
  exact ⟨hle, hiff⟩

/-- Two workers that both read before either writes. -/
def twoReaders : List (Pool.Event (List (PyStr × ℤ)) Unit) :=
  [.start [([], 1000)], .start [([], 1001)], .step 0 (), .step 1 (), .step 1 (), .step 0 ()]

theorem threads_exact_iff_two : ∃ c : Workers,
    Runs.run (next 60000) { shared := fun _ => [] } twoReaders = some c ∧
    LostUpdate.asked [] c = 2 ∧ (c.shared []).length ≤ LostUpdate.asked [] c ∧
      ((c.shared []).length = LostUpdate.asked [] c ↔ LostUpdate.Undisturbed [] c.journal) := by
  refine ⟨_, rfl, rfl, threads_exact_iff
    (show Runs.run (next 60000) { shared := fun _ => [] } twoReaders = _ from rfl) ?_ ?_⟩
  · simp
  · intro t u ht hu
    simp only [started, twoReaders, Pool.starts, List.flatten_cons, List.flatten_nil,
      List.append_nil, List.mem_append, List.mem_singleton, Prod.mk.injEq, true_and] at ht hu
    omega

end UnsafeCounter
