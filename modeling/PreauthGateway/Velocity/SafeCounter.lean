import PreauthGateway.Json.Value
import PreauthGateway.Program.Machine
import PreauthGateway.Window.Trim

/-!
# The velocity counter of one process

`SafeCounter` keeps a queue of timestamps under each key. A call first drops the timestamps at the
front that have left the window; `incr_and_count` then adds its own, and both calls return what is
left. Every call runs under the lock of the counter, so it is one step.

## Main definitions

* `SafeCounter`, `SafeCounter.incrAndCount`, `SafeCounter.count`
* `CounterOp`, `SafeCounter.step`: the calls, and a counter as a machine that answers them
* `events`: the timestamps added under a key

## Main results

* `SafeCounter.data_step_of_ne`: a call leaves the other keys alone
* `SafeCounter.data_eq_filter`: when the timestamps of a key do not decrease, its queue holds those
  in the last window
-/

/-- `self._data`: the queue of a key, empty for a key not seen before. -/
structure SafeCounter where
  windowMs : ℕ := 60000
  data : PyStr → List ℤ := fun _ => []
  available : Bool := true

/-- A call of a velocity counter. -/
inductive CounterOp
  | incrAndCount (key : PyStr) (nowMs : ℤ)
  | count (key : PyStr) (nowMs : ℤ)
deriving DecidableEq

namespace CounterOp

def key : CounterOp → PyStr
  | incrAndCount key _ => key
  | count key _ => key

def nowMs : CounterOp → ℤ
  | incrAndCount _ nowMs => nowMs
  | count _ nowMs => nowMs

end CounterOp

namespace SafeCounter

variable (c : SafeCounter) (key : PyStr) (nowMs : ℤ)

/-- The queue of a key after `while d and d[0] <= cutoff: d.popleft()`. -/
def popExpired : List ℤ := Window.trim (nowMs - c.windowMs) (c.data key)

/-- `incr_and_count`; `none` is `SafeCounter.Unavailable`. -/
def incrAndCount : Option ℕ × SafeCounter :=
  if c.available then
    let d := c.popExpired key nowMs ++ [nowMs]
    (some d.length, { c with data := Function.update c.data key d })
  else (none, c)

/-- `count`, which does not look at `available`. -/
def count : ℕ × SafeCounter :=
  let d := c.popExpired key nowMs
  (d.length, { c with data := Function.update c.data key d })

/-- A counter answers a call. -/
def step (c : SafeCounter) : CounterOp → Option ℕ × SafeCounter
  | .incrAndCount key nowMs => c.incrAndCount key nowMs
  | .count key nowMs => ((c.count key nowMs).1, (c.count key nowMs).2)

section Step

variable {c key nowMs}

@[simp] theorem windowMs_incrAndCount :
    (c.incrAndCount key nowMs).2.windowMs = c.windowMs := by
  unfold incrAndCount
  split <;> rfl

@[simp] theorem available_incrAndCount :
    (c.incrAndCount key nowMs).2.available = c.available := by
  unfold incrAndCount
  split <;> rfl

/-- What an available counter returns. -/
theorem incrAndCount_fst (h : c.available = true) :
    (c.incrAndCount key nowMs).1 = some ((c.popExpired key nowMs).length + 1) := by
  simp [incrAndCount, h]

/-- The queue of the key after a call of an available counter. -/
theorem data_incrAndCount_self (h : c.available = true) :
    (c.incrAndCount key nowMs).2.data key = c.popExpired key nowMs ++ [nowMs] := by
  simp [incrAndCount, h]

/-- A call leaves the other keys alone. -/
theorem data_incrAndCount_of_ne {k : PyStr} (h : k ≠ key) :
    (c.incrAndCount key nowMs).2.data k = c.data k := by
  unfold incrAndCount
  split
  · exact Function.update_of_ne h _ _
  · rfl

theorem data_count_self : (c.count key nowMs).2.data key = c.popExpired key nowMs := by
  simp [count]

theorem data_count_of_ne {k : PyStr} (h : k ≠ key) :
    (c.count key nowMs).2.data k = c.data k :=
  Function.update_of_ne h _ _

end Step

end SafeCounter

/-! ## The timestamps added under a key -/

/-- The timestamps that `incr_and_count` was called with under a key, in the order of the calls. -/
def events (key : PyStr) : List CounterOp → List ℤ
  | [] => []
  | .incrAndCount k nowMs :: ops => if k = key then nowMs :: events key ops else events key ops
  | .count _ _ :: ops => events key ops

/-- The timestamps of the calls under a key, in the order of the calls. -/
def stamps (key : PyStr) (ops : List CounterOp) : List ℤ :=
  (ops.filter fun op => op.key = key).map CounterOp.nowMs

section Events

variable {key : PyStr}

theorem events_append (ops ops' : List CounterOp) :
    events key (ops ++ ops') = events key ops ++ events key ops' := by
  induction ops with
  | nil => rfl
  | cons op ops ih =>
    cases op with
    | incrAndCount k nowMs =>
      simp only [List.cons_append, events, ih]
      split <;> rfl
    | count k nowMs => exact ih

theorem events_incrAndCount (nowMs : ℤ) : events key [.incrAndCount key nowMs] = [nowMs] := by
  simp [events]

/-- The event of a call is its own timestamp. -/
theorem eq_nowMs_of_mem_events {op : CounterOp} {t : ℤ} (h : t ∈ events key [op]) :
    t = op.nowMs := by
  cases op with
  | incrAndCount k nowMs =>
    unfold events at h
    split at h
    · exact List.mem_singleton.mp h
    · cases h
  | count k nowMs => cases h

theorem events_of_ne {op : CounterOp} (h : key ≠ op.key) : events key [op] = [] := by
  cases op with
  | incrAndCount k nowMs => simp [events, show k ≠ key from h.symm]
  | count k nowMs => rfl

theorem stamps_append (ops ops' : List CounterOp) :
    stamps key (ops ++ ops') = stamps key ops ++ stamps key ops' := by
  simp [stamps]

theorem stamps_self (op : CounterOp) : stamps op.key [op] = [op.nowMs] := by
  simp [stamps]

theorem stamps_of_ne {op : CounterOp} (h : key ≠ op.key) : stamps key [op] = [] := by
  simp [stamps, h.symm]

theorem events_sublist (ops : List CounterOp) : (events key ops).Sublist (stamps key ops) := by
  induction ops with
  | nil => exact List.Sublist.refl _
  | cons op ops ih =>
    have hc : stamps key (op :: ops) = stamps key [op] ++ stamps key ops := stamps_append [op] ops
    rw [hc]
    cases op with
    | incrAndCount k nowMs =>
      by_cases hk : k = key
      · subst hk
        simpa [events, stamps, CounterOp.key, CounterOp.nowMs] using ih.cons_cons nowMs
      · simpa [events, stamps, CounterOp.key, hk] using ih
    | count k nowMs => exact ih.trans (List.sublist_append_right _ _)

end Events

theorem pairwise_events {key : PyStr} {ops : List CounterOp}
    (h : (stamps key ops).Pairwise (· ≤ ·)) : (events key ops).Pairwise (· ≤ ·) :=
  h.sublist (events_sublist ops)

namespace SafeCounter

section Step

variable {c : SafeCounter} {key : PyStr} {nowMs : ℤ}

/-- What an available counter returns. -/
theorem step_fst (h : c.available = true) (op : CounterOp) :
    (c.step op).1 = some ((c.popExpired op.key op.nowMs).length + (events op.key [op]).length) := by
  cases op with
  | incrAndCount key nowMs =>
    rw [step, incrAndCount_fst h, CounterOp.key, CounterOp.nowMs, events_incrAndCount]
    rfl
  | count key nowMs => rfl

/-- The queue of its key after a call of an available counter. -/
theorem data_step_self (h : c.available = true) (op : CounterOp) :
    (c.step op).2.data op.key = c.popExpired op.key op.nowMs ++ events op.key [op] := by
  cases op with
  | incrAndCount key nowMs =>
    rw [step, CounterOp.key, CounterOp.nowMs, events_incrAndCount]
    exact data_incrAndCount_self h
  | count key nowMs =>
    rw [step, CounterOp.key, CounterOp.nowMs, events, events, List.append_nil]
    exact data_count_self

@[simp] theorem windowMs_step (op : CounterOp) : (c.step op).2.windowMs = c.windowMs := by
  cases op with
  | incrAndCount key nowMs => exact windowMs_incrAndCount
  | count key nowMs => rfl

@[simp] theorem available_step (op : CounterOp) : (c.step op).2.available = c.available := by
  cases op with
  | incrAndCount key nowMs => exact available_incrAndCount
  | count key nowMs => rfl

/-- A call leaves the other keys alone. -/
theorem data_step_of_ne {op : CounterOp} {k : PyStr} (h : k ≠ op.key) :
    (c.step op).2.data k = c.data k := by
  cases op with
  | incrAndCount key nowMs => exact data_incrAndCount_of_ne h
  | count key nowMs => exact data_count_of_ne h

end Step

section Runs

variable (c : SafeCounter) (ops : List CounterOp)

@[simp] theorem windowMs_after : (Machine.after step c ops).windowMs = c.windowMs := by
  induction ops generalizing c with
  | nil => rfl
  | cons op ops ih => rw [Machine.after_cons, ih, windowMs_step]

@[simp] theorem available_after : (Machine.after step c ops).available = c.available := by
  induction ops generalizing c with
  | nil => rfl
  | cons op ops ih => rw [Machine.after_cons, ih, available_step]

end Runs

end SafeCounter

namespace SafeCounter

section Ordered

variable {W : ℕ} {key : PyStr} {ops : List CounterOp}

/-- A queue that holds the events after the last cutoff holds, after the next call, those after the
cutoff of that call. -/
theorem popExpired_eq_filter {c : SafeCounter} (nowMs : ℤ) (hW : c.windowMs = W)
    (hd : c.data key = (events key ops).filter fun t => ∀ u ∈ stamps key ops, u - W < t)
    (h : (stamps key ops ++ [nowMs]).Pairwise (· ≤ ·)) :
    c.popExpired key nowMs = (events key ops).filter fun t => nowMs - W < t := by
  obtain ⟨hops, -, hlast⟩ := List.pairwise_append.mp h
  have hsorted : (c.data key).Pairwise (· ≤ ·) := by
    rw [hd]
    exact (pairwise_events hops).sublist List.filter_sublist
  rw [popExpired, Window.trim_eq_filter hsorted, hd, List.filter_filter, hW]
  refine List.filter_congr fun t ht => ?_
  -- the earlier cutoffs are no later than the one of this call
  rw [Bool.eq_iff_iff, Bool.and_eq_true, decide_eq_true_eq, decide_eq_true_eq]
  constructor
  · exact fun h => h.1
  · intro hlt
    refine ⟨hlt, fun u hu => ?_⟩
    have hle : u ≤ nowMs := hlast u hu nowMs (List.mem_singleton_self _)
    omega

/-- **When the timestamps of a key do not decrease, its queue holds those after the last
cutoff.** -/
theorem data_eq_filter (hW : 0 < W) (h : (stamps key ops).Pairwise (· ≤ ·)) :
    (Machine.after step { windowMs := W } ops).data key =
      (events key ops).filter fun t => ∀ u ∈ stamps key ops, u - W < t := by
  induction ops using List.reverseRecOn with
  | nil => rfl
  | append_singleton ops op ih =>
    rw [stamps_append] at h
    have hops : (stamps key ops).Pairwise (· ≤ ·) := (List.pairwise_append.mp h).1
    rw [Machine.after_concat]
    by_cases hk : key = op.key
    · subst hk
      rw [stamps_self] at h
      have hpop := popExpired_eq_filter op.nowMs (windowMs_after _ ops) (ih hops) h
      have hle : ∀ u ∈ stamps op.key ops, u ≤ op.nowMs := fun u hu =>
        (List.pairwise_append.mp h).2.2 u hu _ (List.mem_singleton_self _)
      have hcut : ∀ t : ℤ, (∀ u ∈ stamps op.key ops ++ [op.nowMs], u - W < t) ↔
          op.nowMs - W < t := by
        intro t
        constructor
        · exact fun h => h _ (List.mem_append_right _ (List.mem_singleton_self _))
        · intro hlt u hu
          rcases List.mem_append.mp hu with hu | hu
          · have := hle u hu
            omega
          · rw [List.mem_singleton.mp hu]
            exact hlt
      rw [stamps_append, stamps_self, events_append]
      simp only [hcut]
      rw [data_step_self (available_after _ ops), hpop, List.filter_append]
      congr 1
      refine (List.filter_eq_self.mpr fun t ht => ?_).symm
      rw [eq_nowMs_of_mem_events ht]
      simpa using hW
    · rw [data_step_of_ne hk, ih hops, events_append, stamps_append, events_of_ne hk,
        stamps_of_ne hk, List.append_nil, List.append_nil]

/-- **What a call returns is the number of events after its cutoff.** -/
theorem popExpired_after (hW : 0 < W) {nowMs : ℤ}
    (h : (stamps key ops ++ [nowMs]).Pairwise (· ≤ ·)) :
    (Machine.after step { windowMs := W } ops).popExpired key nowMs =
      (events key ops).filter fun t => nowMs - W < t :=
  popExpired_eq_filter nowMs (windowMs_after _ ops)
    (data_eq_filter hW (List.pairwise_append.mp h).1) h

end Ordered

end SafeCounter
