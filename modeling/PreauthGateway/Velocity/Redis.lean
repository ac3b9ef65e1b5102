import PreauthGateway.Json.Value
import PreauthGateway.Number.Double

/-!
# A Redis server

The commands on sorted sets that the velocity scripts use, as their documentation describes them. A
sorted set holds members, each with a score; a key without a set is one with the empty set. The
server has its own clock in milliseconds, and a key with a deadline loses its set no earlier than
the deadline. A command runs at one reading of the clock.

## Main definitions

* `ZSet`, `ZSet.removeUpTo`, `ZSet.add`: sorted sets
* `Redis`: a server: its commands, what it holds at a time, and what each command does
* `Redis.inMemory`: a server that keeps its sets and deadlines in a function

## Main results

* `ZSet.scores_removeUpTo`, `ZSet.scores_add`: the scores of a set
-/

/-- A sorted set: members and their scores. -/
abbrev ZSet := Finset (PyStr × Double)

namespace ZSet

/-- `ZREMRANGEBYSCORE key -inf max`. -/
def removeUpTo (max : Double) (s : ZSet) : ZSet := s.filter fun e => max < e.2

/-- `ZADD key score member`. -/
def add (score : Double) (member : PyStr) (s : ZSet) : ZSet :=
  insert (member, score) (s.filter fun e => e.1 ≠ member)

/-- The scores of the members. -/
def scores (s : ZSet) : Multiset Double := s.val.map Prod.snd

@[simp] theorem card_scores (s : ZSet) : s.scores.card = s.card := by
  simp [scores]

theorem scores_removeUpTo (max : Double) (s : ZSet) :
    (s.removeUpTo max).scores = s.scores.filter (max < ·) := by
  simp only [scores, removeUpTo, Finset.filter_val, Multiset.filter_map]
  rfl

/-- Adding a new member adds its score. -/
theorem scores_add {score : Double} {member : PyStr} {s : ZSet} (h : ∀ e ∈ s, e.1 ≠ member) :
    (s.add score member).scores = score ::ₘ s.scores := by
  have hnew : (member, score) ∉ s := fun hm => h _ hm rfl
  rw [add, Finset.filter_true_of_mem h, scores, Finset.insert_val_of_notMem hnew]
  simp [scores]

theorem mem_add {score : Double} {member : PyStr} {s : ZSet} {e : PyStr × Double} :
    e ∈ s.add score member ↔ e = (member, score) ∨ e ∈ s ∧ e.1 ≠ member := by
  simp [add]

theorem mem_removeUpTo {max : Double} {s : ZSet} {e : PyStr × Double} :
    e ∈ s.removeUpTo max ↔ e ∈ s ∧ max < e.2 := by
  simp [removeUpTo]

end ZSet

/-- A server with states `σ`. A command takes the reading of the server's clock and the key; `zset`
is what a key holds at a time, and the remaining fields say what the commands do to it. -/
structure Redis (σ : Type*) where
  zremrangebyscore : ℤ → PyStr → Double → σ → σ
  zadd : ℤ → PyStr → Double → PyStr → σ → σ
  zcard : ℤ → PyStr → σ → ℕ
  pexpire : ℤ → PyStr → ℕ → σ → σ
  zset : σ → ℤ → PyStr → ZSet
  /-- Removing by score removes, now and later. -/
  zset_zremrangebyscore : ∀ clock key max s later, clock ≤ later →
    zset (zremrangebyscore clock key max s) later key = (zset s later key).removeUpTo max
  /-- Adding a member replaces it. -/
  zset_zadd : ∀ clock key score member s,
    zset (zadd clock key score member s) clock key = (zset s clock key).add score member
  zcard_eq : ∀ clock key s, zcard clock key s = (zset s clock key).card
  /-- A set with a deadline stays, or is gone after the deadline. -/
  zset_pexpire : ∀ clock key ms s later, clock ≤ later →
    zset (pexpire clock key ms s) later key = zset s clock key ∨
      clock + ms ≤ later ∧ zset (pexpire clock key ms s) later key = ∅
  zset_zremrangebyscore_of_ne : ∀ clock key max s later k, k ≠ key →
    zset (zremrangebyscore clock key max s) later k = zset s later k
  zset_zadd_of_ne : ∀ clock key score member s later k, k ≠ key →
    zset (zadd clock key score member s) later k = zset s later k
  zset_pexpire_of_ne : ∀ clock key ms s later k, k ≠ key →
    zset (pexpire clock key ms s) later k = zset s later k

namespace Redis

/-! ## A server that keeps its sets in a function -/

/-- A set and its deadline. -/
structure Entry where
  set : ZSet := ∅
  deadline : Option ℤ := none

/-- What a key holds at a time. -/
def Entry.at (e : Entry) (clock : ℤ) : ZSet :=
  if ∀ d ∈ e.deadline, clock < d then e.set else ∅

/-- The entry a command finds at a time: an entry after its deadline is gone. -/
def Entry.live (e : Entry) (clock : ℤ) : Entry :=
  if ∀ d ∈ e.deadline, clock < d then e else {}

/-- An entry that was found is what it was, later too. -/
theorem Entry.live_at (e : Entry) {clock later : ℤ} (h : clock ≤ later) :
    (e.live clock).at later = e.at later := by
  unfold Entry.live Entry.at
  by_cases hl : ∀ d ∈ e.deadline, clock < d
  · rw [if_pos hl]
  · have hl' : ¬ ∀ d ∈ e.deadline, later < d := fun h' => hl fun d hd => h.trans_lt (h' d hd)
    rw [if_neg hl, if_neg hl']
    simp

/-- A server that keeps its sets and deadlines in a function. -/
def inMemory : Redis (PyStr → Entry) where
  zremrangebyscore clock key max s :=
    let e := (s key).live clock
    Function.update s key { e with set := e.set.removeUpTo max }
  zadd clock key score member s :=
    let e := (s key).live clock
    Function.update s key { e with set := e.set.add score member }
  zcard clock key s := ((s key).at clock).card
  pexpire clock key ms s :=
    Function.update s key { set := (s key).at clock, deadline := some (clock + ms) }
  zset s clock key := (s key).at clock
  zset_zremrangebyscore clock key max s later h := by
    rw [Function.update_self, ← Entry.live_at (s key) h]
    unfold Entry.at
    split
    · rfl
    · rfl
  zset_zadd clock key score member s := by
    rw [Function.update_self, ← Entry.live_at (s key) le_rfl]
    unfold Entry.at
    have hl : ∀ d ∈ ((s key).live clock).deadline, clock < d := by
      unfold Entry.live
      split
      · assumption
      · simp
    rw [if_pos hl, if_pos hl]
  zcard_eq _ _ _ := rfl
  zset_pexpire clock key ms s later h := by
    rw [Function.update_self]
    by_cases hl : later < clock + ms
    · exact .inl (if_pos (by simpa using hl))
    · exact .inr ⟨not_lt.mp hl, if_neg (by simpa using hl)⟩
  zset_zremrangebyscore_of_ne clock key max s later k h := by rw [Function.update_of_ne h]
  zset_zadd_of_ne clock key score member s later k h := by rw [Function.update_of_ne h]
  zset_pexpire_of_ne clock key ms s later k h := by rw [Function.update_of_ne h]

/-- A server that was just started. -/
def empty : PyStr → Entry := fun _ => {}

theorem zset_empty (clock : ℤ) (key : PyStr) : inMemory.zset empty clock key = ∅ := by
  show Entry.at {} clock = ∅
  rw [Entry.at, ite_self]

end Redis
