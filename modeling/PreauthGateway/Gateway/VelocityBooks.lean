import PreauthGateway.Gateway.VelocityPolicy

/-!
# The books of the velocity gate

A `VelocityGate` over the counter of its process is asked for decisions while the store goes down
and comes back. Every decision is entered in one of three books, and those made blind are marked.
The counter misses the calls made while it was down, so its window holds only the calls seen; the
bound on the approvals seen needs no more.

## Main definitions

* `GateCall`, `VelocityGate.step`: a call, and whether the store is up for it
* `recorded`: the calls of the counter that it answered
* `SeenApproval`: an approval with its velocity seen, of a key and in a window

## Main results

* `VelocityGate.step_up`, `VelocityGate.step_down`: what a call does
* `VelocityGate.count_after`: what the counter answers after a run with outages
* `VelocityGate.books_balance`: **the books balance through any outage**
-/

/-- A call of `VelocityGate.decide`, and whether the store is up for it. -/
structure GateCall where
  up : Bool
  circumstances : GateCircumstances
  key : PyStr
  amountMinor : ℤ
  nowMs : ℤ

/-- The calls of the counter that it answers in a run. -/
def recorded (ks : List GateCall) : List CounterOp :=
  (ks.filter GateCall.up).map fun k => .incrAndCount k.key k.nowMs

/-- The timestamps of each key do not decrease. -/
def OrderedPerKey (ks : List GateCall) : Prop :=
  ∀ key, ((ks.filter fun k => k.key = key).map GateCall.nowMs).Pairwise (· ≤ ·)

/-- An approval of the key with its velocity seen, at a time in `(T, T + W]`. -/
def SeenApproval (W : ℕ) (key : PyStr) (T : ℚ) (p : GateCall × GateDecision) : Prop :=
  p.1.key = key ∧ T < p.1.nowMs ∧ p.1.nowMs ≤ T + W ∧ p.2.approved = true ∧ p.2.velocitySeen = true

instance (W : ℕ) (key : PyStr) (T : ℚ) (p : GateCall × GateDecision) :
    Decidable (SeenApproval W key T p) :=
  inferInstanceAs (Decidable (_ ∧ _))

section Recorded

theorem recorded_append (ks ks' : List GateCall) :
    recorded (ks ++ ks') = recorded ks ++ recorded ks' := by
  simp [recorded]

/-- The timestamps recorded under a key. -/
theorem events_recorded (key : PyStr) (ks : List GateCall) :
    events key (recorded ks) =
      (ks.filter fun k => k.up = true ∧ k.key = key).map GateCall.nowMs := by
  induction ks with
  | nil => rfl
  | cons k ks ih =>
    rw [← List.singleton_append, recorded_append, events_append, ih, List.filter_append,
      List.map_append]
    congr 1
    by_cases hup : k.up = true <;> by_cases hkey : k.key = key <;>
      simp [recorded, events, hup, hkey]

theorem stamps_recorded (key : PyStr) (ks : List GateCall) :
    stamps key (recorded ks) =
      (ks.filter fun k => k.up = true ∧ k.key = key).map GateCall.nowMs := by
  induction ks with
  | nil => rfl
  | cons k ks ih =>
    rw [← List.singleton_append, recorded_append, stamps_append, ih, List.filter_append,
      List.map_append]
    congr 1
    by_cases hup : k.up = true <;> by_cases hkey : k.key = key <;>
      simp [recorded, stamps, CounterOp.key, CounterOp.nowMs, hup, hkey]

theorem OrderedPerKey.of_append {ks ks' : List GateCall} (h : OrderedPerKey (ks ++ ks')) :
    OrderedPerKey ks := by
  intro key
  refine (h key).sublist ?_
  rw [List.filter_append, List.map_append]
  exact List.sublist_append_left _ _

/-- The calls recorded before a call of the same key come no later than it. -/
theorem OrderedPerKey.stamps {ks : List GateCall} {k : GateCall} (h : OrderedPerKey (ks ++ [k])) :
    (stamps k.key (recorded ks) ++ [k.nowMs]).Pairwise (· ≤ ·) := by
  refine (h k.key).sublist ?_
  rw [List.filter_append, List.map_append, stamps_recorded]
  refine List.Sublist.append (List.Sublist.map _ ?_) (by simp)
  refine List.monotone_filter_right _ fun j hj => ?_
  simp only [decide_eq_true_eq] at hj ⊢
  exact hj.2

end Recorded

namespace VelocityGate

/-- The store goes up or down. -/
def setAvailable (up : Bool) (v : VelocityGate SafeCounter) : VelocityGate SafeCounter :=
  { v with counter := { v.counter with available := up } }

/-- A gate answers a call. -/
def step (v : VelocityGate SafeCounter) (k : GateCall) : GateDecision × VelocityGate SafeCounter :=
  (v.setAvailable k.up).decide k.circumstances k.key k.amountMinor k.nowMs

/-! ## One call -/

section Step

variable {v : VelocityGate SafeCounter} {k : GateCall}

/-- The count a call sees, if the store is up. -/
def countFor (v : VelocityGate SafeCounter) (k : GateCall) : ℕ :=
  (v.counter.popExpired k.key k.nowMs).length + 1

/-- **A call with the store up**: one more seen, approved up to the threshold. -/
theorem step_up (h : k.up = true) :
    ((v.step k).1.approved = true ↔ (v.countFor k : ℤ) ≤ v.threshold) ∧
      (v.step k).1.velocitySeen = true ∧
      (v.step k).2.seen = v.seen + 1 ∧
      (v.step k).2.blindApprovals = v.blindApprovals ∧
      (v.step k).2.blindDeclines = v.blindDeclines := by
  have hread : (v.setAvailable true).read k.circumstances k.key k.nowMs =
      (⟨some (v.countFor k), true, k.circumstances.elapsedMs,
          v.budgetMs < k.circumstances.elapsedMs, ""⟩,
        { v.setAvailable true with
          counter := ((v.setAvailable true).counter.incrAndCount k.key k.nowMs).2 }) := by
    unfold countFor
    rw [← List.length_singleton (a := k.nowMs), ← List.length_append]
    rfl
  unfold step decide countBreach
  rw [h, hread]
  -- the late calls are counted on the side
  by_cases hlate : v.budgetMs < k.circumstances.elapsedMs <;>
    by_cases hlt : v.threshold < (v.countFor k : ℤ) <;> simp [hlate, hlt, setAvailable] <;> omega

/-- **A call with the store down**: approved up to the ceiling, and marked. -/
theorem step_down (h : k.up = false) :
    ((v.step k).1.approved = true ↔ k.amountMinor ≤ v.ceiling) ∧
      (v.step k).1.velocitySeen = false ∧ (v.step k).1.velocityCount = none ∧
      (v.step k).2.seen = v.seen ∧
      (v.step k).2.blindApprovals =
        v.blindApprovals + (if k.amountMinor ≤ v.ceiling then 1 else 0) ∧
      (v.step k).2.blindDeclines =
        v.blindDeclines + (if k.amountMinor ≤ v.ceiling then 0 else 1) := by
  have hread : (v.setAvailable false).read k.circumstances k.key k.nowMs =
      (⟨none, false, k.circumstances.elapsedMs, v.budgetMs < k.circumstances.elapsedMs,
          k.circumstances.error⟩, v.setAvailable false) := rfl
  unfold step decide countBreach
  rw [h, hread]
  by_cases hlate : v.budgetMs < k.circumstances.elapsedMs <;>
    by_cases hle : k.amountMinor ≤ v.ceiling <;> simp [hlate, hle, setAvailable]

/-- The counter after a call. -/
theorem counter_step (v : VelocityGate SafeCounter) (k : GateCall) : (v.step k).2.counter =
    (SafeCounter.incrAndCount { v.counter with available := k.up } k.key k.nowMs).2 := by
  have hread : ((v.setAvailable k.up).read k.circumstances k.key k.nowMs).2.counter =
      (SafeCounter.incrAndCount { v.counter with available := k.up } k.key k.nowMs).2 := by
    unfold read
    dsimp only
    split <;> rfl
  rw [← hread]
  unfold step decide countBreach
  dsimp only
  repeat' split
  all_goals rfl

/-- A call leaves the settings alone. -/
theorem settings_step (v : VelocityGate SafeCounter) (k : GateCall) :
    (v.step k).2.threshold = v.threshold ∧ (v.step k).2.ceiling = v.ceiling := by
  have hread : ((v.setAvailable k.up).read k.circumstances k.key k.nowMs).2.threshold = v.threshold ∧
      ((v.setAvailable k.up).read k.circumstances k.key k.nowMs).2.ceiling = v.ceiling := by
    unfold read
    dsimp only
    split <;> exact ⟨rfl, rfl⟩
  rw [← hread.1, ← hread.2]
  unfold step decide countBreach
  dsimp only
  repeat' split
  all_goals exact ⟨rfl, rfl⟩

end Step

/-! ## Runs -/

section Runs

variable (v : VelocityGate SafeCounter)

theorem settings_after (ks : List GateCall) : (Machine.after step v ks).threshold = v.threshold ∧
    (Machine.after step v ks).ceiling = v.ceiling := by
  induction ks generalizing v with
  | nil => exact ⟨rfl, rfl⟩
  | cons k ks ih =>
    obtain ⟨h₁, h₂⟩ := ih (v.step k).2
    exact ⟨h₁.trans (settings_step v k).1, h₂.trans (settings_step v k).2⟩

/-- The counter of a gate holds what it holds after the calls it answered. -/
theorem counter_after (ks : List GateCall) {c : SafeCounter} (hup : c.available = true)
    (hW : c.windowMs = v.counter.windowMs) (hdata : c.data = v.counter.data) :
    (Machine.after step v ks).counter.windowMs = c.windowMs ∧
      (Machine.after step v ks).counter.data =
        (Machine.after SafeCounter.step c (recorded ks)).data := by
  induction ks generalizing v c with
  | nil => exact ⟨hW.symm, hdata.symm⟩
  | cons k ks ih =>
    rw [Machine.after_cons, ← List.singleton_append (l := ks), recorded_append, Machine.after_append]
    cases hk : k.up with
    | false =>
      have hcounter := counter_step v k
      rw [hk] at hcounter
      have hrec : recorded [k] = [] := by simp [recorded, hk]
      rw [hrec]
      refine ih (v.step k).2 hup ?_ ?_
      · rw [hcounter]
        exact hW
      · rw [hcounter]
        exact hdata
    | true =>
      have hcounter := counter_step v k
      have hc : ({ v.counter with available := k.up } : SafeCounter) = c := by
        obtain ⟨W, data, available⟩ := c
        cases hup
        cases hW
        cases hdata
        rw [hk]
      rw [hc] at hcounter
      have hrec : recorded [k] = [.incrAndCount k.key k.nowMs] := by simp [recorded, hk]
      rw [hrec]
      obtain ⟨hW', hdata'⟩ := ih (v.step k).2
        (c := (c.incrAndCount k.key k.nowMs).2) (by rw [SafeCounter.available_incrAndCount, hup])
        (by rw [hcounter]) (by rw [hcounter])
      exact ⟨hW'.trans SafeCounter.windowMs_incrAndCount, hdata'⟩

/-- **What the counter answers after a run with outages**: the calls it answered in the window, and
the call itself. -/
theorem count_after {W : ℕ} (hW : 0 < W) {v : VelocityGate SafeCounter}
    (hv : v.counter = { windowMs := W }) {ks : List GateCall} {k : GateCall}
    (hord : OrderedPerKey (ks ++ [k])) :
    (Machine.after step v ks).countFor k =
      ks.countP (fun j => j.up ∧ j.key = k.key ∧ k.nowMs - W < j.nowMs) + 1 := by
  obtain ⟨hwindow, hdata⟩ := counter_after v ks (c := { windowMs := W }) rfl (by rw [hv]) (by rw [hv])
  have hpop : (Machine.after step v ks).counter.popExpired k.key k.nowMs =
      (Machine.after SafeCounter.step { windowMs := W } (recorded ks)).popExpired k.key k.nowMs := by
    unfold SafeCounter.popExpired
    rw [hwindow, hdata, SafeCounter.windowMs_after]
  rw [countFor, hpop, SafeCounter.popExpired_after hW hord.stamps, events_recorded,
    ← List.countP_eq_length_filter, List.countP_map, List.countP_filter]
  congr 1
  refine List.countP_congr fun j _ => ?_
  simp only [Function.comp_apply, Bool.and_eq_true, decide_eq_true_eq]
  tauto

/-- Every call is entered in one book, and the blind approvals in theirs. -/
theorem books_after (ks : List GateCall) :
    (Machine.after step v ks).seen + (Machine.after step v ks).blindApprovals +
        (Machine.after step v ks).blindDeclines =
      v.seen + v.blindApprovals + v.blindDeclines + ks.length ∧
    (Machine.after step v ks).blindApprovals = v.blindApprovals +
      (ks.zip (Machine.replies step v ks)).countP
        fun p => p.2.approved = true ∧ p.2.velocitySeen = false := by
  induction ks generalizing v with
  | nil => exact ⟨rfl, rfl⟩
  | cons k ks ih =>
    obtain ⟨htotal, happroved⟩ := ih (v.step k).2
    rw [Machine.after_cons, Machine.replies_cons, List.zip_cons_cons, List.countP_cons,
      List.length_cons, htotal, happroved]
    cases hk : k.up with
    | false =>
      obtain ⟨hiff, hseen, -, h₁, h₂, h₃⟩ := step_down (v := v) hk
      rw [h₁, h₂, h₃]
      by_cases hle : k.amountMinor ≤ v.ceiling
      · simp only [hseen, hiff.mpr hle, hle, if_true, and_self, decide_true]
        omega
      · have hnot : ¬ (v.step k).1.approved = true := fun h => hle (hiff.mp h)
        simp only [hnot, hle, if_false, false_and, decide_false, Bool.false_eq_true]
        omega
    | true =>
      obtain ⟨-, hseen, h₁, h₂, h₃⟩ := step_up (v := v) hk
      rw [h₁, h₂, h₃]
      simp only [hseen, Bool.true_eq_false, and_false, decide_false, Bool.false_eq_true, if_false]
      omega

/-- A decision says whether the store was up. -/
theorem velocitySeen_step (k : GateCall) : (v.step k).1.velocitySeen = k.up := by
  cases hk : k.up with
  | false => exact (step_down hk).2.1
  | true => exact (step_up hk).2.1

/-- A decision made blind is marked, and follows the ceiling. -/
theorem blind_of_mem {ks : List GateCall} {p : GateCall × GateDecision}
    (hp : p ∈ ks.zip (Machine.replies step v ks)) (hblind : p.2.velocitySeen = false) :
    p.2.velocityCount = none ∧ (p.2.approved = true ↔ p.1.amountMinor ≤ v.ceiling) := by
  obtain ⟨pre, hpre⟩ := Machine.exists_of_mem_zip_replies step hp
  rw [← hpre, velocitySeen_step] at hblind
  obtain ⟨hiff, -, hcount, -⟩ := step_down (v := Machine.after step v pre) hblind
  rw [hpre] at hiff hcount
  rw [(settings_after v pre).2] at hiff
  exact ⟨hcount, hiff⟩

/-- **At most the threshold of approvals with their velocity seen, in every window.** -/
theorem countP_seenApproval_le {W : ℕ} {v : VelocityGate SafeCounter}
    (hv : v.counter = { windowMs := W }) (hthreshold : 0 ≤ v.threshold) {ks : List GateCall}
    (hord : OrderedPerKey ks) (key : PyStr) (T : ℚ) :
    ((ks.zip (Machine.replies step v ks)).countP (SeenApproval W key T) : ℤ) ≤ v.threshold := by
  induction ks using List.reverseRecOn with
  | nil => simpa using hthreshold
  | append_singleton ks k ih =>
    have hlen : ks.length = (Machine.replies step v ks).length := (Machine.length_replies _ _ _).symm
    rw [Machine.replies_append, List.zip_append hlen, List.countP_append]
    by_cases hp : SeenApproval W key T (k, ((Machine.after step v ks).step k).1)
    swap
    · have hz : List.countP (fun p => SeenApproval W key T p)
          ([k].zip (Machine.replies step (Machine.after step v ks) [k])) = 0 := by
        simp [hp]
      rw [hz]
      exact ih hord.of_append
    -- the last approval sees every earlier one of its window, for the counter answered them
    obtain ⟨hkey, hlo, hhi, happroved, hseen⟩ := hp
    dsimp only at hkey hlo hhi happroved hseen
    rw [velocitySeen_step] at hseen
    have hW : 0 < W := by
      rcases Nat.eq_zero_or_pos W with rfl | h
      · push_cast at hhi
        linarith
      · exact h
    have hcount := (step_up hseen).1.mp happroved
    rw [count_after hW hv hord, (settings_after v ks).1] at hcount
    have hle : (ks.zip (Machine.replies step v ks)).countP (SeenApproval W key T) ≤
        ks.countP fun j => j.up ∧ j.key = k.key ∧ k.nowMs - W < j.nowMs := by
      refine Machine.countP_zip_replies_le step fun p hmem hp => ?_
      simp only [decide_eq_true_eq] at hp ⊢
      obtain ⟨hkey', hlo', -, -, hseen'⟩ := hp
      obtain ⟨pre, hpre⟩ := Machine.exists_of_mem_zip_replies step hmem
      rw [← hpre, velocitySeen_step] at hseen'
      refine ⟨hseen', hkey'.trans hkey.symm, ?_⟩
      have : (k.nowMs : ℚ) - W < p.1.nowMs := by linarith
      exact_mod_cast this
    have hone : List.countP (fun p => SeenApproval W key T p)
        ([k].zip (Machine.replies step (Machine.after step v ks) [k])) ≤ 1 :=
      List.countP_le_length
    push_cast at hcount ⊢
    omega

end Runs

/-- **The books balance through any outage.** In every run over a counter whose availability is set
before each call, with timestamps that do not decrease within a key, every call gets a decision and
is entered in one book; the approvals without a velocity seen are those of their book, and every
blind decision is marked and follows the ceiling; and of each key no window holds more approvals
with the velocity seen than the threshold. -/
theorem books_balance (W : ℕ) (budgetMs : ℚ) (ceiling threshold : ℤ) (hthreshold : 0 ≤ threshold)
    (ks : List GateCall) (hord : OrderedPerKey ks) :
    let v : VelocityGate SafeCounter :=
      { counter := { windowMs := W }, budgetMs, ceiling, threshold }
    let v' := Machine.after step v ks
    let decisions := ks.zip (Machine.replies step v ks)
    decisions.length = ks.length ∧
      v'.seen + v'.blindApprovals + v'.blindDeclines = ks.length ∧
      (decisions.countP fun p => p.2.approved = true ∧ p.2.velocitySeen = false) =
        v'.blindApprovals ∧
      (∀ p ∈ decisions, p.2.velocitySeen = false →
        p.2.velocityCount = none ∧ (p.2.approved = true → p.1.amountMinor ≤ ceiling) ∧
          (ceiling < p.1.amountMinor → p.2.approved = false)) ∧
      ∀ key T, (decisions.countP (SeenApproval W key T) : ℤ) ≤ threshold := by
  intro v v' decisions
  obtain ⟨htotal, happroved⟩ := books_after v ks
  refine ⟨?_, ?_, ?_, ?_, fun key T => countP_seenApproval_le rfl hthreshold hord key T⟩
  · rw [List.length_zip, Machine.length_replies, min_self]
  · rw [htotal]
    exact Nat.zero_add _
  · rw [happroved]
    exact (Nat.zero_add _).symm
  · intro p hp hblind
    obtain ⟨hcount, hiff⟩ := blind_of_mem v hp hblind
    refine ⟨hcount, hiff.mp, fun hlt => ?_⟩
    by_contra happ
    exact absurd (hiff.mp (Bool.not_eq_false _ ▸ happ)) (not_le.mpr hlt)

/-- Three calls of one key, the second while the store is down. -/
theorem books_balance_outage :
    let v : VelocityGate SafeCounter := { counter := { windowMs := 1000 }, threshold := 1 }
    let ks : List GateCall :=
      [⟨true, ⟨1, ""⟩, [], 500, 0⟩, ⟨false, ⟨30, "Unavailable"⟩, [], 500, 10⟩,
        ⟨true, ⟨1, ""⟩, [], 500, 20⟩]
    (Machine.after step v ks).seen + (Machine.after step v ks).blindApprovals +
      (Machine.after step v ks).blindDeclines = 3 :=
  (books_balance 1000 velocityBudgetMs defaultBlindApproveCeilingMinor 1 (by decide) _ (by
    intro key
    by_cases h : ([] : PyStr) = key <;> simp [h])).2.1

end VelocityGate
