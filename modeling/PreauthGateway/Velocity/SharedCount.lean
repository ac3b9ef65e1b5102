import PreauthGateway.Velocity.Instances

/-!
# Counting across gateways

Within one window nothing a key holds leaves the window, so `n` scripts should return `1` to `n`.
They do unless one of them takes the entry of another: a script whose member is the same replaces
the entry instead of adding one. Members are the same when two clients use one sequence number at
one timestamp, and every client counts from 1.

## Main definitions

* `OneWindow`: no two timestamps are a window apart

## Main results

* `Fleet.counts_exact_iff`: when the executions under a key return `1` to `n`
* `Fleet.same_member_collapses`: two gateways with one timestamp, both first calls
-/

variable {σ : Type*}

/-- No two timestamps are a window apart. -/
def OneWindow (W : ℕ) (es : List Execution) : Prop :=
  ∀ a ∈ es, ∀ b ∈ es, b.call.nowMs - a.call.nowMs < W

/-- A timestamp that a script reads exactly. -/
def SmallStamp (t : ℤ) : Prop := |t| < 2 ^ 53

instance (t : ℤ) : Decidable (SmallStamp t) := inferInstanceAs (Decidable (_ < _))

/-- Small timestamps are compared as the integers they are. -/
theorem cutoff_lt_ofInt {a b : ℤ} {W : ℕ} (ha : SmallStamp a) (hb : SmallStamp b) :
    cutoff b W < Double.ofInt a ↔ b - W < a := by
  have hcut : cutoff b W = Double.ofRat ((b - W : ℤ) : ℚ) := by
    rw [cutoff, Double.ofInt_small (le_of_lt hb), Double.sub_finite]
    push_cast
    rfl
  rw [hcut, Double.ofInt_small (le_of_lt ha), ← not_le, Double.finite_le_ofRat ha, not_le]

/-- Within one window, small timestamps spare each other unless they share a member. -/
theorem spares_iff {W : ℕ} {a b : Execution} (hw : b.call.nowMs - a.call.nowMs < W) :
    Spares W a b ↔ (a.call.nowMs, a.call.seq) ≠ (b.call.nowMs, b.call.seq) ∧
      (SmallStamp a.call.nowMs ∧ SmallStamp b.call.nowMs ∨
        cutoff b.call.nowMs W < Double.ofInt a.call.nowMs) := by
  have hmember : a.call.member ≠ b.call.member ↔
      (a.call.nowMs, a.call.seq) ≠ (b.call.nowMs, b.call.seq) := by
    rw [not_iff_not, Prod.mk.injEq]
    refine ⟨fun h => RedisVelocity.member_injective h, fun ⟨ht, hs⟩ => ?_⟩
    rw [ScriptCall.member, ScriptCall.member, ht, hs]
  rw [Spares, hmember]
  refine and_congr_right fun _ => ⟨Or.inr, ?_⟩
  rintro (⟨ha, hb⟩ | hcut)
  · exact (cutoff_lt_ofInt ha hb).mpr (by omega)
  · exact hcut

namespace Fleet

/-- **Within one window the executions under a key return `1` to `n` exactly when no two of them
have timestamp and sequence number in common**, and no rounding of a timestamp of more than 53 bits
cuts another off. -/
theorem counts_exact_iff {R : Redis σ} {v : RedisVelocity} {s : σ} {as : List Action} {F : Fleet σ}
    {key : PyStr} (h : ∀ key clock, R.zset s clock (v.storeKey key) = ∅)
    (hrun : Runs.run (step R) (start v s) as = some F) (hw : OneWindow v.windowMs (F.on key))
    (ha : Alive v.windowMs (F.on key)) :
    (∀ k (hk : k < (F.on key).length), (F.on key)[k].count = k + 1) ↔
      (F.on key).Pairwise fun a b =>
        (a.call.nowMs, a.call.seq) ≠ (b.call.nowMs, b.call.seq) ∧
          (SmallStamp a.call.nowMs ∧ SmallStamp b.call.nowMs ∨
            cutoff b.call.nowMs v.windowMs < Double.ofInt a.call.nowMs) := by
  have hcounts := (counted h hrun).counts key ha
  have hspares := List.Pairwise.iff_of_mem (l := F.on key) (R := Spares v.windowMs)
    fun {a b} hma hmb => spares_iff (hw a hma b hmb)
  rw [← hspares, ← card_keySet_iff]
  constructor
  · intro hexact k hk
    rw [← hcounts k hk]
    exact hexact k hk
  · intro hcard k hk
    rw [hcounts k hk]
    exact hcard k hk

/-- Two gateways whose first calls under a key have different timestamps. -/
theorem counts_exact_iff_two : ∃ F : Fleet (PyStr → Redis.Entry),
    Runs.run (step Redis.inMemory) (start {} Redis.empty)
      [.call 0 [] 1000, .call 1 [] 1001, .execute 1 0, .execute 0 1] = some F ∧
    (F.on []).length = 2 ∧ ∀ k (hk : k < (F.on []).length), (F.on [])[k].count = k + 1 := by
  have h : (Runs.run (step Redis.inMemory) (start {} Redis.empty)
      [.call 0 [] 1000, .call 1 [] 1001, .execute 1 0, .execute 0 1]).map (fun F => F.on []) =
        some [⟨⟨1, [], 1001, 1⟩, 0, 1⟩, ⟨⟨0, [], 1000, 1⟩, 1, 2⟩] := by decide +kernel
  obtain ⟨F, hrun, hon⟩ := Option.map_eq_some_iff.mp h
  refine ⟨F, hrun, by rw [hon]; rfl, ?_⟩
  refine (counts_exact_iff (fun key clock => Redis.zset_empty clock _) hrun ?_ ?_).mpr ?_
  · rw [hon]
    show ∀ a ∈ _, ∀ b ∈ _, _
    decide
  · rw [hon]
    simp [Alive]
  · rw [hon]
    refine List.pairwise_pair.mpr ⟨by decide, .inl ⟨by decide, by decide⟩⟩

/-- **Two gateways with one timestamp, both first calls**: the second entry replaces the first. -/
theorem same_member_collapses : ∃ F : Fleet (PyStr → Redis.Entry),
    Runs.run (step Redis.inMemory) (start {} Redis.empty)
      [.call 0 [] 1000, .call 1 [] 1000, .execute 0 0, .execute 0 1] = some F ∧
    OneWindow 60000 (F.on []) ∧ Alive 60000 (F.on []) ∧ (F.on []).map Execution.count = [1, 1] := by
  have h : (Runs.run (step Redis.inMemory) (start {} Redis.empty)
      [.call 0 [] 1000, .call 1 [] 1000, .execute 0 0, .execute 0 1]).map (fun F => F.on []) =
        some [⟨⟨0, [], 1000, 1⟩, 0, 1⟩, ⟨⟨1, [], 1000, 1⟩, 1, 1⟩] := by decide +kernel
  obtain ⟨F, hrun, hon⟩ := Option.map_eq_some_iff.mp h
  refine ⟨F, hrun, ?_, ?_, by rw [hon]; rfl⟩
  · rw [hon]
    show ∀ a ∈ _, ∀ b ∈ _, _
    decide
  · rw [hon]
    simp [Alive]

end Fleet
