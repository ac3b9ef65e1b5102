import PreauthGateway.Gateway.Breaker
import PreauthGateway.Program.Machine

/-!
# Runs of the breaker

Requests check the breaker, call the model, and record the outcome later. Any number of them may be
in flight, so the outcomes arrive in any order, also while the breaker is open and after it
half-opened. Here each operation is one step, in an order of the clock.

## Main definitions

* `BreakerOp`, `CircuitBreaker.perform`: an operation at a time
* `outcomes`: the outcomes recorded
* `CircuitBreaker.OpenSince`: the breaker opened at a time and was not closed since

## Main results

* `CircuitBreaker.failures_of_opened`: an open breaker has seen its threshold of failures in a row
* `CircuitBreaker.openedAt_iff`: `opened_at` is the time since which the breaker is open
* `CircuitBreaker.consecutive_failures_block`: **the breaker opens on consecutive failures only, and
  then blocks for the cooldown**
-/

/-- The operations of the breaker. -/
inductive BreakerOpKind
  | isOpen
  | recordFailure
  | recordSuccess
deriving DecidableEq

/-- An operation, and the reading of the clock it makes. -/
structure BreakerOp where
  now : ℚ
  kind : BreakerOpKind

/-- The outcomes recorded, `true` for a success. -/
def outcomes (os : List BreakerOp) : List Bool :=
  os.filterMap fun o => match o.kind with
    | .isOpen => none
    | .recordFailure => some false
    | .recordSuccess => some true

namespace CircuitBreaker

/-- One operation, with the reply of `is_open`. -/
def perform (b : CircuitBreaker) (o : BreakerOp) : Option Bool × CircuitBreaker :=
  match o.kind with
  | .isOpen => (some (b.isOpen o.now).1, (b.isOpen o.now).2)
  | .recordFailure => (none, b.recordFailure o.now)
  | .recordSuccess => (none, b.recordSuccess)

/-- After the operations `os`, the breaker is open since the time `t`: the failure recorded then
opened it, and nothing closed it since. -/
def OpenSince (b : CircuitBreaker) (os : List BreakerOp) (t : ℚ) : Prop :=
  ∃ pre post, os = pre ++ ⟨t, .recordFailure⟩ :: post ∧
    (Machine.after perform b pre).openedAt = none ∧
    ∀ mid, mid <+: post →
      (Machine.after perform b (pre ++ ⟨t, .recordFailure⟩ :: mid)).openedAt ≠ none

/-! ## One operation -/

section Perform

variable (b : CircuitBreaker) (o : BreakerOp)

theorem settings_perform : (b.perform o).2.threshold = b.threshold ∧
    (b.perform o).2.cooldownS = b.cooldownS := by
  unfold perform
  split
  · unfold isOpen
    split <;> [skip; split] <;> exact ⟨rfl, rfl⟩
  · exact settings_recordFailure o.now
  · exact ⟨rfl, rfl⟩

/-- An operation keeps `opened_at`, clears it, or is a failure that sets it. -/
theorem openedAt_perform : (b.perform o).2.openedAt = b.openedAt ∨ (b.perform o).2.openedAt = none ∨
    (b.openedAt = none ∧ o.kind = .recordFailure ∧ (b.perform o).2.openedAt = some o.now) := by
  unfold perform
  split
  · unfold isOpen
    split
    · exact .inl rfl
    · split
      · exact .inr (.inl rfl)
      · exact .inl rfl
  · rename_i hkind
    by_cases h : b.openedAt = none
    · rw [openedAt_recordFailure h]
      split
      · exact .inr (.inr ⟨h, hkind, rfl⟩)
      · exact .inr (.inl rfl)
    · left
      simp [recordFailure, h]
  · exact .inr (.inl rfl)

/-- An open breaker stays open until a success is recorded or the cooldown has passed. -/
theorem openedAt_perform_of_open {b : CircuitBreaker} {o : BreakerOp} {t : ℚ}
    (h : b.openedAt = some t) (hkind : o.kind ≠ .recordSuccess) (hnow : o.now - t ≤ b.cooldownS) :
    (b.perform o).2.openedAt = some t := by
  unfold perform
  split
  · simp [isOpen, h, not_lt.mpr hnow]
  · simp [recordFailure, h]
  · exact absurd ‹_› hkind

end Perform

/-! ## Failures in a row -/

section Outcomes

theorem replicate_suffix_concat {n : ℕ} {os : List Bool} (h : List.replicate n false <:+ os) :
    List.replicate (n + 1) false <:+ os ++ [false] := by
  obtain ⟨earlier, rfl⟩ := h
  exact ⟨earlier, by rw [List.append_assoc, List.replicate_succ']⟩

theorem replicate_suffix_mono {m n : ℕ} {os : List Bool} (hmn : m ≤ n)
    (h : List.replicate n false <:+ os) : List.replicate m false <:+ os := by
  refine List.IsSuffix.trans ?_ h
  rw [← Nat.sub_add_cancel hmn, List.replicate_add]
  exact List.suffix_append _ _

/-- The failures counted, and the threshold of an open breaker, are failures in a row. -/
structure InARow (b : CircuitBreaker) (os : List Bool) : Prop where
  counted : List.replicate b.failures false <:+ os
  opened : b.openedAt ≠ none → List.replicate b.threshold.toNat false <:+ os

/-- An operation keeps that. -/
theorem InARow.perform {b : CircuitBreaker} {os : List Bool} (h : b.InARow os) (o : BreakerOp) :
    (b.perform o).2.InARow (os ++ outcomes [o]) := by
  obtain ⟨now, kind⟩ := o
  cases kind with
  | isOpen =>
    -- half-open: the count starts again
    have hreset : InARow { b with openedAt := none, failures := 0 } os :=
      ⟨List.nil_suffix, fun hne => absurd rfl hne⟩
    simp only [outcomes, CircuitBreaker.perform, isOpen, List.filterMap_cons_none,
      List.filterMap_nil, List.append_nil]
    split
    · exact h
    · split
      · exact hreset
      · exact h
  | recordFailure =>
    have hfailures : List.replicate (b.failures + 1) false <:+ os ++ [false] :=
      replicate_suffix_concat h.counted
    simp only [outcomes, CircuitBreaker.perform, recordFailure]
    split
    · rename_i hopens
      exact ⟨hfailures, fun _ => replicate_suffix_mono (Int.toNat_le.mpr hopens.1) hfailures⟩
    · exact ⟨hfailures, fun hne =>
        replicate_suffix_mono (Nat.le_succ _) (replicate_suffix_concat (h.opened hne))⟩
  | recordSuccess => exact ⟨List.nil_suffix, fun hne => absurd rfl hne⟩

end Outcomes

/-! ## Runs -/

section Runs

variable (b : CircuitBreaker)

theorem settings_after (os : List BreakerOp) :
    (Machine.after perform b os).threshold = b.threshold ∧
      (Machine.after perform b os).cooldownS = b.cooldownS := by
  induction os using List.reverseRecOn with
  | nil => exact ⟨rfl, rfl⟩
  | append_singleton os o ih =>
    rw [Machine.after_concat]
    obtain ⟨h₁, h₂⟩ := settings_perform (Machine.after perform b os) o
    exact ⟨h₁.trans ih.1, h₂.trans ih.2⟩

/-- **An open breaker has seen its threshold of failures in a row.** -/
theorem failures_of_opened {b : CircuitBreaker} (hfailures : b.failures = 0)
    (hopened : b.openedAt = none) (os : List BreakerOp) :
    (Machine.after perform b os).InARow (outcomes os) := by
  induction os using List.reverseRecOn with
  | nil =>
    refine ⟨?_, fun hne => absurd hopened hne⟩
    rw [Machine.after_nil, hfailures]
    exact List.nil_suffix
  | append_singleton os o ih =>
    rw [Machine.after_concat, outcomes, List.filterMap_append]
    exact ih.perform o

/-- While nothing closes it, `opened_at` is the time of the failure that opened the breaker. -/
theorem openedAt_of_kept {b : CircuitBreaker} {t : ℚ} (h : b.openedAt = none) {post : List BreakerOp}
    (hkept : ∀ mid, mid <+: post →
      (Machine.after perform b (⟨t, .recordFailure⟩ :: mid)).openedAt ≠ none) :
    (Machine.after perform b (⟨t, .recordFailure⟩ :: post)).openedAt = some t := by
  induction post using List.reverseRecOn with
  | nil =>
    rcases openedAt_perform b ⟨t, .recordFailure⟩ with hk | hk | ⟨-, -, hk⟩
    · exact absurd (hk.trans h) (hkept [] List.nil_prefix)
    · exact absurd hk (hkept [] List.nil_prefix)
    · exact hk
  | append_singleton post o ih =>
    have hpost := ih fun mid hmid => hkept mid (hmid.trans (List.prefix_append _ _))
    have hlast := hkept _ List.prefix_rfl
    rw [← List.cons_append, Machine.after_concat] at hlast ⊢
    rcases openedAt_perform (Machine.after perform b (⟨t, .recordFailure⟩ :: post)) o with
      hk | hk | ⟨hk, -, -⟩
    · exact hk.trans hpost
    · exact absurd hk hlast
    · rw [hpost] at hk
      cases hk

/-- **`opened_at` is the time since which the breaker is open.** -/
theorem openedAt_iff {b : CircuitBreaker} (hopened : b.openedAt = none) (os : List BreakerOp)
    (t : ℚ) : (Machine.after perform b os).openedAt = some t ↔ b.OpenSince os t := by
  constructor
  · intro h
    induction os using List.reverseRecOn with
    | nil =>
      rw [Machine.after_nil, hopened] at h
      cases h
    | append_singleton os o ih =>
      have h' := h
      rw [Machine.after_concat] at h
      rcases openedAt_perform (Machine.after perform b os) o with hk | hk | ⟨hk, hkind, hnow⟩
      · obtain ⟨pre, post, rfl, hpre, hpost⟩ := ih (hk.symm.trans h)
        refine ⟨pre, post ++ [o], by simp, hpre, fun mid hmid => ?_⟩
        rcases List.prefix_concat_iff.mp hmid with rfl | hmid
        · rw [← List.cons_append, ← List.append_assoc, h']
          exact Option.some_ne_none t
        · exact hpost mid hmid
      · rw [hk] at h
        cases h
      · rw [hnow] at h
        cases h
        obtain ⟨now, kind⟩ := o
        cases hkind
        refine ⟨os, [], rfl, hk, fun mid hmid => ?_⟩
        rw [List.prefix_nil.mp hmid, h']
        exact Option.some_ne_none _
  · rintro ⟨pre, post, rfl, hpre, hkept⟩
    rw [Machine.after_append]
    refine openedAt_of_kept hpre fun mid hmid => ?_
    rw [← Machine.after_append]
    exact hkept mid hmid

/-- Until a success is recorded or the cooldown has passed, the breaker stays open. -/
theorem openedAt_of_no_success {b : CircuitBreaker} {t now : ℚ} (h : b.openedAt = some t)
    {os : List BreakerOp} (hsuccess : ∀ o ∈ os, o.kind ≠ .recordSuccess)
    (hnow : ∀ o ∈ os, o.now ≤ now) (hcool : now - t ≤ b.cooldownS) :
    (Machine.after perform b os).openedAt = some t := by
  induction os using List.reverseRecOn with
  | nil => exact h
  | append_singleton os o ih =>
    have hbefore := ih (fun o ho => hsuccess o (List.mem_append_left _ ho))
      fun o ho => hnow o (List.mem_append_left _ ho)
    have hlast : o ∈ os ++ [o] := List.mem_append_right _ (List.mem_singleton_self o)
    rw [Machine.after_concat]
    refine openedAt_perform_of_open hbefore (hsuccess o hlast) ?_
    rw [(settings_after b os).2]
    have := hnow o hlast
    linarith

end Runs

/-- **The breaker opens on consecutive failures only, and then blocks for the cooldown.** After
every run of whole operations, an open breaker has its threshold of failures as the last outcomes;
`is_open` is true exactly while at most the cooldown has passed since the breaker opened; and a
request that checks the breaker less than the cooldown after it opened, without a success since,
does not call the model. -/
theorem consecutive_failures_block (threshold : ℤ) (cooldownS : ℚ) (os : List BreakerOp) :
    let b : CircuitBreaker := { threshold, cooldownS }
    let b' := Machine.after perform b os
    (b'.openedAt ≠ none → List.replicate threshold.toNat false <:+ outcomes os) ∧
      (b'.openedAt ≠ none ↔ ∃ t, b.OpenSince os t) ∧
      (∀ now, (b'.isOpen now).1 = true ↔ ∃ t, b.OpenSince os t ∧ now - t ≤ cooldownS) ∧
      ∀ pre t mid (a : Attempt), os = pre ++ ⟨t, .recordFailure⟩ :: mid →
        (Machine.after perform b pre).openedAt = none →
        (Machine.after perform b (pre ++ [⟨t, .recordFailure⟩])).openedAt ≠ none →
        (∀ o ∈ mid, o.kind ≠ .recordSuccess) → (os.map BreakerOp.now ++ [a.now]).Pairwise (· ≤ ·) →
        a.now - t < cooldownS → (b'.attempt a).1 = false := by
  intro b b'
  have hsettings := settings_after b os
  refine ⟨fun hne => ?_, ?_, fun now => ?_, ?_⟩
  · have hrow := (failures_of_opened (b := b) rfl rfl os).opened hne
    rwa [hsettings.1] at hrow
  · rw [Option.ne_none_iff_exists']
    exact exists_congr fun t => openedAt_iff rfl os t
  · have hcool : b'.cooldownS = cooldownS := hsettings.2
    -- `is_open` resets an open breaker when the cooldown has passed, and then answers false
    constructor
    · intro h
      rcases ht : b'.openedAt with _ | t
      · simp [isOpen, ht] at h
      · refine ⟨t, (openedAt_iff rfl os t).mp ht, ?_⟩
        by_contra hlt
        simp [isOpen, ht, hcool, not_le.mp hlt] at h
    · rintro ⟨t, ht, hle⟩
      have hopen : b'.openedAt = some t := (openedAt_iff rfl os t).mpr ht
      simp [isOpen, hopen, hcool, not_lt.mpr hle]
  · intro pre t mid a hos hpre hopens hsuccess hordered hlt
    have hopened : (Machine.after perform b (pre ++ [⟨t, .recordFailure⟩])).openedAt = some t := by
      refine (openedAt_iff rfl _ t).mpr ⟨pre, [], rfl, hpre, fun m hm => ?_⟩
      rwa [List.prefix_nil.mp hm]
    have hlast : ∀ o ∈ mid, o.now ≤ a.now := by
      intro o ho
      refine (List.pairwise_append.mp hordered).2.2 _ ?_ _ (List.mem_singleton_self _)
      rw [hos]
      exact List.mem_map_of_mem (List.mem_append_right _ (List.mem_cons_of_mem _ ho))
    have hb' : b'.openedAt = some t := by
      have hsplit : os = (pre ++ [⟨t, .recordFailure⟩]) ++ mid := by rw [hos]; simp
      change (Machine.after perform b os).openedAt = some t
      rw [hsplit, Machine.after_append]
      refine openedAt_of_no_success hopened hsuccess hlast ?_
      rw [(settings_after b _).2]
      exact hlt.le
    have hnot : ¬ b'.CooledDown a.now := by
      rintro ⟨t', ht', hcooled⟩
      rw [hb'] at ht'
      cases ht'
      have hcool : b'.cooldownS = cooldownS := hsettings.2
      rw [hcool] at hcooled
      linarith
    rw [attempt_open (by rw [hb']; exact Option.some_ne_none t) hnot]

/-- Three requests are in flight: the second failure opens the breaker, the third arrives after
that, and a check half a second later does not call the model. -/
theorem consecutive_failures_block_inFlight :
    ((Machine.after perform { threshold := 2, cooldownS := 2 }
      [⟨0, .isOpen⟩, ⟨0, .isOpen⟩, ⟨0, .isOpen⟩, ⟨1, .recordFailure⟩, ⟨1, .recordFailure⟩,
        ⟨2, .recordFailure⟩]).attempt ⟨5 / 2, 3, true⟩).1 = false :=
  (consecutive_failures_block 2 2 _).2.2.2
    [⟨0, .isOpen⟩, ⟨0, .isOpen⟩, ⟨0, .isOpen⟩, ⟨1, .recordFailure⟩] 1 [⟨2, .recordFailure⟩] _ rfl
    (by decide +kernel) (by decide +kernel) (by simp) (by norm_num) (by norm_num)

end CircuitBreaker
