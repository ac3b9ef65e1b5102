import Mathlib

/-!
# Runs of a step function

A step function gives the state after an action, or `none` where the action is not possible. A run
is a list of actions, each possible in the state before it.

## Main definitions

* `Runs.run`: the state after a list of actions
* `Runs.Meets`: every action of a run meets a condition on it and on the state before it
* `Runs.Reaches`: some run, every action of which meets the condition, leads to a state

## Main results

* `Runs.Meets.and`, `Runs.Meets.mono`: runs that meet two conditions, or a weaker one
* `Runs.invariant`: what the steps that meet a condition preserve holds after every run of them
* `Runs.preserved`: the same for steps without a condition
-/

namespace Runs

variable {σ α : Type*} (step : σ → α → Option σ)

/-- The state after a list of actions. -/
def run (s : σ) (as : List α) : Option σ := as.foldlM step s

/-- Every action meets the condition `G`. -/
def Meets (G : σ → α → Prop) : σ → List α → Prop
  | _, [] => True
  | s, a :: as => G s a ∧ ∀ s', step s a = some s' → Meets G s' as

variable {step}

@[simp] theorem run_nil (s : σ) : run step s [] = some s := rfl

theorem run_cons (s : σ) (a : α) (as : List α) :
    run step s (a :: as) = (step s a).bind fun s' => run step s' as := List.foldlM_cons

theorem Meets.and {G G' : σ → α → Prop} {s : σ} {as : List α} (h : Meets step G s as)
    (h' : Meets step G' s as) : Meets step (fun s a => G s a ∧ G' s a) s as := by
  induction as generalizing s with
  | nil => trivial
  | cons a as ih => exact ⟨⟨h.1, h'.1⟩, fun t ht => ih (h.2 t ht) (h'.2 t ht)⟩

theorem Meets.mono {G G' : σ → α → Prop} (hG : ∀ s a, G s a → G' s a) {s : σ} {as : List α}
    (h : Meets step G s as) : Meets step G' s as := by
  induction as generalizing s with
  | nil => trivial
  | cons a as ih => exact ⟨hG s a h.1, fun t ht => ih (h.2 t ht)⟩

/-- A run can be checked. -/
instance decidableMeets (G : σ → α → Prop) [∀ s a, Decidable (G s a)] :
    (s : σ) → (as : List α) → Decidable (Meets step G s as)
  | _, [] => isTrue trivial
  | s, a :: as =>
    match h : step s a with
    | none => decidable_of_iff (G s a)
        ⟨fun hG => ⟨hG, fun t ht => by rw [h] at ht; cases ht⟩, fun hm => hm.1⟩
    | some t =>
      letI := decidableMeets G t as
      decidable_of_iff (G s a ∧ Meets step G t as)
        ⟨fun hm => ⟨hm.1, fun u hu => by rw [h] at hu; cases hu; exact hm.2⟩,
          fun hm => ⟨hm.1, hm.2 t h⟩⟩

/-- **What every step preserves holds after every run.** -/
theorem invariant {G : σ → α → Prop} {P : σ → Prop}
    (hstep : ∀ s a s', P s → G s a → step s a = some s' → P s') {s s' : σ} {as : List α}
    (h0 : P s) (hG : Meets step G s as) (h : run step s as = some s') : P s' := by
  induction as generalizing s with
  | nil => cases h; exact h0
  | cons a as ih =>
    rw [run_cons] at h
    obtain ⟨t, ht, h⟩ := Option.bind_eq_some_iff.mp h
    exact ih (hstep s a t h0 hG.1 ht) (hG.2 t ht) h

/-- **What every step preserves whatsoever holds after every run.** -/
theorem preserved {P : σ → Prop} (hstep : ∀ s a s', P s → step s a = some s' → P s') {s s' : σ}
    {as : List α} (h0 : P s) (h : run step s as = some s') : P s' := by
  induction as generalizing s with
  | nil => cases h; exact h0
  | cons a as ih =>
    rw [run_cons] at h
    obtain ⟨t, ht, h⟩ := Option.bind_eq_some_iff.mp h
    exact ih (hstep s a t h0 ht) h

/-- A run whose actions meet the condition leads from `s` to `s'`. -/
def Reaches (step : σ → α → Option σ) (G : σ → α → Prop) (s s' : σ) : Prop :=
  ∃ as, Meets step G s as ∧ run step s as = some s'

section Reaches

variable {G : σ → α → Prop} {s t u : σ}

theorem Reaches.refl (s : σ) : Reaches step G s s := ⟨[], trivial, rfl⟩

/-- One step, and then a run. -/
theorem Reaches.head {a : α} (hG : G s a) (h : step s a = some t) (ht : Reaches step G t u) :
    Reaches step G s u := by
  obtain ⟨as, hm, hrun⟩ := ht
  refine ⟨a :: as, ⟨hG, ?_⟩, ?_⟩
  · intro t' ht'
    rw [h] at ht'
    cases ht'
    exact hm
  · rw [run_cons, h]
    exact hrun

theorem Reaches.single {a : α} (hG : G s a) (h : step s a = some t) : Reaches step G s t :=
  .head hG h (.refl t)

theorem Reaches.trans (h : Reaches step G s t) (ht : Reaches step G t u) : Reaches step G s u := by
  obtain ⟨as, hm, hrun⟩ := h
  induction as generalizing s with
  | nil =>
    cases hrun
    exact ht
  | cons a as ih =>
    rw [run_cons] at hrun
    obtain ⟨s', hs', hrun⟩ := Option.bind_eq_some_iff.mp hrun
    exact .head hm.1 hs' (ih (hm.2 s' hs') hrun)

end Reaches

end Runs
