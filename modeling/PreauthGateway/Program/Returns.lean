import PreauthGateway.Program.Calls

/-!
# Programs that return

Where a call can raise an exception that the program does not catch, running the program ends with
it. A program returns from a condition on the state when, from every state that meets it, it runs to
its end without an exception.

## Main definitions

* `Prog.attempt`: a program run to its end against calls that may raise
* `Prog.Returns h Φ p Ψ`: started where `Φ` holds, `p` returns, and `Ψ` holds of its value and the
  state then
* `Prog.Uses P p`: every call of `p` is one of `P`

## Main results

* `Prog.Returns.bind`, `Prog.Returns.conseq`: the rules
* `Prog.Uses.keeps`: what the calls of a program keep holds however it ends
-/

namespace Prog

variable {Op : Type} {Res : Op → Type} {ε α β σ : Type}

section Attempt

variable (h : (o : Op) → σ → Except ε (Res o) × σ)

/-- Run a program to its end; an exception of a call is one of the program. -/
def attempt : Prog Op Res ε α → σ → Except ε α × σ
  | ret a, s => (.ok a, s)
  | raise e, s => (.error e, s)
  | call o k, s =>
    match h o s with
    | (.ok r, s') => attempt (k r) s'
    | (.error e, s') => (.error e, s')

theorem attempt_call_ok {o : Op} {k : Res o → Prog Op Res ε α} {s s' : σ} {r : Res o}
    (hr : h o s = (.ok r, s')) : attempt h (call o k) s = attempt h (k r) s' := by
  rw [attempt, hr]

theorem attempt_bind_ok {p : Prog Op Res ε α} {f : α → Prog Op Res ε β} {s s' : σ} {a : α}
    (hp : attempt h p s = (.ok a, s')) : attempt h (p >>= f) s = attempt h (f a) s' := by
  induction p generalizing s with
  | ret b =>
    cases hp
    rfl
  | raise e => cases hp
  | call o k ih =>
    -- the first call did not raise, or the program would have
    rw [attempt] at hp
    split at hp
    · rename_i r t hr
      rw [call_bind, attempt_call_ok h hr]
      exact ih r hp
    · cases hp

theorem attempt_ofExcept (x : Except ε α) (s : σ) :
    attempt h (ofExcept x : Prog Op Res ε α) s = (x, s) := by
  cases x <;> rfl

theorem attempt_bind (p : Prog Op Res ε α) (f : α → Prog Op Res ε β) (s : σ) :
    attempt h (p >>= f) s =
      match attempt h p s with
      | (.ok a, s') => attempt h (f a) s'
      | (.error e, s') => (.error e, s') := by
  induction p generalizing s with
  | ret a => rfl
  | raise e => rfl
  | call o k ih =>
    rw [call_bind, attempt, attempt]
    cases h o s with
    | mk x s' =>
      cases x with
      | ok r => exact ih r s'
      | error e => rfl

/-- What both parts of a sequence keep holds however it ends. -/
theorem attempt_bind_keeps {J : σ → Prop} {p : Prog Op Res ε α} {f : α → Prog Op Res ε β}
    (hp : ∀ s, J s → J (attempt h p s).2) (hf : ∀ a s, J s → J (attempt h (f a) s).2) {s : σ}
    (hs : J s) : J (attempt h (p >>= f) s).2 := by
  have hp := hp s hs
  rw [attempt_bind]
  cases ha : attempt h p s with
  | mk x s' =>
    rw [ha] at hp
    cases x with
    | ok a => exact hf a s' hp
    | error e => exact hp

end Attempt

/-! ## The calls of a program -/

/-- Every call is one of `P`, whatever the calls before it are answered. -/
def Uses (P : Op → Prop) : Prog Op Res ε α → Prop
  | ret _ => True
  | raise _ => True
  | call o k => P o ∧ ∀ r, Uses P (k r)

namespace Uses

variable {P : Op → Prop} {p : Prog Op Res ε α}

theorem perform {o : Op} (ho : P o) : Uses P (perform o : Prog Op Res ε (Res o)) :=
  ⟨ho, fun _ => trivial⟩

theorem ofExcept (x : Except ε α) : Uses P (ofExcept x : Prog Op Res ε α) := by
  cases x <;> trivial

theorem bind (hp : Uses P p) {f : α → Prog Op Res ε β} (hf : ∀ a, Uses P (f a)) :
    Uses P (p >>= f) := by
  induction p with
  | ret a => exact hf a
  | raise e => trivial
  | call o k ih => exact ⟨hp.1, fun r => ih r (hp.2 r)⟩

/-- **What the calls of a program keep holds however it ends.** -/
theorem keeps {h : (o : Op) → σ → Except ε (Res o) × σ} {J : σ → Prop}
    (hcall : ∀ o s, P o → J s → J (h o s).2) (hp : Uses P p) {s : σ} (hs : J s) :
    J (attempt h p s).2 := by
  induction p generalizing s with
  | ret a => exact hs
  | raise e => exact hs
  | call o k ih =>
    have hnext := hcall o s hp.1 hs
    rw [attempt]
    cases hr : h o s with
    | mk x s' =>
      rw [hr] at hnext
      cases x with
      | ok r => exact ih r (hp.2 r) hnext
      | error e => exact hnext

end Uses

/-! ## Triples -/

/-- Started where `Φ` holds, `p` returns, and `Ψ` holds of its value and the state then. -/
def Returns (h : (o : Op) → σ → Except ε (Res o) × σ) (Φ : σ → Prop) (p : Prog Op Res ε α)
    (Ψ : α → σ → Prop) : Prop :=
  ∀ s, Φ s → ∃ a s', attempt h p s = (.ok a, s') ∧ Ψ a s'

namespace Returns

variable {h : (o : Op) → σ → Except ε (Res o) × σ} {Φ Φ' : σ → Prop} {p : Prog Op Res ε α}
  {Ψ Ψ' : α → σ → Prop}

theorem ret {a : α} (ha : ∀ s, Φ s → Ψ a s) : Returns h Φ (ret a : Prog Op Res ε α) Ψ :=
  fun s hs => ⟨a, s, rfl, ha s hs⟩

/-- A value that was computed without an exception. -/
theorem ofExcept {x : Except ε α} (hx : ∀ s, Φ s → ∃ a, x = .ok a ∧ Ψ a s) :
    Returns h Φ (ofExcept x : Prog Op Res ε α) Ψ := by
  intro s hs
  obtain ⟨a, rfl, ha⟩ := hx s hs
  exact ⟨a, s, rfl, ha⟩

/-- One call. -/
theorem perform {o : Op} {Ψ : Res o → σ → Prop}
    (ho : ∀ s, Φ s → ∃ r s', h o s = (.ok r, s') ∧ Ψ r s') :
    Returns h Φ (perform o : Prog Op Res ε (Res o)) Ψ := by
  intro s hs
  obtain ⟨r, s', hr, hΨ⟩ := ho s hs
  exact ⟨r, s', attempt_call_ok h hr, hΨ⟩

/-- **The sequence rule.** -/
theorem bind {f : α → Prog Op Res ε β} {X : β → σ → Prop} (hp : Returns h Φ p Ψ)
    (hf : ∀ a, Returns h (Ψ a) (f a) X) : Returns h Φ (p >>= f) X := by
  intro s hs
  obtain ⟨a, s', ha, hΨ⟩ := hp s hs
  obtain ⟨b, s'', hb, hX⟩ := hf a s' hΨ
  exact ⟨b, s'', (attempt_bind_ok h ha).trans hb, hX⟩

theorem conseq (hp : Returns h Φ p Ψ) (hΦ : ∀ s, Φ' s → Φ s) (hΨ : ∀ a s, Ψ a s → Ψ' a s) :
    Returns h Φ' p Ψ' := by
  intro s hs
  obtain ⟨a, s', ha, hs'⟩ := hp s (hΦ s hs)
  exact ⟨a, s', ha, hΨ a s' hs'⟩

/-- A precondition that gives a witness. -/
theorem of_exists {ι : Sort*} {Θ : ι → σ → Prop} (hp : ∀ i, Returns h (Θ i) p Ψ) :
    Returns h (fun s => ∃ i, Θ i s) p Ψ := by
  rintro s ⟨i, hi⟩
  exact hp i s hi

/-- A fact about no state. -/
theorem of_fact {P : Prop} (hp : P → Returns h Φ p Ψ) : Returns h (fun s => P ∧ Φ s) p Ψ := by
  rintro s ⟨hP, hs⟩
  exact hp hP s hs

end Returns

end Prog
