import Mathlib

/-!
# Programs that call their environment

A program returns a value, raises an exception, or makes a call and continues with the answer. It
can be run to its end against a handler of the calls, or one call at a time while the environment
changes the state between them. `Safe` says of the second what a postcondition and an invariant
say of the first.

## Main definitions

* `Prog Op Res ε α`: programs over calls `Op` with answers `Res`
* `Prog.exec`: a program run to its end
* `Prog.Safe H R I p Q s`: started in `s`, while the environment moves along `R`, every call of `p`
  keeps `I`, and `Q` holds at its end
* `Prog.Triple H R I Φ p Ψ`: the same from every state that satisfies `Φ`

## Main results

* `Prog.exec_bind`: running a sequence
* `Prog.Safe.bind`, `Prog.Safe.mono`, `Prog.Safe.rely`, `Prog.Triple.bind`: the rules
-/

/-- A program that makes calls. -/
inductive Prog (Op : Type) (Res : Op → Type) (ε α : Type) : Type
  | ret (a : α)
  | raise (e : ε)
  | call (o : Op) (k : Res o → Prog Op Res ε α)

namespace Prog

variable {Op : Type} {Res : Op → Type} {ε α β : Type}

/-- Sequencing; an exception ends the whole program. -/
def bind : Prog Op Res ε α → (α → Prog Op Res ε β) → Prog Op Res ε β
  | ret a, f => f a
  | raise e, _ => raise e
  | call o k, f => call o fun r => (k r).bind f

instance : Monad (Prog Op Res ε) where
  pure := ret
  bind := bind

/-- One call. -/
def perform (o : Op) : Prog Op Res ε (Res o) := call o ret

/-- A value, or the exception that computing it raised. -/
def ofExcept : Except ε α → Prog Op Res ε α
  | .ok a => ret a
  | .error e => raise e

@[simp] theorem pure_eq (a : α) : (pure a : Prog Op Res ε α) = ret a := rfl

@[simp] theorem ret_bind (a : α) (f : α → Prog Op Res ε β) : (ret a >>= f) = f a := rfl

@[simp] theorem raise_bind (e : ε) (f : α → Prog Op Res ε β) : (raise e >>= f) = raise e := rfl

@[simp] theorem call_bind (o : Op) (k : Res o → Prog Op Res ε α) (f : α → Prog Op Res ε β) :
    (call o k >>= f) = call o fun r => k r >>= f := rfl

theorem bind_assoc {γ : Type} (p : Prog Op Res ε α) (f : α → Prog Op Res ε β)
    (g : β → Prog Op Res ε γ) : (p >>= f) >>= g = p >>= fun a => f a >>= g := by
  induction p with
  | ret a => rfl
  | raise e => rfl
  | call o k ih => exact congrArg (call o) (funext ih)

/-! ## Running to the end -/

section Exec

variable {σ : Type} (h : (o : Op) → σ → Res o × σ)

/-- Run a program to its end. -/
def exec : Prog Op Res ε α → σ → Except ε α × σ
  | ret a, s => (.ok a, s)
  | raise e, s => (.error e, s)
  | call o k, s => exec (k (h o s).1) (h o s).2

@[simp] theorem exec_ret (a : α) (s : σ) : exec h (ret a : Prog Op Res ε α) s = (.ok a, s) := rfl

/-- What follows a result: the rest of the program, unless an exception was raised. -/
def andThen (f : α → Prog Op Res ε β) : Except ε α × σ → Except ε β × σ
  | (.ok a, s) => exec h (f a) s
  | (.error e, s) => (.error e, s)

/-- **Running a sequence.** -/
theorem exec_bind (p : Prog Op Res ε α) (f : α → Prog Op Res ε β) (s : σ) :
    exec h (p >>= f) s = andThen h f (exec h p s) := by
  induction p generalizing s with
  | ret a => rfl
  | raise e => rfl
  | call o k ih => exact ih (h o s).1 (h o s).2

theorem exec_ofExcept (x : Except ε α) (s : σ) :
    exec h (ofExcept x : Prog Op Res ε α) s = (x, s) := by
  cases x <;> rfl

end Exec

/-! ## One call at a time -/

section Safe

variable {σ : Type}

/-- Every call keeps `I` and `Q` holds at the end, whatever the environment does between the calls:
`H o s r s'` when the call `o` in `s` can be answered with `r` and leave `s'`. -/
def Safe (H : (o : Op) → σ → Res o → σ → Prop) (R : σ → σ → Prop) (I : σ → Prop) :
    Prog Op Res ε α → (Except ε α → σ → Prop) → σ → Prop
  | ret a, Q, s => ∀ s₁, R s s₁ → I s₁ → Q (.ok a) s₁
  | raise e, Q, s => ∀ s₁, R s s₁ → I s₁ → Q (.error e) s₁
  | call o k, Q, s => ∀ s₁, R s s₁ → I s₁ → ∀ r s₂, H o s₁ r s₂ → I s₂ ∧ Safe H R I (k r) Q s₂

variable {H : (o : Op) → σ → Res o → σ → Prop} {R : σ → σ → Prop} {I : σ → Prop}
  {p : Prog Op Res ε α} {Q Q' : Except ε α → σ → Prop} {s s' : σ}

theorem Safe.mono (h : Safe H R I p Q s) (hQ : ∀ x s, I s → Q x s → Q' x s) :
    Safe H R I p Q' s := by
  induction p generalizing s with
  | ret a => exact fun s₁ h₁ hI => hQ _ _ hI (h s₁ h₁ hI)
  | raise e => exact fun s₁ h₁ hI => hQ _ _ hI (h s₁ h₁ hI)
  | call o k ih =>
    intro s₁ h₁ hI r s₂ h₂
    obtain ⟨hI₂, hk⟩ := h s₁ h₁ hI r s₂ h₂
    exact ⟨hI₂, ih r hk⟩

/-- What the environment does changes nothing about safety. -/
theorem Safe.rely [IsTrans σ R] (h : Safe H R I p Q s) (hR : R s s') : Safe H R I p Q s' := by
  cases p with
  | ret a => exact fun s₁ h₁ => h s₁ (trans_of R hR h₁)
  | raise e => exact fun s₁ h₁ => h s₁ (trans_of R hR h₁)
  | call o k => exact fun s₁ h₁ => h s₁ (trans_of R hR h₁)

/-- A call whose postcondition the environment does not disturb. -/
theorem Safe.perform {o : Op} {Q : Except ε (Res o) → σ → Prop}
    (h : ∀ s₁, R s s₁ → I s₁ → ∀ r s₂, H o s₁ r s₂ →
      I s₂ ∧ ∀ s₃, R s₂ s₃ → I s₃ → Q (.ok r) s₃) :
    Safe H R I (perform o) Q s := h

variable [Std.Refl R]

/-- **The sequence rule.** -/
theorem Safe.bind {f : α → Prog Op Res ε β} {Q' : Except ε β → σ → Prop} (hI : I s)
    (h : Safe H R I p Q s) (hf : ∀ a s, I s → Q (.ok a) s → Safe H R I (f a) Q' s)
    (he : ∀ e s, I s → Q (.error e) s → Q' (.error e) s) : Safe H R I (p >>= f) Q' s := by
  induction p generalizing s with
  | ret a => exact hf a s hI (h s (refl_of R s) hI)
  | raise e => exact fun s₁ h₁ hI₁ => he e s₁ hI₁ (h s₁ h₁ hI₁)
  | call o k ih =>
    intro s₁ h₁ hI₁ r s₂ h₂
    obtain ⟨hI₂, hk⟩ := h s₁ h₁ hI₁ r s₂ h₂
    exact ⟨hI₂, ih r hI₂ hk⟩

end Safe

/-! ## Triples -/

section Triple

variable {σ : Type} (H : (o : Op) → σ → Res o → σ → Prop) (R : σ → σ → Prop) (I : σ → Prop)

/-- The environment does not disturb `Φ`. -/
def Stable (Φ : σ → Prop) : Prop := ∀ s s', I s → I s' → R s s' → Φ s → Φ s'

/-- Started where `I` and `Φ` hold, `p` keeps `I` with every call, and the value it returns
satisfies `Ψ`. Nothing is said of an exception, which ends the program. -/
def Triple (Φ : σ → Prop) (p : Prog Op Res ε α) (Ψ : α → σ → Prop) : Prop :=
  ∀ s, I s → Φ s → Safe H R I p (fun x s => ∀ a, x = .ok a → Ψ a s) s

variable {H R I} {Φ Φ' : σ → Prop} {p : Prog Op Res ε α} {Ψ Ψ' : α → σ → Prop}

theorem Stable.and (h : Stable R I Φ) (h' : Stable R I Φ') : Stable R I fun s => Φ s ∧ Φ' s :=
  fun s s' hI hI' hR hΦ => ⟨h s s' hI hI' hR hΦ.1, h' s s' hI hI' hR hΦ.2⟩

theorem Stable.const (P : Prop) : Stable R I fun _ => P := fun _ _ _ _ _ h => h

theorem Stable.imp {P : Prop} (h : Stable R I Φ) : Stable R I fun s => P → Φ s :=
  fun s s' hI hI' hR hΦ hP => h s s' hI hI' hR (hΦ hP)

theorem Triple.ret {a : α} (hΦ : Stable R I Φ) (h : ∀ s, I s → Φ s → Ψ a s) :
    Triple H R I Φ (ret a : Prog Op Res ε α) Ψ := by
  intro s hI hs s₁ hR hI₁ b hb
  cases hb
  exact h s₁ hI₁ (hΦ s s₁ hI hI₁ hR hs)

theorem Triple.raise (e : ε) : Triple H R I Φ (raise e : Prog Op Res ε α) Ψ := by
  intro s _ _ s₁ _ _ a ha
  cases ha

theorem Triple.ofExcept {x : Except ε α} (hΦ : Stable R I Φ)
    (h : ∀ a, x = .ok a → ∀ s, I s → Φ s → Ψ a s) :
    Triple H R I Φ (ofExcept x : Prog Op Res ε α) Ψ := by
  cases x with
  | ok a => exact Triple.ret hΦ (h a rfl)
  | error e => exact Triple.raise e

/-- One call. -/
theorem Triple.perform {o : Op} {Ψ : Res o → σ → Prop} (hΦ : Stable R I Φ)
    (hΨ : ∀ r, Stable R I (Ψ r))
    (h : ∀ s, I s → Φ s → ∀ r s', H o s r s' → I s' ∧ Ψ r s') :
    Triple H R I Φ (perform o : Prog Op Res ε (Res o)) Ψ := by
  intro s hI hs s₁ hR hI₁ r s₂ h₂
  obtain ⟨hI₂, hr⟩ := h s₁ hI₁ (hΦ s s₁ hI hI₁ hR hs) r s₂ h₂
  refine ⟨hI₂, fun s₃ hR' hI₃ a ha => ?_⟩
  cases ha
  exact hΨ r s₂ s₃ hI₂ hI₃ hR' hr

/-- **The sequence rule.** -/
theorem Triple.bind [Std.Refl R] {f : α → Prog Op Res ε β} {X : β → σ → Prop}
    (hp : Triple H R I Φ p Ψ) (hf : ∀ a, Triple H R I (Ψ a) (f a) X) :
    Triple H R I Φ (p >>= f) X := by
  intro s hI hs
  apply Safe.bind hI (hp s hI hs)
  · intro a s hI ha
    exact hf a s hI (ha a rfl)
  · intro e s _ _ b hb
    cases hb

theorem Triple.conseq (h : Triple H R I Φ p Ψ) (hΦ : ∀ s, I s → Φ' s → Φ s)
    (hΨ : ∀ a s, I s → Ψ a s → Ψ' a s) : Triple H R I Φ' p Ψ' := by
  intro s hI hs
  exact (h s hI (hΦ s hI hs)).mono fun x s hI hx a ha => hΨ a s hI (hx a ha)

end Triple

end Prog
