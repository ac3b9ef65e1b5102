import PreauthGateway.Program.Machine

/-!
# Actions that do not influence each other

Some of the actions of a machine are one user's own. They are isolated from the others when a view
of the state determines the replies to them and what they do to the view, and the others leave the
view as it is. Then the others may be added, removed and changed at will.

## Main definitions

* `Machine.ownReplies`: the replies to the user's own actions
* `Machine.Isolates`: what one action may do

## Main results

* `Machine.Isolates.purge`: **the replies and the view are those of the run with the own actions
  only**
* `Machine.Isolates.agree`: runs with the same own actions give the same replies to them
-/

namespace Machine

variable {σ α ρ τ : Type*} (f : σ → α → ρ × σ) (K : α → Prop) [DecidablePred K]

/-- The replies to the own actions among a list of actions. -/
def ownReplies : σ → List α → List ρ
  | _, [] => []
  | s, a :: as =>
    if K a then (f s a).1 :: ownReplies (f s a).2 as else ownReplies (f s a).2 as

/-- Among the actions that meet `P`, the view is moved by the own ones only, and they are answered
from it. -/
structure Isolates (P : α → Prop) (view : σ → τ) : Prop where
  own : ∀ s t a, K a → view s = view t → (f s a).1 = (f t a).1 ∧ view (f s a).2 = view (f t a).2
  other : ∀ s a, P a → ¬ K a → view (f s a).2 = view s

namespace Isolates

variable {f K} {P : α → Prop} {view : σ → τ} {s t : σ} {as bs : List α}

/-- **The other actions can be left out.** -/
theorem purge (h : Isolates f K P view) (hP : ∀ a ∈ as, P a) (hview : view s = view t) :
    ownReplies f K s as = replies f t (as.filter K) ∧
      view (after f s as) = view (after f t (as.filter K)) := by
  induction as generalizing s t with
  | nil => exact ⟨rfl, hview⟩
  | cons a as ih =>
    obtain ⟨ha, has⟩ := List.forall_mem_cons.mp hP
    rw [ownReplies, after_cons]
    by_cases hK : K a
    · rw [if_pos hK, List.filter_cons_of_pos (by simpa using hK), replies_cons, after_cons]
      obtain ⟨hreply, hnext⟩ := h.own s t a hK hview
      obtain ⟨hreplies, hafter⟩ := ih has hnext
      exact ⟨by rw [hreply, hreplies], hafter⟩
    · rw [if_neg hK, List.filter_cons_of_neg (by simpa using hK)]
      exact ih has ((h.other s a ha hK).trans hview)

/-- **Two runs with the same own actions** answer them alike and end with the same view. -/
theorem agree (h : Isolates f K P view) (has : ∀ a ∈ as, P a) (hbs : ∀ b ∈ bs, P b)
    (hview : view s = view t) (hsame : as.filter K = bs.filter K) :
    ownReplies f K s as = ownReplies f K t bs ∧ view (after f s as) = view (after f t bs) := by
  obtain ⟨hreplies, hafter⟩ := h.purge has hview
  obtain ⟨hreplies', hafter'⟩ := h.purge hbs (Eq.refl (view t))
  rw [hreplies, hafter, hsame]
  exact ⟨hreplies'.symm, hafter'.symm⟩

end Isolates

end Machine
