import PreauthGateway.Window.Trim

/-!
# Windows of stamps that are almost in order

Stamps that are taken before their arrival may arrive out of order. When none comes more than a skew
before one that arrived earlier, the queue of a sliding window is right up to the skew: it keeps
every stamp that no cut has passed, and keeps none that is more than the skew below its last cut.

## Main definitions

* `Window.Skewed`: no stamp is more than `δ` before one that stands earlier

## Main results

* `Window.filter_trim`: a cut keeps what is above it
* `Window.lt_of_mem_trim`: **what a cut keeps is above the cut, up to the skew**
-/

namespace Window

/-- What is above a mark that the cut does not pass is kept. -/
theorem filter_trim {α : Type*} [LinearOrder α] {b c : α} (h : c ≤ b) (l : List α) :
    (trim c l).filter (b < ·) = l.filter (b < ·) := by
  induction l with
  | nil => rfl
  | cons x l ih =>
    by_cases hx : x ≤ c
    · have hb : ¬ b < x := not_lt.mpr (hx.trans h)
      rw [trim_cons_of_le l hx, ih, List.filter_cons_of_neg (by simpa using hb)]
    · rw [trim_cons_of_lt l (not_le.mp hx)]

variable {α : Type*} [AddCommGroup α] [LinearOrder α] {δ : α} {l : List α}

/-- No stamp is more than `δ` before one that stands earlier. -/
def Skewed (δ : α) (l : List α) : Prop := l.Pairwise fun x y => x ≤ y + δ

theorem Skewed.sublist {m : List α} (h : Skewed δ l) (hm : m.Sublist l) : Skewed δ m :=
  List.Pairwise.sublist hm h

/-- **What a cut keeps is above the cut, up to the skew.** -/
theorem lt_of_mem_trim [IsOrderedAddMonoid α] (hδ : 0 ≤ δ) (h : Skewed δ l) {c x : α}
    (hx : x ∈ trim c l) : c < x + δ := by
  have hs := h.sublist (trim_sublist c l)
  -- the head is above the cut, and the rest is at most the skew before it
  rcases ht : trim c l with _ | ⟨y, m⟩
  · rw [ht] at hx
    cases hx
  · have hy : c < y := lt_of_mem_head_trim (l := l) (by rw [ht]; rfl)
    rw [ht] at hx hs
    rcases List.mem_cons.mp hx with rfl | hx
    · exact hy.trans_le (le_add_of_nonneg_right hδ)
    · exact hy.trans_le (List.rel_of_pairwise_cons hs hx)

end Window
