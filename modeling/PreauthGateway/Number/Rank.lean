import Mathlib

/-!
# The order statistics of a list

The `k`-th smallest element of a list, counted from zero, is at most `x` exactly when more than `k`
elements are.

## Main definitions

* `Rank.nth?`: the `k`-th smallest element

## Main results

* `Rank.le_iff_of_nth?`: **rank and count**
-/

namespace Rank

variable {α : Type*} [LinearOrder α] {l s : List α} {k : ℕ} {a x : α}

/-- The element at an index of the sorted list. -/
def nth? (l : List α) (k : ℕ) : Option α := (l.insertionSort (· ≤ ·))[k]?

/-- In a sorted list the elements that are at most `x` come first. -/
theorem getElem_le_iff (hs : s.Pairwise (· ≤ ·)) (hk : s[k]? = some a) :
    a ≤ x ↔ k < s.countP (· ≤ x) := by
  induction s generalizing k with
  | nil => cases hk
  | cons b s ih =>
    obtain ⟨hb, hs⟩ := List.pairwise_cons.mp hs
    by_cases hbx : b ≤ x
    · rw [List.countP_cons_of_pos (by simpa using hbx)]
      cases k with
      | zero =>
        cases hk
        exact iff_of_true hbx (Nat.succ_pos _)
      | succ k => exact (ih hs hk).trans Nat.succ_lt_succ_iff.symm
    · have hzero : (b :: s).countP (· ≤ x) = 0 := by
        rw [List.countP_eq_zero]
        intro c hc hcx
        rw [decide_eq_true_eq] at hcx
        rcases List.mem_cons.mp hc with rfl | hc
        · exact hbx hcx
        · exact hbx ((hb c hc).trans hcx)
      have hba : b ≤ a := by
        rcases List.mem_cons.mp (List.mem_of_getElem? hk) with rfl | ha
        · exact le_rfl
        · exact hb a ha
      rw [hzero]
      exact iff_of_false (fun hax => hbx (hba.trans hax)) (Nat.not_lt_zero k)

/-- **An element of rank `k` is at most `x` exactly when more than `k` elements are.** -/
theorem le_iff_of_nth? (h : nth? l k = some a) : a ≤ x ↔ k < l.countP (· ≤ x) := by
  rw [getElem_le_iff (List.pairwise_insertionSort (· ≤ ·) l) h,
    (List.perm_insertionSort (· ≤ ·) l).countP_eq]

/-- More elements are at most a larger bound. -/
theorem countP_le_mono (l : List α) : Monotone fun x => l.countP (· ≤ x) := by
  intro x y hxy
  apply List.countP_mono_left
  intro a _ ha
  rw [decide_eq_true_eq] at ha ⊢
  exact ha.trans hxy

theorem exists_nth? (h : k < l.length) : ∃ a, nth? l k = some a := by
  have hk : k < (l.insertionSort (· ≤ ·)).length := by rwa [List.length_insertionSort]
  exact ⟨_, List.getElem?_eq_getElem hk⟩

theorem mem_of_nth? (h : nth? l k = some a) : a ∈ l :=
  (List.mem_insertionSort (· ≤ ·)).mp (List.mem_of_getElem? h)

end Rank
