import Mathlib

/-!
# Sliding windows

A sliding window holds stamps. It is cut at a stamp before each arrival: a queue drops the stamps at
its front up to the cut, a bag every stamp up to the cut. The arrivals need not be in order, so a
queue may keep a stamp below the cut behind one above it.

## Main definitions

* `Window.trim`: the queue after a cut
* `Window.Covers`, `Window.BagCovers`: one window counts at least what the other counts, now and
  after any cuts and arrivals common to both

## Main results

* `Window.trim_sublist_trim`: a cut keeps the order of inclusion
* `Window.length_trim_eq_iff`, `Window.trim_eq_filter`: when a cut is a filter
* `Window.Covers.trim`, `Window.Covers.append`, `Window.Covers.length_le`, and the same for bags
-/

namespace Window

variable {α : Type*} [LinearOrder α]

/-- The queue after its front was cut at `c`. -/
def trim (c : α) (l : List α) : List α := l.dropWhile (· ≤ c)

@[simp] theorem trim_nil (c : α) : trim c [] = [] := rfl

theorem trim_cons_of_le {c x : α} (l : List α) (h : x ≤ c) : trim c (x :: l) = trim c l := by
  simp [trim, h]

theorem trim_cons_of_lt {c x : α} (l : List α) (h : c < x) : trim c (x :: l) = x :: l := by
  simp [trim, h]

theorem trim_suffix (c : α) (l : List α) : trim c l <:+ l := List.dropWhile_suffix _

theorem trim_sublist (c : α) (l : List α) : (trim c l).Sublist l := List.dropWhile_sublist _

/-- What heads the queue after a cut is above the cut. -/
theorem lt_of_mem_head_trim {c x : α} {l : List α} (h : x ∈ (trim c l).head?) : c < x := by
  induction l with
  | nil => cases h
  | cons y l ih =>
    by_cases hy : y ≤ c
    · rw [trim_cons_of_le l hy] at h
      exact ih h
    · rw [trim_cons_of_lt l (not_le.mp hy)] at h
      cases h
      exact not_le.mp hy

/-- A queue headed by a stamp above the cut stays whole. -/
theorem trim_of_lt_head {c : α} {l : List α} (h : ∀ x ∈ l.head?, c < x) : trim c l = l := by
  cases l with
  | nil => rfl
  | cons x l => exact trim_cons_of_lt l (h x rfl)

/-- A lower cut first makes no difference. -/
theorem trim_trim_of_le {c d : α} (h : c ≤ d) (l : List α) : trim d (trim c l) = trim d l := by
  induction l with
  | nil => rfl
  | cons x l ih =>
    by_cases hx : x ≤ c
    · rw [trim_cons_of_le l hx, trim_cons_of_le l (hx.trans h), ih]
    · rw [trim_cons_of_lt l (not_le.mp hx)]

/-- **A cut keeps the order of inclusion.** -/
theorem trim_sublist_trim (c : α) {l m : List α} (h : l.Sublist m) :
    (trim c l).Sublist (trim c m) := by
  induction h with
  | slnil => exact List.Sublist.refl _
  | cons x h ih =>
    by_cases hx : x ≤ c
    · rwa [trim_cons_of_le _ hx]
    · rw [trim_cons_of_lt _ (not_le.mp hx)]
      exact ((trim_sublist c _).trans h).cons x
  | cons_cons x h ih =>
    by_cases hx : x ≤ c
    · rwa [trim_cons_of_le _ hx, trim_cons_of_le _ hx]
    · rw [trim_cons_of_lt _ (not_le.mp hx), trim_cons_of_lt _ (not_le.mp hx)]
      exact h.cons_cons x

/-- What a filter keeps, a cut keeps. -/
theorem filter_sublist_trim (c : α) (l : List α) : (l.filter (c < ·)).Sublist (trim c l) := by
  induction l with
  | nil => exact List.Sublist.refl _
  | cons x l ih =>
    by_cases hc : x ≤ c
    · rwa [trim_cons_of_le l hc, List.filter_cons_of_neg (by simpa using hc)]
    · rw [trim_cons_of_lt l (not_le.mp hc)]
      exact List.filter_sublist

/-- **A cut is a filter exactly when no stamp up to the cut stands behind one above it.** -/
theorem length_trim_eq_iff {c : α} {l : List α} :
    (trim c l).length = (l.filter (c < ·)).length ↔
      l.Pairwise fun x y => y ≤ c → x ≤ c := by
  induction l with
  | nil => simp
  | cons x l ih =>
    rw [List.pairwise_cons]
    by_cases hc : x ≤ c
    · rw [trim_cons_of_le l hc, List.filter_cons_of_neg (by simpa using hc), ih]
      simp [hc]
    · rw [trim_cons_of_lt l (not_le.mp hc), List.filter_cons_of_pos (by simpa using hc)]
      constructor
      · intro h
        have hall : ∀ y ∈ l, c < y := by
          simpa using List.length_filter_eq_length_iff.mp (Nat.succ_injective h).symm
        have hpw : l.Pairwise fun y z => z ≤ c → y ≤ c :=
          List.pairwise_of_forall_mem_list fun y hy z hz hzc => absurd hzc (not_le.mpr (hall z hz))
        exact ⟨fun y hy hyc => absurd hyc (not_le.mpr (hall y hy)), hpw⟩
      · rintro ⟨h, -⟩
        have hall : ∀ y ∈ l, c < y := fun y hy => not_le.mp fun hyc => hc (h y hy hyc)
        rw [List.filter_eq_self.mpr (by simpa using hall)]

theorem trim_eq_filter_of_pairwise {c : α} {l : List α}
    (h : l.Pairwise fun x y => y ≤ c → x ≤ c) : trim c l = l.filter (c < ·) :=
  ((filter_sublist_trim c l).eq_of_length (length_trim_eq_iff.mpr h).symm).symm

/-- **On an ordered queue a cut is a filter.** -/
theorem trim_eq_filter {c : α} {l : List α} (h : l.Pairwise (· ≤ ·)) :
    trim c l = l.filter (c < ·) :=
  trim_eq_filter_of_pairwise (h.imp fun hxy hy => hxy.trans hy)

/-! ## One queue counts at least what another counts -/

/-- `v` is part of `w`, or would be without its head, which is no later than the head of `w` and for
which `w` holds another stamp. -/
def Covers (w v : List α) : Prop :=
  v.Sublist w ∨ ∃ p s, v = p :: s ∧ s.Sublist w ∧ s.length < w.length ∧ ∀ x ∈ w.head?, p ≤ x

namespace Covers

variable {v w : List α}

theorem of_sublist (h : v.Sublist w) : Covers w v := .inl h

theorem length_le (h : Covers w v) : v.length ≤ w.length := by
  rcases h with h | ⟨p, s, rfl, -, hlt, -⟩
  · exact h.length_le
  · exact hlt

theorem append (h : Covers w v) (l : List α) : Covers (w ++ l) (v ++ l) := by
  rcases h with h | ⟨p, s, rfl, hs, hlt, hp⟩
  · exact .inl (h.append (List.Sublist.refl l))
  · refine .inr ⟨p, s ++ l, rfl, hs.append (List.Sublist.refl l), by simpa using hlt, ?_⟩
    intro x hx
    -- `w` is not empty, so its head is the head of the whole
    have hw : w ≠ [] := by
      rintro rfl
      exact absurd hlt (Nat.not_lt_zero _)
    rw [List.head?_append_of_ne_nil _ hw] at hx
    exact hp x hx

theorem trim (h : Covers w v) (c : α) : Covers (trim c w) (trim c v) := by
  rcases h with h | ⟨p, s, rfl, hs, hlt, hp⟩
  · exact .inl (trim_sublist_trim c h)
  · by_cases hc : p ≤ c
    · rw [trim_cons_of_le s hc]
      exact .inl (trim_sublist_trim c hs)
    · have hw : Window.trim c w = w := trim_of_lt_head fun x hx => (not_le.mp hc).trans_le (hp x hx)
      rw [trim_cons_of_lt s (not_le.mp hc), hw]
      exact .inr ⟨p, s, rfl, hs, hlt, hp⟩

end Covers

/-! ## One bag counts at least what another counts -/

/-- `v` is part of `w`, or would be with a later stamp in place of one of its own. -/
def BagCovers (w v : Multiset α) : Prop :=
  v ≤ w ∨ ∃ p q s, v = p ::ₘ s ∧ q ::ₘ s ≤ w ∧ p ≤ q

namespace BagCovers

variable {v w : Multiset α}

theorem card_le (h : BagCovers w v) : v.card ≤ w.card := by
  rcases h with h | ⟨p, q, s, rfl, h, -⟩
  · exact Multiset.card_le_card h
  · simpa using Multiset.card_le_card h

theorem cons (h : BagCovers w v) (x : α) : BagCovers (x ::ₘ w) (x ::ₘ v) := by
  rcases h with h | ⟨p, q, s, rfl, h, hpq⟩
  · exact .inl (Multiset.cons_le_cons x h)
  · refine .inr ⟨p, q, x ::ₘ s, Multiset.cons_swap x p s, ?_, hpq⟩
    rw [Multiset.cons_swap]
    exact Multiset.cons_le_cons x h

theorem filter (h : BagCovers w v) (c : α) :
    BagCovers (w.filter (c < ·)) (v.filter (c < ·)) := by
  rcases h with h | ⟨p, q, s, rfl, h, hpq⟩
  · exact .inl (Multiset.filter_le_filter _ h)
  · have hle : (q ::ₘ s).filter (c < ·) ≤ w.filter (c < ·) := Multiset.filter_le_filter _ h
    by_cases hp : c < p
    · rw [Multiset.filter_cons_of_pos _ (hp.trans_le hpq)] at hle
      exact .inr ⟨p, q, _, Multiset.filter_cons_of_pos _ hp, hle, hpq⟩
    · rw [Multiset.filter_cons_of_neg _ hp]
      refine .inl (le_trans (Multiset.filter_le_filter _ ?_) hle)
      exact Multiset.le_cons_self s q

end BagCovers

/-! ## An extra arrival

An arrival cuts the window at `hi` and adds `q`; the next one would have cut it at `lo` alone. -/

section Extra

variable {lo hi q : α}

theorem length_takeWhile_add_trim (c : α) (l : List α) :
    (l.takeWhile (· ≤ c)).length + (trim c l).length = l.length := by
  rw [← List.length_append, trim, List.takeWhile_append_dropWhile]

/-- The head of a window after an extra arrival. -/
theorem le_head_trim_append (hq : hi ≤ q) (l : List α) :
    ∀ x ∈ (trim hi l ++ [q]).head?, hi ≤ x := by
  intro x hx
  rcases hl : trim hi l with _ | ⟨y, l'⟩
  · rw [hl] at hx
    cases hx
    exact hq
  · have hy : y ∈ (trim hi l).head? := by rw [hl]; rfl
    rw [hl] at hx
    cases hx
    exact (lt_of_mem_head_trim hy).le

/-- After an extra arrival with a later cut the next one finds the queue as it was left. -/
theorem trim_trim_append (h : lo < hi) (hq : hi ≤ q) (l : List α) :
    trim lo (trim hi l ++ [q]) = trim hi l ++ [q] :=
  trim_of_lt_head fun x hx => h.trans_le (le_head_trim_append hq l x hx)

/-- **An extra arrival that cuts at most one stamp too many is made up for by its own stamp.** -/
theorem covers_extra (h : lo < hi) (hq : hi ≤ q) {l : List α}
    (hone : (l.takeWhile (· ≤ hi)).length ≤ (l.takeWhile (· ≤ lo)).length + 1) :
    Covers (trim lo (trim hi l ++ [q])) (trim lo l) := by
  rw [trim_trim_append h hq]
  have hhi := length_takeWhile_add_trim hi l
  have hlo := length_takeWhile_add_trim lo l
  have hsuf : trim hi l <:+ trim lo l := by
    rw [← trim_trim_of_le h.le l]
    exact trim_suffix hi _
  obtain ⟨m, hm⟩ := hsuf
  have hlen : m.length + (trim hi l).length = (trim lo l).length := by
    rw [← List.length_append, hm]
  rcases m with _ | ⟨p, _ | ⟨p', m⟩⟩
  · rw [← hm]
    exact .of_sublist (List.sublist_append_left _ _)
  · refine .inr ⟨p, trim hi l, hm.symm, List.sublist_append_left _ _, by simp, fun x hx => ?_⟩
    have hp : p ≤ hi := by
      by_contra hp
      -- a stamp above the cut would have stayed
      have hstay : trim hi (trim lo l) = trim lo l := by
        rw [← hm]
        exact trim_cons_of_lt _ (not_le.mp hp)
      rw [trim_trim_of_le h.le] at hstay
      rw [hstay] at hlen
      simp at hlen
    exact hp.trans (le_head_trim_append hq l x hx)
  · simp only [List.length_cons] at hlen
    omega

/-- Exactly then the next arrival counts as much as without it. -/
theorem length_trim_extra_iff (h : lo < hi) (hq : hi ≤ q) {l : List α} :
    (trim lo l).length ≤ (trim lo (trim hi l ++ [q])).length ↔
      (l.takeWhile (· ≤ hi)).length ≤ (l.takeWhile (· ≤ lo)).length + 1 := by
  have hhi := length_takeWhile_add_trim hi l
  have hlo := length_takeWhile_add_trim lo l
  rw [trim_trim_append h hq, List.length_append, List.length_singleton]
  omega

/-- An extra arrival with an earlier cut only adds. -/
theorem covers_extra_of_le (h : hi ≤ lo) (l : List α) :
    Covers (trim lo (trim hi l ++ [q])) (trim lo l) := by
  rw [← trim_trim_of_le h l]
  exact .of_sublist (trim_sublist_trim lo (List.sublist_append_left _ _))

theorem length_takeWhile_mono (h : hi ≤ lo) (l : List α) :
    (l.takeWhile (· ≤ hi)).length ≤ (l.takeWhile (· ≤ lo)).length := by
  have hhi := length_takeWhile_add_trim hi l
  have hlo := length_takeWhile_add_trim lo l
  have hle : (trim lo l).length ≤ (trim hi l).length := by
    rw [← trim_trim_of_le h l]
    exact (trim_sublist lo _).length_le
  omega

/-! The same for bags. -/

variable {b : Multiset α}

theorem filter_extra (h : lo < hi) (hq : hi ≤ q) :
    (q ::ₘ b.filter (hi < ·)).filter (lo < ·) = q ::ₘ b.filter (hi < ·) := by
  rw [Multiset.filter_cons_of_pos _ (h.trans_le hq), Multiset.filter_filter]
  refine congrArg _ (Multiset.filter_congr fun x _ => ?_)
  exact and_iff_right_of_imp h.trans

/-- The stamps between two cuts. -/
theorem filter_split (h : lo < hi) :
    b.filter (lo < ·) = b.filter (fun x => lo < x ∧ x ≤ hi) + b.filter (hi < ·) := by
  rw [← Multiset.filter_add_not (· ≤ hi) (b.filter (lo < ·)), Multiset.filter_filter,
    Multiset.filter_filter]
  refine congrArg₂ _ (Multiset.filter_congr fun x _ => and_comm) (Multiset.filter_congr fun x _ => ?_)
  rw [not_le]
  exact and_iff_left_of_imp h.trans

theorem countP_split (h : lo < hi) :
    b.countP (· ≤ hi) = b.countP (· ≤ lo) + (b.filter fun x => lo < x ∧ x ≤ hi).card := by
  have hlo := Multiset.card_eq_countP_add_countP (· ≤ lo) b
  have hhi := Multiset.card_eq_countP_add_countP (· ≤ hi) b
  have hsplit := congrArg Multiset.card (filter_split (b := b) h)
  simp only [not_le, Multiset.countP_eq_card_filter] at hlo hhi ⊢
  rw [Multiset.card_add] at hsplit
  omega

/-- **An extra arrival that cuts at most one stamp too many is made up for by its own stamp.** -/
theorem bagCovers_extra (h : lo < hi) (hq : hi ≤ q)
    (hone : b.countP (· ≤ hi) ≤ b.countP (· ≤ lo) + 1) :
    BagCovers ((q ::ₘ b.filter (hi < ·)).filter (lo < ·)) (b.filter (lo < ·)) := by
  have hcard : (b.filter fun x => lo < x ∧ x ≤ hi).card ≤ 1 := by
    have := countP_split (b := b) h
    omega
  rw [filter_extra h hq, filter_split h]
  rcases Nat.le_one_iff_eq_zero_or_eq_one.mp hcard with h0 | h1
  · rw [Multiset.card_eq_zero.mp h0, zero_add]
    exact .inl (Multiset.le_cons_self _ _)
  · obtain ⟨p, hp⟩ := Multiset.card_eq_one.mp h1
    have hple : p ≤ hi := by
      have hmem : p ∈ b.filter fun x => lo < x ∧ x ≤ hi := by
        rw [hp]
        exact Multiset.mem_singleton_self p
      exact (Multiset.mem_filter.mp hmem).2.2
    rw [hp]
    exact .inr ⟨p, q, _, rfl, le_rfl, hple.trans hq⟩

theorem card_filter_extra_iff (h : lo < hi) (hq : hi ≤ q) :
    (b.filter (lo < ·)).card ≤ ((q ::ₘ b.filter (hi < ·)).filter (lo < ·)).card ↔
      b.countP (· ≤ hi) ≤ b.countP (· ≤ lo) + 1 := by
  have hc := countP_split (b := b) h
  rw [filter_extra h hq, filter_split h, Multiset.card_add, Multiset.card_cons]
  omega

theorem bagCovers_extra_of_le (h : hi ≤ lo) :
    BagCovers ((q ::ₘ b.filter (hi < ·)).filter (lo < ·)) (b.filter (lo < ·)) := by
  left
  have hf : (b.filter (hi < ·)).filter (lo < ·) = b.filter (lo < ·) := by
    rw [Multiset.filter_filter]
    exact Multiset.filter_congr fun x _ => and_iff_left_of_imp h.trans_lt
  rw [← hf]
  exact Multiset.filter_le_filter _ (Multiset.le_cons_self _ _)

theorem countP_mono (h : hi ≤ lo) : b.countP (· ≤ hi) ≤ b.countP (· ≤ lo) := by
  rw [Multiset.countP_eq_card_filter, Multiset.countP_eq_card_filter]
  exact Multiset.card_le_card (Multiset.monotone_filter_right b fun x hx => hx.trans h)

end Extra

end Window
