import Mathlib

/-!
# Machines that reply

A machine answers every action with a reply and goes to its next state. It never refuses.

## Main definitions

* `Machine.after`, `Machine.replies`: the state after, and the replies to, a list of actions
* `Machine.Along`: every action of a list meets a condition on it and the state before it
* `Machine.AtLeast`: one state answers with numbers at least those of another

## Main results

* `Machine.invariant`: what every step preserves holds after every list of actions
* `Machine.along_congr`: conditions that agree under an invariant are met alike
* `Machine.simulation`: a simulation gives the same replies
* `Machine.replies_eq_iff`: two machines reply alike exactly as long as their steps do
* `Machine.atLeast_iff`: when two states that differ for one kind of action answer so
-/

namespace Machine

variable {σ τ α ρ : Type*} (f : σ → α → ρ × σ)

/-- The state after a list of actions. -/
def after (s : σ) (as : List α) : σ := as.foldl (fun s a => (f s a).2) s

/-- The replies to a list of actions. -/
def replies : σ → List α → List ρ
  | _, [] => []
  | s, a :: as => (f s a).1 :: replies (f s a).2 as

/-- Every action meets the condition `P`. -/
def Along (P : σ → α → Prop) (s : σ) (as : List α) : Prop :=
  ∀ pre a post, as = pre ++ a :: post → P (after f s pre) a

@[simp] theorem after_nil (s : σ) : after f s [] = s := rfl

@[simp] theorem after_cons (s : σ) (a : α) (as : List α) :
    after f s (a :: as) = after f (f s a).2 as := rfl

theorem after_append (s : σ) (as bs : List α) :
    after f s (as ++ bs) = after f (after f s as) bs := List.foldl_append

@[simp] theorem after_concat (s : σ) (as : List α) (a : α) :
    after f s (as ++ [a]) = (f (after f s as) a).2 := after_append f s as [a]

@[simp] theorem replies_cons (s : σ) (a : α) (as : List α) :
    replies f s (a :: as) = (f s a).1 :: replies f (f s a).2 as := rfl

theorem replies_append (s : σ) (as bs : List α) :
    replies f s (as ++ bs) = replies f s as ++ replies f (after f s as) bs := by
  induction as generalizing s with
  | nil => rfl
  | cons a as ih => simp [ih]

@[simp] theorem length_replies (s : σ) (as : List α) : (replies f s as).length = as.length := by
  induction as generalizing s with
  | nil => rfl
  | cons a as ih => simp [ih]

/-- Every reply is the answer to one of the actions. -/
theorem exists_of_mem_replies {s : σ} {as : List α} {r : ρ} (h : r ∈ replies f s as) :
    ∃ pre a post, as = pre ++ a :: post ∧ (f (after f s pre) a).1 = r := by
  induction as generalizing s with
  | nil => cases h
  | cons a as ih =>
    rcases List.mem_cons.mp h with rfl | h
    · exact ⟨[], a, as, rfl, rfl⟩
    · obtain ⟨pre, b, post, rfl, hb⟩ := ih h
      exact ⟨a :: pre, b, post, rfl, hb⟩

/-- Every reply, beside its action, is the answer to it of a state the run goes through. -/
theorem exists_of_mem_zip_replies {s : σ} {as : List α} {p : α × ρ}
    (h : p ∈ as.zip (replies f s as)) : ∃ pre, (f (after f s pre) p.1).1 = p.2 := by
  induction as generalizing s with
  | nil => cases h
  | cons a as ih =>
    rw [replies, List.zip_cons_cons] at h
    rcases List.mem_cons.mp h with rfl | h
    · exact ⟨[], rfl⟩
    · obtain ⟨pre, hpre⟩ := ih h
      exact ⟨a :: pre, hpre⟩

/-- A condition on actions and replies holds at most as often as one on the actions that it
implies. -/
theorem countP_zip_replies_le {s : σ} {as : List α} {P : α × ρ → Bool} {Q : α → Bool}
    (h : ∀ p ∈ as.zip (replies f s as), P p = true → Q p.1 = true) :
    (as.zip (replies f s as)).countP P ≤ as.countP Q := by
  have hmap : as.countP Q = (as.zip (replies f s as)).countP (Q ∘ Prod.fst) := by
    rw [← List.countP_map, List.map_fst_zip (length_replies f s as).ge]
  rw [hmap]
  exact List.countP_mono_left h

/-- Actions may be read through a function. -/
theorem replies_map {β : Type*} (φ : β → α) (s : σ) (bs : List β) :
    replies f s (bs.map φ) = replies (fun s b => f s (φ b)) s bs := by
  induction bs generalizing s with
  | nil => rfl
  | cons b bs ih => simp [ih]

variable {f}

theorem along_nil (P : σ → α → Prop) (s : σ) : Along f P s [] := by
  intro pre a post h
  cases pre <;> cases h

theorem along_cons {P : σ → α → Prop} {s : σ} {a : α} {as : List α} :
    Along f P s (a :: as) ↔ P s a ∧ Along f P (f s a).2 as := by
  constructor
  · intro h
    exact ⟨h [] a as rfl, fun pre b post hb => h (a :: pre) b post (by rw [hb]; rfl)⟩
  · rintro ⟨ha, h⟩ pre b post hb
    cases pre with
    | nil =>
      cases hb
      exact ha
    | cons c pre =>
      cases hb
      exact h pre b post rfl

theorem along_append {P : σ → α → Prop} {s : σ} {as bs : List α} :
    Along f P s (as ++ bs) ↔ Along f P s as ∧ Along f P (after f s as) bs := by
  induction as generalizing s with
  | nil => simp [along_nil]
  | cons a as ih => rw [List.cons_append, along_cons, along_cons, ih, and_assoc, after_cons]

/-- A list of actions can be checked. -/
instance decidableAlong (P : σ → α → Prop) [∀ s a, Decidable (P s a)] :
    (s : σ) → (as : List α) → Decidable (Along f P s as)
  | s, [] => isTrue (along_nil P s)
  | s, a :: as =>
    letI := decidableAlong P (f s a).2 as
    decidable_of_iff (P s a ∧ Along f P (f s a).2 as) along_cons.symm

/-- A condition on what came before, at each place of a list. -/
theorem forall_split_iff {P : List α → α → Prop} {as : List α} :
    (∀ pre a post, as = pre ++ a :: post → P pre a) ↔
      ∀ i : Fin as.length, P (as.take i) (as.get i) := by
  constructor
  · intro h i
    exact h _ _ (as.drop (i + 1)) (by simp)
  · rintro h pre a post rfl
    have hi := h ⟨pre.length, by simp⟩
    simpa using hi

/-- **What every step preserves holds after every list of actions.** -/
theorem invariant {P : σ → α → Prop} {I : σ → Prop} (hstep : ∀ s a, I s → P s a → I (f s a).2)
    {s : σ} {as : List α} (h0 : I s) (hP : Along f P s as) : I (after f s as) := by
  induction as generalizing s with
  | nil => exact h0
  | cons a as ih =>
    obtain ⟨ha, hP⟩ := along_cons.mp hP
    exact ih (hstep s a h0 ha) hP

/-- **Two conditions on the steps that agree where an invariant holds are met alike**, when a step
that meets them keeps the invariant. -/
theorem along_congr {P Q : σ → α → Prop} {I : σ → Prop}
    (hiff : ∀ s a, I s → (P s a ↔ Q s a)) (hstep : ∀ s a, I s → Q s a → I (f s a).2)
    {s : σ} {as : List α} (h0 : I s) : Along f P s as ↔ Along f Q s as := by
  induction as generalizing s with
  | nil => exact iff_of_true (along_nil P s) (along_nil Q s)
  | cons a as ih =>
    rw [along_cons, along_cons, hiff s a h0]
    exact and_congr_right fun hQ => ih (hstep s a h0 hQ)

/-- **A simulation gives the same replies**, and relates the states after them. -/
theorem simulation {g : τ → α → ρ × τ} {R : σ → τ → Prop} {V : σ → α → Prop}
    (hstep : ∀ s t a, R s t → V s a → (f s a).1 = (g t a).1 ∧ R (f s a).2 (g t a).2)
    {s : σ} {t : τ} {as : List α} (h : R s t) (hV : Along f V s as) :
    replies f s as = replies g t as ∧ R (after f s as) (after g t as) := by
  induction as generalizing s t with
  | nil => exact ⟨rfl, h⟩
  | cons a as ih =>
    obtain ⟨ha, hV⟩ := along_cons.mp hV
    obtain ⟨hr, hn⟩ := hstep s t a h ha
    obtain ⟨hrs, hns⟩ := ih hn hV
    exact ⟨by rw [replies_cons, replies_cons, hr, hrs], hns⟩

/-- A simulation gives the same reply at every action. -/
theorem simulation_at {g : τ → α → ρ × τ} {R : σ → τ → Prop} {V : σ → α → Prop}
    (hstep : ∀ s t a, R s t → V s a → (f s a).1 = (g t a).1 ∧ R (f s a).2 (g t a).2)
    {s : σ} {t : τ} {as : List α} (h : R s t) (hV : Along f V s as) {pre post : List α} {a : α}
    (he : as = pre ++ a :: post) : (f (after f s pre) a).1 = (g (after g t pre) a).1 := by
  subst he
  obtain ⟨hpre, hrest⟩ := along_append.mp hV
  exact (hstep _ _ a (simulation hstep h hpre).2 (along_cons.mp hrest).1).1

/-- **Two machines reply alike exactly as long as their steps do**: where related states answer
alike exactly under `P`, and stay related when they do. -/
theorem replies_eq_iff {g : τ → α → ρ × τ} {R : σ → τ → Prop} {P : σ → α → Prop}
    {V : σ → α → Prop}
    (hreply : ∀ s t a, R s t → V s a → ((f s a).1 = (g t a).1 ↔ P s a))
    (hstep : ∀ s t a, R s t → V s a → P s a → R (f s a).2 (g t a).2)
    {s : σ} {t : τ} {as : List α} (h : R s t) (hV : Along f V s as) :
    replies f s as = replies g t as ↔ Along f P s as := by
  induction as generalizing s t with
  | nil => exact iff_of_true rfl (along_nil P s)
  | cons a as ih =>
    obtain ⟨ha, hV⟩ := along_cons.mp hV
    rw [along_cons, replies_cons, replies_cons, List.cons.injEq, hreply s t a h ha]
    exact and_congr_right fun hP => ih (hstep s t a h ha hP) hV

/-! ## Two runs of one machine -/

section AtLeast

variable {f : σ → α → Option ℕ × σ} {K : α → Prop}

/-- Every action of the kind `K` is answered from `t` with at least the number it is answered with
from `s`. -/
def AtLeast (f : σ → α → Option ℕ × σ) (K : α → Prop) (s t : σ) (as : List α) : Prop :=
  ∀ pre a post, as = pre ++ a :: post → K a →
    ∃ m n, (f (after f s pre) a).1 = some m ∧ (f (after f t pre) a).1 = some n ∧ m ≤ n

theorem atLeast_cons {s t : σ} {a : α} {as : List α} :
    AtLeast f K s t (a :: as) ↔
      (K a → ∃ m n, (f s a).1 = some m ∧ (f t a).1 = some n ∧ m ≤ n) ∧
        AtLeast f K (f s a).2 (f t a).2 as := by
  constructor
  · intro h
    exact ⟨h [] a as rfl, fun pre b post hb => h (a :: pre) b post (by rw [hb]; rfl)⟩
  · rintro ⟨ha, h⟩ pre b post hb
    cases pre with
    | nil =>
      cases hb
      exact ha
    | cons c pre =>
      cases hb
      exact h pre b post rfl

/-- The comparison of the states of a machine is that of a machine that simulates it. -/
theorem AtLeast.congr {g : τ → α → Option ℕ × τ} {s t : σ} {u w : τ} {as : List α}
    (hs : ∀ pre a post, as = pre ++ a :: post →
      (f (after f s pre) a).1 = (g (after g u pre) a).1)
    (ht : ∀ pre a post, as = pre ++ a :: post →
      (f (after f t pre) a).1 = (g (after g w pre) a).1) :
    AtLeast f K s t as ↔ AtLeast g K u w as := by
  constructor
  · intro h pre a post he hK
    rw [← hs pre a post he, ← ht pre a post he]
    exact h pre a post he hK
  · intro h pre a post he hK
    rw [hs pre a post he, ht pre a post he]
    exact h pre a post he hK

/-- States related by what every step preserves answer so for ever. -/
theorem AtLeast.of_invariant {R : σ → σ → Prop}
    (hreply : ∀ s t a, R s t → K a →
      ∃ m n, (f s a).1 = some m ∧ (f t a).1 = some n ∧ m ≤ n)
    (hstep : ∀ s t a, R s t → R (f s a).2 (f t a).2) {s t : σ} (h : R s t) (as : List α) :
    AtLeast f K s t as := by
  induction as generalizing s t with
  | nil =>
    intro pre a post he
    cases pre <;> cases he
  | cons a as ih => exact atLeast_cons.mpr ⟨hreply s t a h, ih (hstep s t a h)⟩

/-- **Two states that differ for one kind of action answer it so for ever exactly when the first
such action meets `C`.** -/
theorem atLeast_iff [DecidablePred K] {D R : σ → σ → Prop} {C : σ → α → Prop}
    (hskip : ∀ s t a, D s t → ¬ K a →
      D (f s a).2 (f t a).2 ∧ ∀ b, K b → (C (f s a).2 b ↔ C s b))
    (hfirst : ∀ s t a, D s t → K a →
      ((∃ m n, (f s a).1 = some m ∧ (f t a).1 = some n ∧ m ≤ n) ↔ C s a) ∧
        (C s a → R (f s a).2 (f t a).2))
    (hreply : ∀ s t a, R s t → K a →
      ∃ m n, (f s a).1 = some m ∧ (f t a).1 = some n ∧ m ≤ n)
    (hstep : ∀ s t a, R s t → R (f s a).2 (f t a).2) {s t : σ} (h : D s t) (as : List α) :
    AtLeast f K s t as ↔ ∀ a ∈ as.find? K, C s a := by
  induction as generalizing s t with
  | nil =>
    refine iff_of_true (fun pre a post he => ?_) (by simp)
    cases pre <;> cases he
  | cons a as ih =>
    rw [atLeast_cons]
    -- the first action of the kind decides, and from then on `R` holds
    by_cases ha : K a
    · obtain ⟨hiff, hrel⟩ := hfirst s t a h ha
      rw [List.find?_cons_of_pos (by simpa using ha)]
      constructor
      · rintro ⟨hcmp, -⟩ b hb
        cases hb
        exact hiff.mp (hcmp ha)
      · intro hC
        exact ⟨fun _ => hiff.mpr (hC a rfl), .of_invariant hreply hstep (hrel (hC a rfl)) as⟩
    · obtain ⟨hD, hC⟩ := hskip s t a h ha
      rw [List.find?_cons_of_neg (by simpa using ha), ih hD]
      constructor
      · rintro ⟨-, hall⟩ b hb
        exact (hC b (by simpa using List.find?_some hb)).mp (hall b hb)
      · intro hall
        exact ⟨fun h => absurd h ha, fun b hb =>
          (hC b (by simpa using List.find?_some hb)).mpr (hall b hb)⟩

end AtLeast

end Machine
