import PreauthGateway.Program.Threads

/-!
# Updates that are read and then written

A thread has a list of updates to make. Each reads a cell and later writes back what it makes of the
value it read, with no lock in between, so a write of another thread to the cell in the meantime is
lost. Where each update adds one to the size of the value, the size of a cell tells how many were
lost.

## Main definitions

* `LostUpdate.atomic`: one access of a thread
* `LostUpdate.Fresh`, `LostUpdate.Undisturbed`: a read that no write has followed; every write is
  made on such a read
* `LostUpdate.asked`, `LostUpdate.writes`: the updates of a cell that the threads have to make, and
  those made

## Main results

* `LostUpdate.size_le_writes`: **a cell never counts more than the updates made, and counts them all
  exactly when none was disturbed**
* `LostUpdate.size_le_asked`, `LostUpdate.size_eq_asked_iff`: the same for the updates asked for
* `LostUpdate.asked_run`: which those are
-/

namespace LostUpdate

/-- A thread: the updates it was started with, each a cell and an argument, those it has still to
make, and the value it holds if it has read and not yet written. -/
structure Thread (κ β σ : Type*) where
  call : List (κ × β)
  rest : List (κ × β)
  held : Option σ := none

/-- A thread that starts. -/
def enter {κ β : Type*} (σ : Type*) (call : List (κ × β)) : Thread κ β σ := { call, rest := call }

/-- The accesses, a write with the value written. -/
inductive Access (κ σ : Type*)
  | read (cell : κ)
  | write (cell : κ) (value : σ)

variable {κ β σ : Type*} [DecidableEq κ] (modify : β → σ → σ)

/-- One access of a thread: it reads the cell of its next update, or writes it. -/
def atomic (_ : ℕ) (_ : Unit) (p : Thread κ β σ) (s : κ → σ) :
    Option (Access κ σ × Thread κ β σ × (κ → σ)) :=
  match p.rest, p.held with
  | [], _ => none
  | (k, _) :: _, none => some (.read k, { p with held := some (s k) }, s)
  | (k, b) :: rest, some v =>
    some (.write k (modify b v), { p with rest, held := none }, Function.update s k (modify b v))

/-- The pool after an event. -/
abbrev next : Pool (κ → σ) (Thread κ β σ) (Access κ σ) → Pool.Event (List (κ × β)) Unit →
    Option (Pool (κ → σ) (Thread κ β σ) (Access κ σ)) :=
  Pool.next (enter σ) (atomic modify)

namespace Access

/-- A write to a cell. -/
def isWrite (k : κ) : Access κ σ → Bool
  | read _ => false
  | write k' _ => k' = k

end Access

/-- The number of writes to a cell. -/
def writes (k : κ) (J : List (ℕ × Access κ σ)) : ℕ := J.countP fun e => e.2.isWrite k

/-- The number of writes of a thread to a cell. -/
def writesOf (i : ℕ) (k : κ) (J : List (ℕ × Access κ σ)) : ℕ :=
  J.countP fun e => e.1 = i ∧ e.2.isWrite k = true

/-- The thread has read the cell, and no thread has written it since. -/
def Fresh (J : List (ℕ × Access κ σ)) (i : ℕ) (k : κ) : Prop :=
  ∃ pre mid, J = pre ++ (i, .read k) :: mid ∧ ∀ e ∈ mid, e.2.isWrite k = false

/-- Every write to the cell is made on a fresh read. -/
def Undisturbed (k : κ) (J : List (ℕ × Access κ σ)) : Prop :=
  ∀ pre i v post, J = pre ++ (i, .write k v) :: post → Fresh pre i k

/-- The number of updates of a cell in a list of updates. -/
def onCell (k : κ) (ops : List (κ × β)) : ℕ := ops.countP fun op => op.1 = k

/-- The number of updates of a cell that the threads of a pool were started with. -/
def asked (k : κ) (c : Pool (κ → σ) (Thread κ β σ) (Access κ σ)) : ℕ :=
  (c.threads.map fun p => onCell k p.call).sum

/-! ## One more access -/

section Journal

variable {J : List (ℕ × Access κ σ)} {i j : ℕ} {k : κ} {a : Access κ σ}

@[simp] theorem writes_concat : writes k (J ++ [(i, a)]) = writes k J + (a.isWrite k).toNat := by
  rw [writes, List.countP_append, List.countP_singleton, writes]
  cases a.isWrite k <;> rfl

theorem writesOf_concat : writesOf j k (J ++ [(i, a)]) =
    writesOf j k J + if i = j ∧ a.isWrite k = true then 1 else 0 := by
  rw [writesOf, List.countP_append, List.countP_singleton, writesOf]
  simp only [decide_eq_true_eq]

theorem fresh_read : Fresh (J ++ [(i, .read k)]) i k := ⟨J, [], rfl, by simp⟩

/-- A read stays fresh until a write to the cell. -/
theorem fresh_concat_of_ne (hij : i ≠ j) :
    Fresh (J ++ [(j, a)]) i k ↔ Fresh J i k ∧ a.isWrite k = false := by
  constructor
  · rintro ⟨pre, mid, hJ, hmid⟩
    rcases List.eq_nil_or_concat mid with rfl | ⟨mid, e, rfl⟩
    · have hlast := (List.append_inj' hJ rfl).2
      cases hlast
      exact absurd rfl hij
    · rw [List.concat_eq_append, ← List.cons_append, ← List.append_assoc] at hJ
      obtain ⟨rfl, he⟩ := List.append_inj' hJ rfl
      cases he
      rw [List.concat_eq_append] at hmid
      exact ⟨⟨pre, mid, rfl, fun e he => hmid e (List.mem_append_left _ he)⟩,
        hmid _ (List.mem_append_right _ (List.mem_singleton_self _))⟩
  · rintro ⟨⟨pre, mid, rfl, hmid⟩, ha⟩
    refine ⟨pre, mid ++ [(j, a)], by simp, fun e he => ?_⟩
    rcases List.mem_append.mp he with he | he
    · exact hmid e he
    · rw [List.mem_singleton.mp he]
      exact ha

theorem undisturbed_nil : Undisturbed k ([] : List (ℕ × Access κ σ)) := by
  intro pre i v post h
  cases pre <;> cases h

theorem undisturbed_concat_of_not_write (ha : a.isWrite k = false) :
    Undisturbed k (J ++ [(i, a)]) ↔ Undisturbed k J := by
  constructor
  · rintro h pre j v post rfl
    exact h pre j v (post ++ [(i, a)]) (by simp)
  · intro h pre j v post hJ
    rcases List.eq_nil_or_concat post with rfl | ⟨post, e, rfl⟩
    · have hlast := (List.append_inj' hJ rfl).2
      cases hlast
      simp [Access.isWrite] at ha
    · rw [List.concat_eq_append, ← List.cons_append, ← List.append_assoc] at hJ
      exact h pre j v post (List.append_inj' hJ rfl).1

theorem undisturbed_concat_write {v : σ} :
    Undisturbed k (J ++ [(i, .write k v)]) ↔ Undisturbed k J ∧ Fresh J i k := by
  constructor
  · intro h
    refine ⟨?_, h J i v [] rfl⟩
    rintro pre j w post rfl
    exact h pre j w (post ++ [(i, .write k v)]) (by simp)
  · rintro ⟨h, hi⟩ pre j w post hJ
    rcases List.eq_nil_or_concat post with rfl | ⟨post, e, rfl⟩
    · obtain ⟨rfl, hlast⟩ := List.append_inj' hJ rfl
      cases hlast
      exact hi
    · rw [List.concat_eq_append, ← List.cons_append, ← List.append_assoc] at hJ
      exact h pre j w post (List.append_inj' hJ rfl).1

end Journal

/-! ## The count of a cell -/

/-- The number `m` is at most `n`, and is `n` exactly when `P`. -/
def Reached (m n : ℕ) (P : Prop) : Prop := m ≤ n ∧ (m = n ↔ P)

theorem Reached.congr {m n : ℕ} {P Q : Prop} (h : Reached m n P) (hPQ : P ↔ Q) : Reached m n Q :=
  ⟨h.1, h.2.trans hPQ⟩

theorem Reached.succ {m n : ℕ} {P : Prop} (h : Reached m n P) : Reached (m + 1) (n + 1) P :=
  ⟨Nat.succ_le_succ h.1, Nat.succ_inj.trans h.2⟩

/-- What is not more stays behind. -/
theorem Reached.behind {m n : ℕ} {P Q : Prop} (h : Reached m n P) (hQ : ¬ Q) :
    Reached m (n + 1) Q :=
  ⟨Nat.le_succ_of_le h.1, iff_of_false (Nat.lt_succ_of_le h.1).ne hQ⟩

section Counting

variable {modify} {size : σ → ℕ} {Good : σ → Prop} {Fits : β → Prop} {s₀ : κ → σ} {k : κ}

/-- The cell counts the writes to it, all of them exactly when none was disturbed. -/
def Counted (size : σ → ℕ) (Good : σ → Prop) (s₀ : κ → σ) (k : κ) (J : List (ℕ × Access κ σ))
    (v : σ) (P : Prop) : Prop :=
  Good v ∧ Reached (size v) (size (s₀ k) + writes k J) P

/-- What a thread knows: its updates are those made and those to make, and the value it holds counts
the writes so far, all of them exactly when none was disturbed and its read is fresh. -/
structure Knows (size : σ → ℕ) (Good : σ → Prop) (Fits : β → Prop) (s₀ : κ → σ) (k : κ) (i : ℕ)
    (J : List (ℕ × Access κ σ)) (p : Thread κ β σ) : Prop where
  fits : ∀ b, (k, b) ∈ p.rest → Fits b
  made : writesOf i k J + onCell k p.rest = onCell k p.call
  held : ∀ v b, p.held = some v → p.rest.head? = some (k, b) →
    Counted size Good s₀ k J v (Undisturbed k J ∧ Fresh J i k)

theorem writesOf_eq_zero {i : ℕ} {J : List (ℕ × Access κ σ)} (h : ∀ e ∈ J, e.1 ≠ i) :
    writesOf i k J = 0 := by
  refine List.countP_eq_zero.mpr fun e he => ?_
  simp [h e he]

theorem knows_enter {i : ℕ} {J : List (ℕ × Access κ σ)} {call : List (κ × β)}
    (hnew : ∀ e ∈ J, e.1 ≠ i) (hfits : ∀ b, (k, b) ∈ call → Fits b) :
    Knows size Good Fits s₀ k i J (enter σ call) where
  fits := hfits
  made := by
    rw [writesOf_eq_zero hnew, Nat.zero_add]
    rfl
  held v b hv := by cases hv

/-- The two accesses. -/
theorem atomic_cases {i : ℕ} {x : Unit} {p p' : Thread κ β σ} {a : Access κ σ} {s s' : κ → σ}
    (h : atomic modify i x p s = some (a, p', s')) : ∃ j b rest, p.rest = (j, b) :: rest ∧
      ((p.held = none ∧ a = .read j ∧ p' = { p with held := some (s j) } ∧ s' = s) ∨
        ∃ v, p.held = some v ∧ a = .write j (modify b v) ∧ p' = { p with rest, held := none } ∧
          s' = Function.update s j (modify b v)) := by
  obtain ⟨call, rest, held⟩ := p
  cases rest with
  | nil => cases h
  | cons op rest =>
    cases held with
    | none =>
      cases h
      exact ⟨op.1, op.2, rest, rfl, .inl ⟨rfl, rfl, rfl, rfl⟩⟩
    | some v =>
      cases h
      exact ⟨op.1, op.2, rest, rfl, .inr ⟨v, rfl, rfl, rfl, rfl⟩⟩

/-- An access that does not write the cell leaves its count. -/
theorem Counted.concat {J : List (ℕ × Access κ σ)} {v : σ} {P Q : Prop} {i : ℕ} {a : Access κ σ}
    (h : Counted size Good s₀ k J v P) (ha : a.isWrite k = false) (hPQ : P ↔ Q) :
    Counted size Good s₀ k (J ++ [(i, a)]) v Q := by
  rw [Counted, writes_concat, ha]
  exact ⟨h.1, h.2.congr hPQ⟩

/-- An access keeps the count, and what the thread knows. -/
theorem counted_own
    (hgrow : ∀ b v, Good v → Fits b → Good (modify b v) ∧ size (modify b v) = size v + 1)
    {i : ℕ} {x : Unit} {J : List (ℕ × Access κ σ)} {p p' : Thread κ β σ} {a : Access κ σ}
    {s s' : κ → σ} (hI : Counted size Good s₀ k J (s k) (Undisturbed k J))
    (hA : Knows size Good Fits s₀ k i J p) (h : atomic modify i x p s = some (a, p', s')) :
    Counted size Good s₀ k (J ++ [(i, a)]) (s' k) (Undisturbed k (J ++ [(i, a)])) ∧
      Knows size Good Fits s₀ k i (J ++ [(i, a)]) p' := by
  obtain ⟨j, b, rest, hrest, ⟨hheld, rfl, rfl, rfl⟩ | ⟨v, hheld, rfl, rfl, rfl⟩⟩ := atomic_cases h
  · have hI' : Counted size Good s₀ k (J ++ [(i, Access.read j)]) (s' k)
        (Undisturbed k (J ++ [(i, .read j)])) :=
      hI.concat rfl (undisturbed_concat_of_not_write rfl).symm
    refine ⟨hI', hA.fits, ?_, ?_⟩
    · rw [writesOf_concat, if_neg (by simp [Access.isWrite]), Nat.add_zero]
      exact hA.made
    · intro w b' hw hhead
      rw [hrest] at hhead
      cases hhead
      cases hw
      exact ⟨hI'.1, hI'.2.congr (and_iff_left fresh_read).symm⟩
  · refine ⟨?_, fun b' hb' => hA.fits b' (by rw [hrest]; exact List.mem_cons_of_mem _ hb'), ?_, ?_⟩
    · by_cases hk : j = k
      · subst hk
        obtain ⟨hg, hc⟩ := hA.held v b hheld (by rw [hrest]; rfl)
        obtain ⟨hg', hsize⟩ := hgrow b v hg (hA.fits b (by rw [hrest]; exact List.mem_cons_self))
        have hw : (Access.write j (modify b v)).isWrite j = true := by simp [Access.isWrite]
        rw [Function.update_self, Counted, writes_concat, hsize, hw]
        exact ⟨hg', hc.succ.congr undisturbed_concat_write.symm⟩
      · have hw : (Access.write j (modify b v)).isWrite k = false := by
          simpa [Access.isWrite] using hk
        rw [Function.update_of_ne (Ne.symm hk)]
        exact hI.concat hw (undisturbed_concat_of_not_write hw).symm
    · have hmade := hA.made
      rw [hrest, onCell, List.countP_cons] at hmade
      rw [writesOf_concat, ← hmade]
      simp only [Access.isWrite, decide_eq_true_eq, true_and, onCell]
      omega
    · rintro w b' ⟨⟩

/-- An access of one thread leaves what another knows. -/
theorem knows_other {i j : ℕ} (hij : i ≠ j) {J : List (ℕ × Access κ σ)} {q : Thread κ β σ}
    (a : Access κ σ) (hq : Knows size Good Fits s₀ k j J q) :
    Knows size Good Fits s₀ k j (J ++ [(i, a)]) q where
  fits := hq.fits
  made := by
    rw [writesOf_concat, if_neg fun h => hij h.1, Nat.add_zero]
    exact hq.made
  held v b hv hhead := by
    have hc := hq.held v b hv hhead
    have hfresh := fresh_concat_of_ne (J := J) (k := k) (a := a) (Ne.symm hij)
    cases ha : a.isWrite k with
    | false =>
      refine hc.concat ha ?_
      rw [undisturbed_concat_of_not_write ha, hfresh, ha]
      simp
    | true =>
      -- a write to the cell: the read is no longer fresh
      rw [Counted, writes_concat, ha]
      refine ⟨hc.1, hc.2.behind fun h => ?_⟩
      have hf := (hfresh.mp h.2).2
      rw [ha] at hf
      cases hf

/-- The count holds after every run, and every thread knows what it knows. -/
theorem counted
    (hgrow : ∀ b v, Good v → Fits b → Good (modify b v) ∧ size (modify b v) = size v + 1)
    (hgood : Good (s₀ k)) {es : List (Pool.Event (List (κ × β)) Unit)}
    (hfits : ∀ call, .start call ∈ es → ∀ b, (k, b) ∈ call → Fits b)
    {c : Pool (κ → σ) (Thread κ β σ) (Access κ σ)}
    (h : Runs.run (next modify) { shared := s₀ } es = some c) :
    Pool.Annotated (fun J s => Counted size Good s₀ k J (s k) (Undisturbed k J))
      (fun i J _ p => Knows size Good Fits s₀ k i J p) c := by
  obtain ⟨es', hes⟩ : ∃ es', Runs.run (Pool.next (fun call : {call // _} => enter σ call.1)
      (atomic modify)) { shared := s₀ } es' = Runs.run (next modify) { shared := s₀ } es :=
    Pool.exists_restrict hfits _
  refine Pool.invariant ?_ ?_ ?_ (Pool.annotated_init ?_) (hes.trans h)
  · exact fun i J s call _ hnew => knows_enter hnew call.2
  · exact fun i J s x p a p' s' hI hA h => counted_own hgrow hI hA h
  · exact fun i j J s x p a p' s' q hij _ _ _ hq => knows_other hij a hq
  · exact ⟨hgood, le_rfl, iff_of_true rfl undisturbed_nil⟩

/-- **A cell never counts more than the updates made, and counts them all exactly when none was
disturbed.** -/
theorem size_le_writes
    (hgrow : ∀ b v, Good v → Fits b → Good (modify b v) ∧ size (modify b v) = size v + 1)
    (hgood : Good (s₀ k)) {es : List (Pool.Event (List (κ × β)) Unit)}
    (hfits : ∀ call, .start call ∈ es → ∀ b, (k, b) ∈ call → Fits b)
    {c : Pool (κ → σ) (Thread κ β σ) (Access κ σ)}
    (h : Runs.run (next modify) { shared := s₀ } es = some c) :
    Reached (size (c.shared k)) (size (s₀ k) + writes k c.journal) (Undisturbed k c.journal) :=
  (counted hgrow hgood hfits h).shared.2

/-- The writes to a cell are those of the threads. -/
theorem writes_eq_sum {n : ℕ} {J : List (ℕ × Access κ σ)} (h : ∀ e ∈ J, e.1 < n) :
    writes k J = ∑ i ∈ Finset.range n, writesOf i k J := by
  induction J using List.reverseRecOn with
  | nil => simp [writes, writesOf]
  | append_singleton J e ih =>
    obtain ⟨i, a⟩ := e
    have hi : i < n := h (i, a) (List.mem_append_right _ (List.mem_singleton_self _))
    simp only [writes_concat, writesOf_concat, Finset.sum_add_distrib,
      ih fun e he => h e (List.mem_append_left _ he)]
    cases ha : a.isWrite k with
    | false => simp
    | true => simp [hi]

/-- The threads make no more writes than they were asked for, and as many when all have ended. -/
theorem writes_le_asked {c : Pool (κ → σ) (Thread κ β σ) (Access κ σ)}
    (hknown : ∀ e ∈ c.journal, e.1 < c.threads.length)
    (hmade : ∀ {i p}, c.threads[i]? = some p →
      writesOf i k c.journal + onCell k p.rest = onCell k p.call) :
    writes k c.journal ≤ asked k c ∧
      ((∀ p ∈ c.threads, p.rest = []) → writes k c.journal = asked k c) := by
  have hasked : asked k c = ∑ i : Fin c.threads.length, onCell k c.threads[i].call := by
    rw [asked, ← Fin.sum_univ_getElem]
    refine Fintype.sum_equiv (finCongr (by rw [List.length_map])) _ _ fun i => ?_
    simp
  rw [writes_eq_sum hknown, Finset.sum_range, hasked]
  constructor
  · refine Finset.sum_le_sum fun i _ => ?_
    have h := hmade (List.getElem?_eq_getElem i.2)
    simp only [Fin.getElem_fin]
    omega
  · intro hended
    refine Finset.sum_congr rfl fun i _ => ?_
    have h := hmade (List.getElem?_eq_getElem i.2)
    rw [hended _ (List.getElem_mem i.2)] at h
    exact h

/-- **A cell never counts more than the updates asked for**, also while threads are still
running. -/
theorem size_le_asked
    (hgrow : ∀ b v, Good v → Fits b → Good (modify b v) ∧ size (modify b v) = size v + 1)
    (hgood : Good (s₀ k)) {es : List (Pool.Event (List (κ × β)) Unit)}
    (hfits : ∀ call, .start call ∈ es → ∀ b, (k, b) ∈ call → Fits b)
    {c : Pool (κ → σ) (Thread κ β σ) (Access κ σ)}
    (h : Runs.run (next modify) { shared := s₀ } es = some c) :
    size (c.shared k) ≤ size (s₀ k) + asked k c := by
  have hann := counted hgrow hgood hfits h
  have hle := (writes_le_asked hann.known fun hp => (hann.threads hp).made).1
  have hsize := (size_le_writes hgrow hgood hfits h).1
  omega

/-- **When every thread has ended, a cell counts all updates asked for exactly when none was
disturbed.** -/
theorem size_eq_asked_iff
    (hgrow : ∀ b v, Good v → Fits b → Good (modify b v) ∧ size (modify b v) = size v + 1)
    (hgood : Good (s₀ k)) {es : List (Pool.Event (List (κ × β)) Unit)}
    (hfits : ∀ call, .start call ∈ es → ∀ b, (k, b) ∈ call → Fits b)
    {c : Pool (κ → σ) (Thread κ β σ) (Access κ σ)}
    (h : Runs.run (next modify) { shared := s₀ } es = some c)
    (hended : ∀ p ∈ c.threads, p.rest = []) :
    size (c.shared k) = size (s₀ k) + asked k c ↔ Undisturbed k c.journal := by
  have hann := counted hgrow hgood hfits h
  rw [← (writes_le_asked hann.known fun hp => (hann.threads hp).made).2 hended]
  exact (size_le_writes hgrow hgood hfits h).2

/-- The updates a pool was asked for are those its threads were started with. -/
theorem asked_run {es : List (Pool.Event (List (κ × β)) Unit)}
    {c d : Pool (κ → σ) (Thread κ β σ) (Access κ σ)} (h : Runs.run (next modify) c es = some d) :
    asked k d = asked k c + ((Pool.starts es).map (onCell k)).sum := by
  induction es generalizing c with
  | nil =>
    cases h
    rfl
  | cons e es ih =>
    rw [Runs.run_cons] at h
    obtain ⟨c', hc', h⟩ := Option.bind_eq_some_iff.mp h
    rw [ih h]
    cases e with
    | start call =>
      cases hc'
      rw [asked, asked, List.map_append, List.sum_append, List.map_singleton, List.sum_singleton,
        Pool.starts, List.map_cons, List.sum_cons, Nat.add_assoc]
      rfl
    | step i x =>
      obtain ⟨p, a, p', s, hp, ha, rfl⟩ := Pool.next_step hc'
      have hcall : p'.call = p.call := by
        obtain ⟨j, b, rest, -, ⟨-, -, rfl, -⟩ | ⟨v, -, -, rfl, -⟩⟩ := atomic_cases ha
        · rfl
        · rfl
      obtain ⟨hi, rfl⟩ := List.getElem?_eq_some_iff.mp hp
      have hset : (c.threads.map fun p => onCell k p.call).set i (onCell k c.threads[i].call) =
          c.threads.map fun p => onCell k p.call := by
        rw [← List.map_set (f := fun p : Thread κ β σ => onCell k p.call), List.set_getElem_self]
      rw [asked, asked, List.map_set, hcall, hset, Pool.starts]

end Counting

end LostUpdate
