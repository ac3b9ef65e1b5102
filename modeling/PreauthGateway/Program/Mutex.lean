import PreauthGateway.Program.Machine
import PreauthGateway.Program.Threads

/-!
# Threads and one lock

A call looks once at what the lock does not guard, and may end there. Otherwise it waits for the
lock, works on the guarded value in any number of single accesses, and releases the lock with its
reply. Threads take their steps in any order. The lock orders the calls: whatever the interleaving,
they are answered as by a machine that takes each call whole, in the order in which they took the
lock.

## Main definitions

* `Mutex.Code`, `Mutex.atomic`: the code of the calls, and one access of a thread
* `Mutex.Ends`, `Mutex.Implements`: the body of a call, with no other thread in between, and what it
  does on the way to the same end
* `Mutex.taken`: the calls that took the lock, in order

## Main results

* `Mutex.linearizable`: **every interleaving answers as the machine does** in the order of the lock
* `Mutex.midway`: what the value is at any moment
* `Mutex.taken_prefix`: the order only grows at its end, so it keeps that of real time
-/

namespace Mutex

/-- What the threads share: the guarded value, and the thread that holds the lock. -/
structure Guarded (σ : Type*) where
  value : σ
  holder : Option ℕ := none

/-- The code of a call `κ`: what it does before it takes the lock, a reply `ρ` ending it there; its
locals when it has the lock; and one access of its body to the guarded value. Each access has a
reading `ι` of what the lock does not guard. -/
structure Code (ι κ ℓ σ ρ : Type*) where
  check : ι → κ → Option ρ
  enter : κ → ℓ
  body : ι → ℓ → σ → σ × (ℓ ⊕ ρ)

/-- Where a thread is in its call. -/
inductive Phase (κ ℓ ρ : Type*)
  | entered (call : κ)
  | waiting (call : κ)
  | inside (call : κ) (locals : ℓ)
  | leaving (call : κ) (reply : ρ)
  | done (call : κ) (reply : ρ)

/-- The kinds of access. -/
inductive Access (κ : Type*)
  | check
  | acquire (call : κ)
  | work
  | release

variable {ι κ ℓ σ ρ : Type*} (code : Code ι κ ℓ σ ρ)

/-- One access of a thread; while another thread holds the lock, `acquire` has to wait. -/
def atomic (i : ℕ) (x : ι) : Phase κ ℓ ρ → Guarded σ →
    Option (Access κ × Phase κ ℓ ρ × Guarded σ)
  | .entered call, s =>
    match code.check x call with
    | some r => some (.check, .done call r, s)
    | none => some (.check, .waiting call, s)
  | .waiting call, s =>
    if s.holder = none then
      some (.acquire call, .inside call (code.enter call), { s with holder := some i })
    else none
  | .inside call l, s =>
    match code.body x l s.value with
    | (v, .inl l') => some (.work, .inside call l', { s with value := v })
    | (v, .inr r) => some (.work, .leaving call r, { s with value := v })
  | .leaving call r, s => some (.release, .done call r, { s with holder := none })
  | .done _ _, _ => none

/-- The pool after an event. -/
abbrev next : Pool (Guarded σ) (Phase κ ℓ ρ) (Access κ) → Pool.Event κ ι →
    Option (Pool (Guarded σ) (Phase κ ℓ ρ) (Access κ)) :=
  Pool.next Phase.entered (atomic code)

/-- The body, alone with the value, ends with a reply and leaves a value, whatever it reads. -/
inductive Ends (body : ι → ℓ → σ → σ × (ℓ ⊕ ρ)) : ℓ → σ → ρ × σ → Prop
  | last {l : ℓ} {s s' : σ} {r : ρ} (h : ∀ x, body x l s = (s', .inr r)) : Ends body l s (r, s')
  | step {l l' : ℓ} {s s' : σ} {o : ρ × σ} (h : ∀ x, body x l s = (s', .inl l'))
      (hrest : Ends body l' s' o) : Ends body l s o

/-- The calls that took the lock, in order, each with its thread. -/
def taken (J : List (ℕ × Access κ)) : List (ℕ × κ) :=
  J.filterMap fun e =>
    match e.2 with
    | .acquire call => some (e.1, call)
    | _ => none

@[simp] theorem taken_nil : taken ([] : List (ℕ × Access κ)) = [] := rfl

@[simp] theorem taken_acquire (J : List (ℕ × Access κ)) (i : ℕ) (call : κ) :
    taken (J ++ [(i, .acquire call)]) = taken J ++ [(i, call)] := by
  simp [taken]

@[simp] theorem taken_check (J : List (ℕ × Access κ)) (i : ℕ) :
    taken (J ++ [(i, .check)]) = taken J := by
  simp [taken]

@[simp] theorem taken_work (J : List (ℕ × Access κ)) (i : ℕ) :
    taken (J ++ [(i, .work)]) = taken J := by
  simp [taken]

@[simp] theorem taken_release (J : List (ℕ × Access κ)) (i : ℕ) :
    taken (J ++ [(i, .release)]) = taken J := by
  simp [taken]

theorem mem_journal_of_mem_taken {J : List (ℕ × Access κ)} {e : ℕ × κ} (h : e ∈ taken J) :
    ∃ a, (e.1, a) ∈ J := by
  obtain ⟨⟨i, a⟩, ha, he⟩ := List.mem_filterMap.mp h
  cases a with
  | acquire call =>
    cases he
    exact ⟨_, ha⟩
  | check => cases he
  | work => cases he
  | release => cases he

/-! ## What one access does -/

/-- The accesses of thread `i` on a reading `x`. -/
inductive Moves (i : ℕ) (x : ι) :
    Phase κ ℓ ρ → Guarded σ → Access κ → Phase κ ℓ ρ → Guarded σ → Prop
  | refuse {call r s} (h : code.check x call = some r) :
    Moves i x (.entered call) s .check (.done call r) s
  | pass {call s} (h : code.check x call = none) :
    Moves i x (.entered call) s .check (.waiting call) s
  | acquire {call s} (h : s.holder = none) :
    Moves i x (.waiting call) s (.acquire call) (.inside call (code.enter call))
      { s with holder := some i }
  | work {call l s v l'} (h : code.body x l s.value = (v, .inl l')) :
    Moves i x (.inside call l) s .work (.inside call l') { s with value := v }
  | finish {call l s v r} (h : code.body x l s.value = (v, .inr r)) :
    Moves i x (.inside call l) s .work (.leaving call r) { s with value := v }
  | release {call r s} :
    Moves i x (.leaving call r) s .release (.done call r) { s with holder := none }

variable {code}

/-- An access is one of them. -/
theorem moves_of_atomic {i : ℕ} {x : ι} {p p' : Phase κ ℓ ρ} {s s' : Guarded σ} {a : Access κ}
    (h : atomic code i x p s = some (a, p', s')) : Moves code i x p s a p' s' := by
  cases p with
  | entered call =>
    rw [atomic] at h
    split at h
    · cases h
      exact .refuse ‹_›
    · cases h
      exact .pass ‹_›
  | waiting call =>
    rw [atomic] at h
    split at h
    · cases h
      exact .acquire ‹_›
    · cases h
  | inside call l =>
    rw [atomic] at h
    split at h
    · cases h
      exact .work ‹_›
    · cases h
      exact .finish ‹_›
  | leaving call r =>
    cases h
    exact .release
  | done call r => cases h

/-! ## The order of the lock -/

section Order

variable (op : σ → κ → ρ × σ) (s₀ : σ)

/-- The value after the calls that took the lock, each taken whole. -/
def settled (T : List (ℕ × κ)) : σ := Machine.after op s₀ (T.map Prod.snd)

/-- When no thread holds the lock, the value is settled; each call took the lock once. -/
structure Ordered (J : List (ℕ × Access κ)) (s : Guarded σ) : Prop where
  once : ((taken J).map Prod.fst).Nodup
  free : s.holder = none → s.value = settled op s₀ (taken J)
  held : ∀ i, s.holder = some i → ∃ pre call, taken J = pre ++ [(i, call)]

/-- The body of a call does what the machine does with the call, on valid values. While it is at
`l`, the value `v` and the value `s` that it began with meet `Mid`. -/
structure Implements (code : Code ι κ ℓ σ ρ) (op : σ → κ → ρ × σ) (Valid : σ → Prop)
    (Mid : σ → κ → ℓ → σ → Prop) : Prop where
  keep : ∀ s call, Valid s → Valid (op s call).2
  enter : ∀ s call, Valid s → Mid s call (code.enter call) s
  work : ∀ {s call l x v v' l'}, Mid s call l v → code.body x l v = (v', .inl l') → Mid s call l' v'
  finish : ∀ {s call l x v v' r}, Mid s call l v → code.body x l v = (v', .inr r) → (r, v') = op s call

/-- What a thread knows: before it has the lock, that it does not have it; with the lock, that its
call is the last in the order, and how far it is; after it, that its reply is that of its place in
the order. -/
def Knows (code : Code ι κ ℓ σ ρ) (Mid : σ → κ → ℓ → σ → Prop) (i : ℕ) (J : List (ℕ × Access κ))
    (s : Guarded σ) : Phase κ ℓ ρ → Prop
  | .entered _ => i ∉ (taken J).map Prod.fst
  | .waiting _ => i ∉ (taken J).map Prod.fst
  | .inside call l => s.holder = some i ∧ ∃ pre, taken J = pre ++ [(i, call)] ∧
      Mid (settled op s₀ pre) call l s.value
  | .leaving call r => s.holder = some i ∧ ∃ pre, taken J = pre ++ [(i, call)] ∧
      (r, s.value) = op (settled op s₀ pre) call
  | .done call r => s.holder ≠ some i ∧
      ((i ∉ (taken J).map Prod.fst ∧ ∃ x, code.check x call = some r) ∨
        ∃ pre post, taken J = pre ++ (i, call) :: post ∧ r = (op (settled op s₀ pre) call).1)

end Order

section Linearizable

variable {op : σ → κ → ρ × σ} {s₀ : σ} {Valid : σ → Prop} {Mid : σ → κ → ℓ → σ → Prop}

/-- A body that alone ends as the machine does implements it. -/
theorem implements_of_ends (hkeep : ∀ s call, Valid s → Valid (op s call).2)
    (hbody : ∀ s call, Valid s → Ends code.body (code.enter call) s (op s call)) :
    Implements code op Valid fun s call l v => Ends code.body l v (op s call) where
  keep := hkeep
  enter := hbody
  work {s call l x v v' l'} hends hb := by
    generalize op s call = o at hends ⊢
    cases hends with
    | last h => cases hb.symm.trans (h x)
    | step h hrest =>
      cases hb.symm.trans (h x)
      exact hrest
  finish {s call l x v v' r} hends hb := by
    generalize op s call = o at hends ⊢
    cases hends with
    | last h =>
      cases hb.symm.trans (h x)
      rfl
    | step h hrest => cases hb.symm.trans (h x)

theorem settled_concat (T : List (ℕ × κ)) (i : ℕ) (call : κ) :
    settled op s₀ (T ++ [(i, call)]) = (op (settled op s₀ T) call).2 := by
  rw [settled, List.map_append, List.map_singleton, Machine.after_concat, settled]

/-- What a machine keeps valid is valid when it is settled. -/
theorem settled_valid (hkeep : ∀ s call, Valid s → Valid (op s call).2)
    (h₀ : Valid s₀) (T : List (ℕ × κ)) : Valid (settled op s₀ T) :=
  Machine.invariant (P := fun _ _ => True) (fun s call h _ => hkeep s call h) h₀
    fun _ _ _ _ => trivial

/-- The holder of the lock has taken it. -/
theorem Ordered.mem_taken {J : List (ℕ × Access κ)} {s : Guarded σ} {i : ℕ} (h : Ordered op s₀ J s)
    (hi : s.holder = some i) : i ∈ (taken J).map Prod.fst := by
  obtain ⟨pre, call, hp⟩ := h.held i hi
  rw [hp, List.map_append]
  exact List.mem_append_right _ (List.mem_singleton.mpr rfl)

/-- An access that takes no lock and gives none back keeps the order. -/
theorem Ordered.of_taken {J J' : List (ℕ × Access κ)} {s s' : Guarded σ} (h : Ordered op s₀ J s)
    (hJ : taken J' = taken J) (hs : s'.holder = s.holder)
    (hv : s.holder = none → s'.value = s.value) : Ordered op s₀ J' s' where
  once := by
    rw [hJ]
    exact h.once
  free hfree := by
    rw [hs] at hfree
    rw [hv hfree, hJ]
    exact h.free hfree
  held i hi := by
    rw [hs] at hi
    rw [hJ]
    exact h.held i hi

/-- An access keeps the order, and what the thread knows. -/
theorem ordered_own (himpl : Implements code op Valid Mid) (h₀ : Valid s₀)
    {i : ℕ} {J : List (ℕ × Access κ)} {s s' : Guarded σ} {x : ι} {p p' : Phase κ ℓ ρ} {a : Access κ}
    (hI : Ordered op s₀ J s) (hA : Knows op s₀ code Mid i J s p) (h : Moves code i x p s a p' s') :
    Ordered op s₀ (J ++ [(i, a)]) s' ∧ Knows op s₀ code Mid i (J ++ [(i, a)]) s' p' := by
  cases h with
  | @refuse call r _ hc =>
    refine ⟨hI.of_taken (taken_check J i) rfl fun _ => rfl, ?_, .inl ⟨?_, x, hc⟩⟩
    · exact fun hi => hA (hI.mem_taken hi)
    · rw [taken_check]
      exact hA
  | @pass call _ hc =>
    refine ⟨hI.of_taken (taken_check J i) rfl fun _ => rfl, ?_⟩
    rw [Knows, taken_check]
    exact hA
  | @acquire call _ hfree =>
    refine ⟨⟨?_, ?_, ?_⟩, rfl, taken J, taken_acquire J i call, ?_⟩
    · rw [taken_acquire, List.map_append, List.map_singleton, List.nodup_append]
      refine ⟨hI.once, List.nodup_singleton i, ?_⟩
      rintro j hj k hk rfl
      rw [List.mem_singleton.mp hk] at hj
      exact hA hj
    · rintro ⟨⟩
    · rintro j ⟨⟩
      exact ⟨taken J, call, taken_acquire J i call⟩
    · rw [show ({ s with holder := some i } : Guarded σ).value = s.value from rfl, hI.free hfree]
      exact himpl.enter _ call (settled_valid himpl.keep h₀ _)
  | @work call l _ v l' hb =>
    obtain ⟨hi, pre, hpre, hmid⟩ := hA
    refine ⟨hI.of_taken (taken_work J i) rfl fun hfree => ?_, hi, pre, ?_, himpl.work hmid hb⟩
    · exact absurd (hi.symm.trans hfree) (Option.some_ne_none i)
    · rw [taken_work]
      exact hpre
  | @finish call l _ v r hb =>
    obtain ⟨hi, pre, hpre, hmid⟩ := hA
    refine ⟨hI.of_taken (taken_work J i) rfl fun hfree => ?_, hi, pre, ?_, himpl.finish hmid hb⟩
    · exact absurd (hi.symm.trans hfree) (Option.some_ne_none i)
    · rw [taken_work]
      exact hpre
  | @release call r _ =>
    obtain ⟨hi, pre, hpre, hr⟩ := hA
    refine ⟨⟨?_, ?_, ?_⟩, ?_, .inr ⟨pre, [], ?_, ?_⟩⟩
    · rw [taken_release]
      exact hI.once
    · intro _
      rw [taken_release, hpre, settled_concat, ← hr]
    · rintro j ⟨⟩
    · rintro ⟨⟩
    · rw [taken_release]
      exact hpre
    · rw [← hr]

/-- A thread that starts has made no access yet. -/
theorem knows_start {i : ℕ} {J : List (ℕ × Access κ)} (s : Guarded σ) (call : κ)
    (hnew : ∀ e ∈ J, e.1 ≠ i) : Knows op s₀ code Mid i J s (.entered call) := by
  intro hmem
  obtain ⟨e, he, rfl⟩ := List.mem_map.mp hmem
  obtain ⟨a, ha⟩ := mem_journal_of_mem_taken he
  exact hnew _ ha rfl

/-- An access of one thread leaves what another knows. -/
theorem knows_other {i j : ℕ} (hij : i ≠ j) {J : List (ℕ × Access κ)} {s s' : Guarded σ} {x : ι}
    {p p' q : Phase κ ℓ ρ} {a : Access κ} (hA : Knows op s₀ code Mid i J s p)
    (h : Moves code i x p s a p' s') (hq : Knows op s₀ code Mid j J s q) :
    Knows op s₀ code Mid j (J ++ [(i, a)]) s' q := by
  cases h with
  | refuse hc => cases q <;> simpa only [Knows, taken_check] using hq
  | pass hc => cases q <;> simpa only [Knows, taken_check] using hq
  | @acquire call _ hfree =>
    have hout : j ∉ (taken J).map Prod.fst →
        j ∉ (taken (J ++ [(i, Access.acquire call)])).map Prod.fst := by
      intro hj hmem
      rw [taken_acquire, List.map_append, List.map_singleton] at hmem
      rcases List.mem_append.mp hmem with hmem | hmem
      · exact hj hmem
      · exact hij (List.mem_singleton.mp hmem).symm
    cases q with
    | entered c => exact hout hq
    | waiting c => exact hout hq
    | inside c l => exact absurd (hfree.symm.trans hq.1) (Option.some_ne_none j).symm
    | leaving c r => exact absurd (hfree.symm.trans hq.1) (Option.some_ne_none j).symm
    | done c r =>
      refine ⟨fun h => hij (Option.some.inj h), hq.2.imp (And.imp_left hout) ?_⟩
      rintro ⟨pre, post, hpre, hr⟩
      exact ⟨pre, post ++ [(i, call)], by rw [taken_acquire, hpre]; simp, hr⟩
  | work hb =>
    have hne : s.holder ≠ some j := fun h => hij (Option.some.inj (hA.1.symm.trans h))
    cases q with
    | inside c l => exact absurd hq.1 hne
    | leaving c r => exact absurd hq.1 hne
    | _ => simpa only [Knows, taken_work] using hq
  | finish hb =>
    have hne : s.holder ≠ some j := fun h => hij (Option.some.inj (hA.1.symm.trans h))
    cases q with
    | inside c l => exact absurd hq.1 hne
    | leaving c r => exact absurd hq.1 hne
    | _ => simpa only [Knows, taken_work] using hq
  | release =>
    have hne : s.holder ≠ some j := fun h => hij (Option.some.inj (hA.1.symm.trans h))
    cases q with
    | inside c l => exact absurd hq.1 hne
    | leaving c r => exact absurd hq.1 hne
    | done c r =>
      refine ⟨by rintro ⟨⟩, ?_⟩
      rw [taken_release]
      exact hq.2
    | _ => simpa only [Knows, taken_release] using hq

/-- What holds of a pool in which every call is answered as by the machine `op` from `s₀`. -/
structure Linearized (code : Code ι κ ℓ σ ρ) (op : σ → κ → ρ × σ) (s₀ : σ)
    (c : Pool (Guarded σ) (Phase κ ℓ ρ) (Access κ)) : Prop where
  /-- Each call takes the lock at most once. -/
  once : ((taken c.journal).map Prod.fst).Nodup
  /-- A reply is that before the lock, or the machine's at the place of the call in the order. -/
  replies : ∀ {i call r}, c.threads[i]? = some (.done call r) →
    (i ∉ (taken c.journal).map Prod.fst ∧ ∃ x, code.check x call = some r) ∨
      ∃ pre post, taken c.journal = pre ++ (i, call) :: post ∧
        r = (op (settled op s₀ pre) call).1
  /-- The calls of the order are threads of the pool. -/
  known : ∀ e ∈ taken c.journal, e.1 < c.threads.length
  /-- Between the calls, the value is the machine's. -/
  value : c.shared.holder = none → c.shared.value = settled op s₀ (taken c.journal)
  /-- When every thread has ended, no thread holds the lock. -/
  ended : (∀ p ∈ c.threads, ∃ call r, p = .done call r) → c.shared.holder = none

/-- The order and what the threads know hold after every run. -/
theorem annotated (himpl : Implements code op Valid Mid) (h₀ : Valid s₀)
    {es : List (Pool.Event κ ι)} {c : Pool (Guarded σ) (Phase κ ℓ ρ) (Access κ)}
    (h : Runs.run (next code) { shared := { value := s₀ } } es = some c) :
    Pool.Annotated (Ordered op s₀) (Knows op s₀ code Mid) c := by
  have hinit : Ordered op s₀ [] { value := s₀ } := ⟨List.nodup_nil, fun _ => rfl, by rintro i ⟨⟩⟩
  exact Pool.invariant (fun _ _ s call _ hnew => knows_start s call hnew)
    (fun _ _ _ _ _ _ _ _ hI hA h => ordered_own himpl h₀ hI hA (moves_of_atomic h))
    (fun _ _ _ _ _ _ _ _ _ _ hij _ hA h hq => knows_other hij hA (moves_of_atomic h) hq)
    (Pool.annotated_init hinit) h

/-- The calls of the order are threads of the pool. -/
theorem lt_of_mem_taken {I : List (ℕ × Access κ) → Guarded σ → Prop}
    {A : ℕ → List (ℕ × Access κ) → Guarded σ → Phase κ ℓ ρ → Prop}
    {c : Pool (Guarded σ) (Phase κ ℓ ρ) (Access κ)} (h : Pool.Annotated I A c) {e : ℕ × κ}
    (he : e ∈ taken c.journal) : e.1 < c.threads.length := by
  obtain ⟨a, ha⟩ := mem_journal_of_mem_taken he
  exact h.known _ ha

/-- **Whatever the interleaving, the calls are answered as by the machine in the order in which they
took the lock.** -/
theorem linearizable (himpl : Implements code op Valid Mid) (h₀ : Valid s₀)
    {es : List (Pool.Event κ ι)} {c : Pool (Guarded σ) (Phase κ ℓ ρ) (Access κ)}
    (h : Runs.run (next code) { shared := { value := s₀ } } es = some c) :
    Linearized code op s₀ c := by
  have hann := annotated himpl h₀ h
  have hdone : ∀ {i call r}, c.threads[i]? = some (.done call r) →
      Knows op s₀ code Mid i c.journal c.shared (.done call r) := fun hp => hann.threads hp
  refine ⟨hann.shared.once, fun hp => (hdone hp).2, fun e he => lt_of_mem_taken hann he,
    hann.shared.free, fun hall => ?_⟩
  by_contra hheld
  obtain ⟨i, hi⟩ := Option.ne_none_iff_exists'.mp hheld
  obtain ⟨e, he, rfl⟩ := List.mem_map.mp (hann.shared.mem_taken hi)
  have hlt : e.1 < c.threads.length := lt_of_mem_taken hann he
  obtain ⟨call', r, hp⟩ := hall _ (List.getElem_mem hlt)
  exact (hdone (by rw [List.getElem?_eq_getElem hlt, hp])).1 hi

/-- **At every moment** the value is settled, or the last call of the order is under way on the
value that the others left, or has just ended. -/
theorem midway (himpl : Implements code op Valid Mid) (h₀ : Valid s₀)
    {es : List (Pool.Event κ ι)} {c : Pool (Guarded σ) (Phase κ ℓ ρ) (Access κ)}
    (h : Runs.run (next code) { shared := { value := s₀ } } es = some c) :
    c.shared.value = settled op s₀ (taken c.journal) ∨
      ∃ pre i call l, taken c.journal = pre ++ [(i, call)] ∧
        c.threads[i]? = some (.inside call l) ∧ Mid (settled op s₀ pre) call l c.shared.value := by
  have hann := annotated himpl h₀ h
  cases hh : c.shared.holder with
  | none => exact .inl (hann.shared.free hh)
  | some i =>
    have htaken := hann.shared.mem_taken hh
    obtain ⟨e, he, rfl⟩ := List.mem_map.mp htaken
    obtain ⟨p, hp⟩ : ∃ p, c.threads[e.1]? = some p :=
      ⟨_, List.getElem?_eq_getElem (lt_of_mem_taken hann he)⟩
    have hknows := hann.threads hp
    cases p with
    | entered call => exact absurd htaken hknows
    | waiting call => exact absurd htaken hknows
    | inside call l =>
      obtain ⟨-, pre, hpre, hmid⟩ := hknows
      exact .inr ⟨pre, e.1, call, l, hpre, hp, hmid⟩
    | leaving call r =>
      obtain ⟨-, pre, hpre, hr⟩ := hknows
      left
      rw [hpre, settled_concat, ← hr]
    | done call r => exact absurd hh hknows.1

/-- A thread that ended in the order is there with its own call, at one place only. -/
theorem Linearized.place {c : Pool (Guarded σ) (Phase κ ℓ ρ) (Access κ)}
    (h : Linearized code op s₀ c) {pre post : List (ℕ × κ)} {e : ℕ × κ} {call : κ} {r : ρ}
    (ht : taken c.journal = pre ++ e :: post) (hp : c.threads[e.1]? = some (.done call r)) :
    call = e.2 ∧ r = (op (settled op s₀ pre) call).1 := by
  have hnodup := h.once
  rcases h.replies hp with ⟨hout, -⟩ | ⟨pre', post', ht', hr⟩
  · refine absurd ?_ hout
    rw [ht, List.map_append, List.map_cons]
    exact List.mem_append_right _ List.mem_cons_self
  · rw [ht', List.map_append, List.map_cons] at hnodup
    have heq := ht.symm.trans ht'
    have hpre : pre = pre' ∧ e = (e.1, call) := by
      rcases List.append_eq_append_iff.mp heq with ⟨m, rfl, hm⟩ | ⟨m, rfl, hm⟩
      · cases m with
        | nil => exact ⟨(List.append_nil _).symm, (List.cons.inj hm).1⟩
        | cons d m =>
          obtain ⟨rfl, rfl⟩ := List.cons.inj hm
          refine absurd hnodup fun h => ?_
          simp [List.nodup_append] at h
      · cases m with
        | nil => exact ⟨List.append_nil _, (List.cons.inj hm).1.symm⟩
        | cons d m =>
          obtain ⟨rfl, rfl⟩ := List.cons.inj hm
          refine absurd hnodup fun h => ?_
          simp [List.nodup_append] at h
    refine ⟨(congrArg Prod.snd hpre.2).symm, ?_⟩
    rw [hpre.1]
    exact hr

/-- A reply under the lock stands beside its call among the replies of the machine. -/
theorem Linearized.mem_zip {c : Pool (Guarded σ) (Phase κ ℓ ρ) (Access κ)}
    (h : Linearized code op s₀ c) {i : ℕ} {call : κ} {r : ρ}
    (hp : c.threads[i]? = some (.done call r)) (hlock : ∀ x, code.check x call ≠ some r) :
    ((i, call), r) ∈ (taken c.journal).zip
      (Machine.replies op s₀ ((taken c.journal).map Prod.snd)) := by
  rcases h.replies hp with ⟨-, x, hx⟩ | ⟨pre, post, ht, rfl⟩
  · exact absurd hx (hlock x)
  · have hlen : pre.length = (Machine.replies op s₀ (pre.map Prod.snd)).length := by simp
    rw [ht, List.map_append, List.map_cons, Machine.replies_append, Machine.replies_cons,
      List.zip_append hlen, List.zip_cons_cons]
    exact List.mem_append_right _ List.mem_cons_self

/-- **Threads that were answered under the lock are no more than the calls of the machine that are
answered so.** -/
theorem Linearized.length_le {c : Pool (Guarded σ) (Phase κ ℓ ρ) (Access κ)}
    (h : Linearized code op s₀ c) {P : κ × ρ → Bool} {is : List ℕ} (hnodup : is.Nodup)
    (hdone : ∀ i ∈ is, ∃ call r, c.threads[i]? = some (.done call r) ∧
      (∀ x, code.check x call ≠ some r) ∧ P (call, r) = true) :
    is.length ≤ (((taken c.journal).map Prod.snd).zip
      (Machine.replies op s₀ ((taken c.journal).map Prod.snd))).countP P := by
  rw [List.zip_map_left, List.countP_map, List.countP_eq_length_filter]
  have hsub : is ⊆ (((taken c.journal).zip
      (Machine.replies op s₀ ((taken c.journal).map Prod.snd))).filter
        (P ∘ Prod.map Prod.snd id)).map fun e => e.1.1 := by
    intro i hi
    obtain ⟨call, r, hp, hlock, hP⟩ := hdone i hi
    exact List.mem_map.mpr ⟨((i, call), r), List.mem_filter.mpr ⟨h.mem_zip hp hlock, hP⟩, rfl⟩
  exact (hnodup.subperm hsub).length_le.trans_eq (List.length_map _)

/-- The order only grows at its end: a call that took the lock stands before those that take it
later. -/
theorem taken_prefix {es : List (Pool.Event κ ι)}
    {c c' : Pool (Guarded σ) (Phase κ ℓ ρ) (Access κ)} (h : Runs.run (next code) c es = some c') :
    taken c.journal <+: taken c'.journal := by
  refine Runs.preserved (P := fun d => taken c.journal <+: taken d.journal) ?_ List.prefix_rfl h
  intro d e d' hd hn
  cases e with
  | start call =>
    cases hn
    exact hd
  | step i x =>
    obtain ⟨p, a, p', s, -, -, rfl⟩ := Pool.next_step hn
    refine hd.trans ?_
    rw [show taken (d.journal ++ [(i, a)]) = taken d.journal ++ taken [(i, a)] from
      List.filterMap_append]
    exact List.prefix_append _ _

end Linearizable

end Mutex
