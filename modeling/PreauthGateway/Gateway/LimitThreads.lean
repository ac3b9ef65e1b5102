import PreauthGateway.Gateway.RateLimit
import PreauthGateway.Velocity.CounterThreads
import PreauthGateway.Window.Skew

/-!
# The velocity limit under threads

A request carries its time when it comes to the gateway, and is counted when its thread gets the
lock of the counter. So the counter sees the times of a card out of order, by a skew that the
threads decide. Up to this skew the limit is exact, whatever the interleaving.

## Main definitions

* `Served`, `Served.In`: a thread with its request and the answers it got
* `LetThrough`: a request of a card in a window that was counted and not declined for it

## Main results

* `SafeCounter.countP_events_lt`, `SafeCounter.le_countP_events`: a count, between two windows
* `Gateway.threads_at_most_twelve`: **no window shorter by the skew lets more than twelve through**
* `Gateway.threads_declined`: **a request is declined for the limit only when thirteen came** in a
  window longer by the skew
-/

/-! ## What a call is answered when the times are skewed -/

namespace SafeCounter

section Skewed

variable {W : ℕ} {key : PyStr} {ops : List CounterOp}

theorem countP_events (p : ℤ → Bool) (ops : List CounterOp) :
    (events key ops).countP p = ops.countP fun op => op.increments key && p op.nowMs := by
  induction ops with
  | nil => rfl
  | cons op ops ih =>
    rw [show events key (op :: ops) = events key [op] ++ events key ops from
      events_append [op] ops, List.countP_append, ih, List.countP_cons, add_comm]
    cases op with
    | incrAndCount k nowMs =>
      by_cases hk : k = key <;> simp [CounterOp.increments, CounterOp.nowMs, events, hk]
    | count k nowMs => simp [CounterOp.increments, events]

/-- The queue of a key holds what was added under it, in order. -/
theorem data_sublist_events :
    ((Machine.after step { windowMs := W } ops).data key).Sublist (events key ops) := by
  induction ops using List.reverseRecOn with
  | nil => exact List.Sublist.refl _
  | append_singleton ops op ih =>
    rw [Machine.after_concat, events_append]
    by_cases hk : key = op.key
    · subst hk
      rw [data_step_self (available_after _ ops)]
      exact ((Window.trim_sublist _ _).trans ih).append (List.Sublist.refl _)
    · rw [data_step_of_ne hk, events_of_ne hk, List.append_nil]
      exact ih

/-- The queue holds every timestamp after a mark that no call has cut above. -/
theorem filter_data {b : ℤ} (h : ∀ t ∈ stamps key ops, t ≤ b + W) :
    ((Machine.after step { windowMs := W } ops).data key).filter (b < ·) =
      (events key ops).filter (b < ·) := by
  induction ops using List.reverseRecOn with
  | nil => rfl
  | append_singleton ops op ih =>
    have hops := ih fun t ht => h t (by rw [stamps_append]; exact List.mem_append_left _ ht)
    rw [Machine.after_concat, events_append, List.filter_append]
    by_cases hk : key = op.key
    · subst hk
      have hcut : op.nowMs - (Machine.after step { windowMs := W } ops).windowMs ≤ b := by
        have hop : op.nowMs ≤ b + W := h _ (by
          rw [stamps_append, stamps_self]
          exact List.mem_append_right _ (List.mem_singleton_self _))
        rw [windowMs_after]
        dsimp only
        omega
      rw [data_step_self (available_after _ ops), List.filter_append, popExpired,
        Window.filter_trim hcut, hops]
    · rw [data_step_of_ne hk, hops, events_of_ne hk, List.filter_nil, List.append_nil]

variable {nowMs : ℤ} {n δ : ℕ}

/-- **A call counts what came in the window shorter by the skew.** -/
theorem countP_events_lt (hskew : ∀ t ∈ stamps key ops, t ≤ nowMs + δ) {T : ℤ}
    (hT : nowMs ≤ T + (W - δ))
    (hn : ((Machine.after step { windowMs := W } ops).step (.incrAndCount key nowMs)).1 = some n) :
    (events key ops).countP (T < ·) < n := by
  have hcut : nowMs - (Machine.after step { windowMs := W } ops).windowMs ≤ T := by
    rw [windowMs_after]
    dsimp only
    omega
  have hkept := filter_data (W := W) (b := T) fun t ht => (hskew t ht).trans (by omega)
  rw [step, incrAndCount_fst (available_after _ ops)] at hn
  have hle : (events key ops).countP (T < ·) ≤
      ((Machine.after step { windowMs := W } ops).popExpired key nowMs).length := by
    rw [List.countP_eq_length_filter, ← hkept, ← Window.filter_trim hcut, popExpired]
    exact List.length_filter_le _ _
  have := Option.some.inj hn
  omega

/-- **A call counts nothing that came before the window longer by the skew.** -/
theorem le_countP_events (hskew : Window.Skewed (δ : ℤ) (stamps key ops))
    (hn : ((Machine.after step { windowMs := W } ops).step (.incrAndCount key nowMs)).1 = some n) :
    n ≤ (events key ops).countP (nowMs - W - δ < ·) + 1 := by
  rw [step, incrAndCount_fst (available_after _ ops)] at hn
  have hsub : ((Machine.after step { windowMs := W } ops).popExpired key nowMs).Sublist
      ((events key ops).filter (nowMs - W - δ < ·)) := by
    have hdata : ((Machine.after step { windowMs := W } ops).data key).Sublist (events key ops) :=
      data_sublist_events
    have hall : ((Machine.after step { windowMs := W } ops).popExpired key nowMs).filter
        (nowMs - W - δ < ·) = (Machine.after step { windowMs := W } ops).popExpired key nowMs := by
      refine List.filter_eq_self.mpr fun t ht => decide_eq_true ?_
      have hlt := Window.lt_of_mem_trim (Int.natCast_nonneg δ)
        (hskew.sublist (hdata.trans (events_sublist ops))) ht
      rw [windowMs_after] at hlt
      dsimp only at hlt
      omega
    rw [← hall]
    exact ((Window.trim_sublist _ _).trans hdata).filter _
  have := hsub.length_le
  rw [← List.countP_eq_length_filter] at this
  have := Option.some.inj hn
  omega

/-- A call of the key, at a time in `(T, T + w]`, that is answered at most `L`. -/
def Low (L : ℕ) (key : PyStr) (T w : ℤ) (p : CounterOp × Option ℕ) : Bool :=
  p.1.increments key ∧ T < p.1.nowMs ∧ p.1.nowMs ≤ T + w ∧ p.2 ≠ none ∧ ¬ exceeds L p.2

/-- **Of the calls in a window shorter by the skew, at most `L` are answered at most `L`.** -/
theorem countP_low_le (hskew : Window.Skewed (δ : ℤ) (stamps key ops)) (L : ℕ) (T : ℤ) :
    (ops.zip (Machine.replies step { windowMs := W } ops)).countP (Low L key T (W - δ)) ≤ L := by
  induction ops using List.reverseRecOn with
  | nil => simp
  | append_singleton ops op ih =>
    have hlen : ops.length = (Machine.replies step { windowMs := W } ops).length :=
      (Machine.length_replies _ _ _).symm
    rw [stamps_append] at hskew
    have hops := ih (hskew.sublist (List.sublist_append_left _ _))
    rw [Machine.replies_append, List.zip_append hlen, List.countP_append]
    by_cases hp : Low L key T (W - δ)
        (op, ((Machine.after step { windowMs := W } ops).step op).1) = true
    swap
    · have hz : ([op].zip (Machine.replies step (Machine.after step { windowMs := W } ops)
          [op])).countP (Low L key T (W - δ)) = 0 := by
        simp [Machine.replies, hp]
      rw [hz]
      exact hops
    simp only [Low, decide_eq_true_eq] at hp
    obtain ⟨hincr, -, hhi, hsome, hlow⟩ := hp
    obtain ⟨nowMs, rfl⟩ := CounterOp.increments_iff.mp hincr
    obtain ⟨n, hn⟩ := Option.ne_none_iff_exists'.mp hsome
    have hle : ∀ t ∈ stamps key ops, t ≤ nowMs + δ := fun t ht =>
      (List.pairwise_append.mp hskew).2.2 t ht nowMs (by
        rw [show stamps key [CounterOp.incrAndCount key nowMs] = [nowMs] from stamps_self _]
        exact List.mem_singleton_self _)
    have hcount := countP_events_lt hle hhi hn
    have hnL : n ≤ L := not_lt.mp fun hlt => hlow ⟨n, hn, hlt⟩
    have hearlier : (ops.zip (Machine.replies step { windowMs := W } ops)).countP
        (Low L key T (W - δ)) ≤ (events key ops).countP (T < ·) := by
      rw [countP_events]
      refine Machine.countP_zip_replies_le step fun p _ hp => ?_
      simp only [Low, decide_eq_true_eq] at hp
      simp [hp.1, hp.2.1]
    have hone : ([CounterOp.incrAndCount key nowMs].zip (Machine.replies step
        (Machine.after step { windowMs := W } ops) [.incrAndCount key nowMs])).countP
          (Low L key T (W - δ)) ≤ 1 := List.countP_le_length
    omega

end Skewed

end SafeCounter

/-! ## What the threads of the service let through -/

/-- A thread of the service, its request, and what its dependencies answered. -/
structure Served where
  thread : ℕ
  request : Request
  answers : Answers

/-- The thread has counted the request, and the count is among the answers. -/
def Served.In (c : CounterPool) (d : Served) : Prop :=
  c.threads[d.thread]? =
    some (.done (.incrAndCount (cardKey d.request.cardId) d.request.nowMs) d.answers.count)

/-- A request of the card, at a time in `(T, T + w]`, that reached the counter while the store was
available, and receives another outcome than the decline with the reason `velocity_exceeded`. -/
def LetThrough (threshold : PyFloat) (card : PyStr) (T w : ℤ) (d : Served) : Prop :=
  d.request.cardId = card ∧ d.request.Admitted ∧ T < d.request.nowMs ∧ d.request.nowMs ≤ T + w ∧
    d.answers.count ≠ none ∧
    ¬ ((ruling d.request threshold d.answers).decision = .decline ∧
      Reason.velocityExceeded ∈ (ruling d.request threshold d.answers).reasons)

instance (threshold : PyFloat) (card : PyStr) (T w : ℤ) (d : Served) :
    Decidable (LetThrough threshold card T w d) :=
  inferInstanceAs (Decidable (_ ∧ _))

section Ruling

variable {req : Request} {threshold : PyFloat} {a : Answers}

/-- A request whose count exceeds the limit is declined for it. -/
theorem ruling_exceeds (hadm : req.Admitted) (he : exceeds 12 a.count) :
    ruling req threshold a = ⟨.decline, .rules, none, a.velocityReasons ++ [.velocityExceeded]⟩ := by
  rw [ruling, if_neg (not_not.mpr hadm.1), if_neg hadm.2, if_pos he]

/-- Only the limit declines under the source `rules`. -/
theorem exceeds_of_source_rules (h : (ruling req threshold a).source = .rules) :
    exceeds 12 a.count := by
  by_contra he
  unfold ruling at h
  rw [if_neg he] at h
  split at h
  · cases h
  split at h
  · cases h
  split at h
  · cases h
  split at h <;> cases h

end Ruling

/-- The calls of the threads, in the order of the lock. -/
def CounterPool.calls (c : CounterPool) : List CounterOp := (Mutex.taken c.journal).map Prod.snd

/-- No call of the card came to the lock more than `δ` behind an earlier one, by the times of the
requests. -/
def SkewedPerCard (δ : ℕ) (card : PyStr) (c : CounterPool) : Prop :=
  Window.Skewed (δ : ℤ) (stamps (cardKey card) c.calls)

/-- A call that ends before the lock returns no count. -/
theorem counterCode_check {op : CounterOp} {x : Bool} {r : Option ℕ} (h : r ≠ none) :
    counterCode.check x op ≠ some r := by
  rintro hx
  simp only [counterCode] at hx
  split at hx
  · split at hx <;> cases hx
    exact h rfl
  · cases hx

namespace Gateway

variable {W δ : ℕ} {es : List (Pool.Event CounterOp Bool)} {c : CounterPool}

/-- **The limit, under threads.** Whatever the interleaving: when no call of the card comes to the
lock more than `δ` behind an earlier one, then of the requests of the card in any window
`(T, T + W - δ]` that are counted at most twelve are let through. -/
theorem threads_at_most_twelve
    (h : Runs.run (Mutex.next counterCode) { shared := { value := { windowMs := W } } } es = some c)
    {card : PyStr} (hskew : SkewedPerCard δ card c) {ds : List Served}
    (hthreads : (ds.map Served.thread).Nodup) (hin : ∀ d ∈ ds, d.In c) (threshold : PyFloat)
    (T : ℤ) : ds.countP (LetThrough threshold card T (W - δ)) ≤ 12 := by
  have hlin : Mutex.Linearized counterCode SafeCounter.step { windowMs := W } c :=
    Mutex.linearizable SafeCounter.implements rfl h
  have hlow := SafeCounter.countP_low_le (W := W) hskew 12 T
  refine le_trans ?_ hlow
  rw [List.countP_eq_length_filter, ← List.length_map Served.thread]
  refine hlin.length_le (hthreads.sublist (List.filter_sublist.map _)) ?_
  intro i hi
  obtain ⟨d, hd, rfl⟩ := List.mem_map.mp hi
  obtain ⟨hmem, hlet⟩ := List.mem_filter.mp hd
  obtain ⟨rfl, hadm, hlo, hhi, hsome, hnot⟩ := of_decide_eq_true hlet
  refine ⟨_, _, hin d hmem, fun x => counterCode_check hsome, decide_eq_true ?_⟩
  refine ⟨CounterOp.increments_iff.mpr ⟨_, rfl⟩, hlo, hhi, hsome, fun he => hnot ?_⟩
  rw [ruling_exceeds hadm he]
  exact ⟨rfl, List.mem_append_right _ (List.mem_singleton_self _)⟩

/-- **The limit declines no one else.** Whatever the interleaving: when a request is declined for
the limit, at least thirteen calls of its card came to the lock with times in the window that is
longer by the skew at both ends. -/
theorem threads_declined
    (h : Runs.run (Mutex.next counterCode) { shared := { value := { windowMs := W } } } es = some c)
    {d : Served} (hin : d.In c) (hskew : SkewedPerCard δ d.request.cardId c) {threshold : PyFloat}
    (hdeclined : (ruling d.request threshold d.answers).source = .rules) :
    13 ≤ c.calls.countP fun op => op.increments (cardKey d.request.cardId) ∧
      d.request.nowMs - W - δ < op.nowMs ∧ op.nowMs ≤ d.request.nowMs + δ := by
  have hlin : Mutex.Linearized counterCode SafeCounter.step { windowMs := W } c :=
    Mutex.linearizable SafeCounter.implements rfl h
  obtain ⟨n, hn, hlt⟩ := exceeds_of_source_rules hdeclined
  have hn : d.answers.count = some n := hn
  rw [Served.In, hn] at hin
  rcases hlin.replies hin with ⟨-, x, hx⟩ | ⟨pre, post, ht, hr⟩
  · exact absurd hx (counterCode_check (Option.some_ne_none n))
  have hcalls : c.calls = pre.map Prod.snd ++
      .incrAndCount (cardKey d.request.cardId) d.request.nowMs :: post.map Prod.snd := by
    rw [CounterPool.calls, ht, List.map_append, List.map_cons]
  rw [SkewedPerCard, hcalls, stamps_append] at hskew
  have hcount := SafeCounter.le_countP_events (hskew.sublist (List.sublist_append_left _ _)) hr.symm
  -- those it counts came earlier, so no more than the skew after it
  have hupper : ∀ op ∈ pre.map Prod.snd, op.increments (cardKey d.request.cardId) = true →
      op.nowMs ≤ d.request.nowMs + δ := by
    intro op hop hincr
    obtain ⟨t, rfl⟩ := CounterOp.increments_iff.mp hincr
    exact (List.pairwise_append.mp hskew).2.2 t (mem_stamps.mpr ⟨_, hop, rfl, rfl⟩) _
      (mem_stamps.mpr ⟨_, List.mem_cons_self, rfl, rfl⟩)
  have hpre : (events (cardKey d.request.cardId) (pre.map Prod.snd)).countP
      (d.request.nowMs - W - δ < ·) ≤ (pre.map Prod.snd).countP fun op =>
        op.increments (cardKey d.request.cardId) ∧ d.request.nowMs - W - δ < op.nowMs ∧
          op.nowMs ≤ d.request.nowMs + δ := by
    rw [SafeCounter.countP_events]
    refine List.countP_mono_left fun op hop hp => ?_
    rw [Bool.and_eq_true, decide_eq_true_eq] at hp
    exact decide_eq_true ⟨hp.1, hp.2, hupper op hop hp.1⟩
  have htwelve : 12 ≤ (pre.map Prod.snd).countP fun op =>
      op.increments (cardKey d.request.cardId) ∧ d.request.nowMs - W - δ < op.nowMs ∧
        op.nowMs ≤ d.request.nowMs + δ := by
    omega
  -- the window is not empty, so it holds the call itself
  obtain ⟨op, -, hop⟩ := List.countP_pos_iff.mp (Nat.lt_of_lt_of_le (by decide) htwelve)
  obtain ⟨-, hlo, hhi⟩ := of_decide_eq_true hop
  rw [hcalls, List.countP_append, List.countP_cons_of_pos]
  · omega
  · refine decide_eq_true ⟨CounterOp.increments_iff.mpr ⟨_, rfl⟩, ?_, ?_⟩
    · rw [CounterOp.nowMs]
      omega
    · rw [CounterOp.nowMs]
      omega

/-- A request at the time `nowMs`, counted by a thread. -/
def servedBy (thread : ℕ) (nowMs : ℤ) (count : ℕ) : Served where
  thread
  request := (idleCall [] 7000 nowMs).request
  answers := ⟨some count, ⟨[], .ofRat 1, true, true⟩, true, none⟩

/-- Two requests of a card, of which the later one comes to the lock first. -/
def outOfOrder : List (Pool.Event CounterOp Bool) :=
  [.start (.incrAndCount (cardKey []) 1000), .start (.incrAndCount (cardKey []) 1001),
    .step 0 true] ++ List.replicate 6 (.step 1 true) ++ List.replicate 5 (.step 0 true)

theorem threads_at_most_twelve_outOfOrder : ∃ c : CounterPool,
    Runs.run (Mutex.next counterCode) { shared := { value := { windowMs := 60000 } } } outOfOrder =
        some c ∧
      c.calls = [.incrAndCount (cardKey []) 1001, .incrAndCount (cardKey []) 1000] ∧
      [servedBy 0 1000 2, servedBy 1 1001 1].countP
        (LetThrough (.ofRat (3 / 4)) [] 0 ((60000 : ℕ) - (1 : ℕ))) ≤ 12 := by
  obtain ⟨c, hrun, hthreads, hcalls⟩ : ∃ c : CounterPool,
      Runs.run (Mutex.next counterCode) { shared := { value := { windowMs := 60000 } } } outOfOrder =
          some c ∧
        c.threads = [.done (.incrAndCount (cardKey []) 1000) (some 2),
          .done (.incrAndCount (cardKey []) 1001) (some 1)] ∧
        c.calls = [.incrAndCount (cardKey []) 1001, .incrAndCount (cardKey []) 1000] :=
    ⟨_, rfl, rfl, rfl⟩
  refine ⟨c, hrun, hcalls, threads_at_most_twelve hrun ?_ (by decide) ?_ _ 0⟩
  · rw [SkewedPerCard, hcalls, Window.Skewed]
    decide +kernel
  · intro d hd
    rw [Served.In, hthreads]
    rcases List.mem_cons.mp hd with rfl | hd
    · rfl
    · rw [List.mem_singleton.mp hd]
      rfl

/-- Thirteen requests of a card at one time, each after the other. -/
def thirteen : List (Pool.Event CounterOp Bool) :=
  (List.range 13).flatMap fun i =>
    .start (.incrAndCount (cardKey []) 1000) :: List.replicate 6 (.step i true)

theorem threads_declined_thirteen : ∃ c : CounterPool,
    Runs.run (Mutex.next counterCode) { shared := { value := { windowMs := 60000 } } } thirteen =
        some c ∧
      (ruling (servedBy 12 1000 13).request (.ofRat (3 / 4)) (servedBy 12 1000 13).answers).decision =
        .decline ∧
      13 ≤ c.calls.countP fun op => op.increments (cardKey []) ∧
        (1000 : ℤ) - (60000 : ℕ) - (0 : ℕ) < op.nowMs ∧ op.nowMs ≤ (1000 : ℤ) + (0 : ℕ) := by
  obtain ⟨c, hrun, hthread, hcalls⟩ : ∃ c : CounterPool,
      Runs.run (Mutex.next counterCode) { shared := { value := { windowMs := 60000 } } } thirteen =
          some c ∧
        c.threads[12]? = some (.done (.incrAndCount (cardKey []) 1000) (some 13)) ∧
        c.calls = List.replicate 13 (.incrAndCount (cardKey []) 1000) :=
    ⟨_, rfl, rfl, rfl⟩
  have hskew : SkewedPerCard 0 [] c := by
    rw [SkewedPerCard, hcalls, Window.Skewed]
    decide +kernel
  have hsource : (ruling (servedBy 12 1000 13).request (.ofRat (3 / 4))
      (servedBy 12 1000 13).answers).source = .rules := by decide +kernel
  exact ⟨c, hrun, by decide +kernel, threads_declined (d := servedBy 12 1000 13) hrun hthread hskew
    hsource⟩

end Gateway
