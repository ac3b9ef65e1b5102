import PreauthGateway.Velocity.Agreement

/-!
# One counter for the other

The service takes either counter. Over one Redis client whose keys outlive their use the two return
the same counts as long as no event that has left the window arrived behind one that has not; and
where the timestamps of each key do not decrease both return the number of events in the window,
even if the server deletes a key when its deadline has passed.

## Main definitions

* `KeysAlive`: the server's clock does not go back for a key, and no key is used after its deadline
* `InStep`: between two calls of a key the server's clock advances by no more than the timestamp
* `windowCounts`: the number of events in the window at each call

## Main results

* `interchangeable_iff`: when the two counters return the same counts
* `counters_count_window`: on ordered timestamps both return the number of events in the window
-/

variable {σ : Type*}

/-! ## When keys live -/

section Renewed

variable {W : ℕ} {key : PyStr} {ops : List (ℤ × CounterOp)}

/-- The time of the last `incr_and_count` of a key. -/
def renewedAt (key : PyStr) (ops : List (ℤ × CounterOp)) : Option ℤ :=
  (ops.filter fun a => a.2 = .incrAndCount key a.2.nowMs).getLast?.map Prod.fst

/-- No call of a key is earlier than the one before, or later than the deadline of the key. -/
def KeysAlive (W : ℕ) (ops : List (ℤ × CounterOp)) : Prop :=
  ∀ pre a post, ops = pre ++ a :: post →
    (∀ b ∈ pre, b.2.key = a.2.key → b.1 ≤ a.1) ∧ ∀ x ∈ renewedAt a.2.key pre, a.1 < x + W

instance (W : ℕ) (ops : List (ℤ × CounterOp)) : Decidable (KeysAlive W ops) :=
  decidable_of_iff _ Machine.forall_split_iff.symm

theorem renewed_after : (Machine.after ScoreLog.step { windowMs := W } ops).renewed key =
    renewedAt key ops := by
  induction ops using List.reverseRecOn with
  | nil => rfl
  | append_singleton ops a ih =>
    obtain ⟨clock, op⟩ := a
    rw [Machine.after_concat, renewedAt, List.filter_append]
    cases op with
    | incrAndCount k nowMs =>
      by_cases hk : key = k
      · subst hk
        simp [ScoreLog.step, CounterOp.nowMs]
      · have hne : (CounterOp.incrAndCount k nowMs) ≠ .incrAndCount key nowMs := by
          intro h
          cases h
          exact hk rfl
        rw [ScoreLog.renewed_step_of_ne _ hk, ih]
        simp [renewedAt, CounterOp.nowMs, hne]
    | count k nowMs =>
      have hne : (CounterOp.count k nowMs) ≠ .incrAndCount key nowMs := by
        intro h
        cases h
      show (Machine.after ScoreLog.step { windowMs := W } ops).renewed key = _
      rw [ih]
      simp [renewedAt, CounterOp.nowMs, hne]

theorem clock_after {c : ℤ}
    (h : c ∈ (Machine.after ScoreLog.step { windowMs := W } ops).clock key) :
    ∃ b ∈ ops, b.2.key = key ∧ b.1 = c := by
  induction ops using List.reverseRecOn with
  | nil => cases h
  | append_singleton ops a ih =>
    obtain ⟨clock, op⟩ := a
    rw [Machine.after_concat] at h
    by_cases hk : key = op.key
    · subst hk
      rw [ScoreLog.clock_step_self] at h
      cases h
      exact ⟨(c, op), by simp, rfl, rfl⟩
    · rw [ScoreLog.clock_step_of_ne _ hk] at h
      obtain ⟨b, hb, hbk⟩ := ih h
      exact ⟨b, List.mem_append_left _ hb, hbk⟩

/-- A run of calls in which every key lives forgets nothing. -/
theorem unforgotten_of_keysAlive (h : KeysAlive W ops) :
    Machine.Along ScoreLog.step ScoreLog.Unforgotten { windowMs := W } ops := by
  intro pre a post he
  obtain ⟨hclock, hdeadline⟩ := h pre a post he
  refine ⟨fun c hc => ?_, .inl fun x hx => ?_⟩
  · obtain ⟨b, hb, hk, rfl⟩ := clock_after hc
    exact hclock b hb hk
  · rw [ScoreLog.windowMs_after]
    exact hdeadline x (renewed_after ▸ hx)

end Renewed

/-! ## The same counts -/

section Interchange

variable {R : Redis σ} {v : RedisVelocity} {s : σ} {ops : List (ℤ × CounterOp)}

/-- **The two counters return the same counts exactly while no live event that a cutoff removes
arrived behind one that it keeps.** -/
theorem interchangeable_iff (hav : v.available = true)
    (hempty : ∀ key clock, R.zset s clock (v.storeKey key) = ∅) (hsmall : SmallStamps ops)
    (halive : KeysAlive v.windowMs ops) :
    Machine.replies SafeCounter.step { windowMs := v.windowMs } (ops.map Prod.snd) =
        Machine.replies (RedisVelocity.step R) (v, s) ops ↔
      ∀ pre op post, ops.map Prod.snd = pre ++ op :: post → FrontFirst v.windowMs pre op := by
  have hlog := (RedisVelocity.replies_eq hav hempty (unforgotten_of_keysAlive halive)).1
  rw [← hlog, eq_comm]
  exact replies_scoreLog_iff hsmall

instance (W : ℕ) (pre : List CounterOp) (op : CounterOp) : Decidable (FrontFirst W pre op) :=
  inferInstanceAs (Decidable (List.Pairwise _ _))

/-- Two events of a key that came out of order have left the window when it is counted again. -/
def outOfOrder : List (ℤ × CounterOp) :=
  [(0, .incrAndCount [] 100000), (1000, .incrAndCount [] 99000),
    (1500, .incrAndCount (PyStr.ofString "b") 99500), (31000, .incrAndCount [] 130000),
    (66000, .incrAndCount [] 165000), (66500, .count [] 164000)]

theorem interchangeable_iff_outOfOrder :
    Machine.replies SafeCounter.step { windowMs := 60000 } (outOfOrder.map Prod.snd) =
        [some 1, some 2, some 1, some 3, some 2, some 2] ∧
      Machine.replies SafeCounter.step { windowMs := 60000 } (outOfOrder.map Prod.snd) =
        Machine.replies (RedisVelocity.step Redis.inMemory) ({}, Redis.empty) outOfOrder := by
  refine ⟨by decide +kernel, (interchangeable_iff (v := {}) rfl
    (fun key clock => Redis.zset_empty clock _) ?_ ?_).mpr ?_⟩
  · show ∀ a ∈ outOfOrder, _
    decide +kernel
  · decide +kernel
  · exact Machine.forall_split_iff.mpr (by decide +kernel)

/-- **An event that has left the window, behind one that has not**: the queue counts it, the sorted
set does not. -/
theorem late_event_counts_differ :
    Machine.replies SafeCounter.step { windowMs := 60000 }
        [.incrAndCount [] 100000, .incrAndCount [] 35000, .incrAndCount [] 100001] =
      [some 1, some 2, some 3] ∧
    Machine.replies (RedisVelocity.step Redis.inMemory) ({}, Redis.empty)
        [(0, .incrAndCount [] 100000), (1, .incrAndCount [] 35000), (2, .incrAndCount [] 100001)] =
      [some 1, some 2, some 2] := by
  constructor <;> decide +kernel

end Interchange

/-! ## Counts in the window -/

section WindowCount

variable {W : ℕ} {ops : List CounterOp}

/-- The timestamps of each key do not decrease. -/
def Ordered (ops : List CounterOp) : Prop :=
  ops.Pairwise fun a b => a.key = b.key → a.nowMs ≤ b.nowMs

/-- Between two calls of a key the server's clock advances by no more than the timestamp, and does
not go back. -/
def InStep (ops : List (ℤ × CounterOp)) : Prop :=
  ops.Pairwise fun a b => a.2.key = b.2.key →
    a.1 ≤ b.1 ∧ b.1 - a.1 ≤ b.2.nowMs - a.2.nowMs

/-- The number of events in the window at each call, with those of the calls `pre` before. -/
def windowCounts (W : ℕ) : List CounterOp → List CounterOp → List (Option ℕ)
  | _, [] => []
  | pre, op :: ops =>
    some ((events op.key (pre ++ [op])).filter fun t => op.nowMs - W < t).length ::
      windowCounts W (pre ++ [op]) ops

theorem Ordered.stamps (h : Ordered ops) (key : PyStr) : (stamps key ops).Pairwise (· ≤ ·) := by
  refine List.Pairwise.map _ (fun _ _ hab => hab) ?_
  rw [List.pairwise_filter]
  exact h.imp fun hab ha hb => hab ((of_decide_eq_true ha).trans (of_decide_eq_true hb).symm)

/-- What a call returns when the timestamps so far are ordered. -/
theorem SafeCounter.step_eq_windowCount (hW : 0 < W) {op : CounterOp} (h : Ordered (ops ++ [op])) :
    ((Machine.after SafeCounter.step { windowMs := W } ops).step op).1 =
      some ((events op.key (ops ++ [op])).filter fun t => op.nowMs - W < t).length := by
  have hst : (stamps op.key ops ++ [op.nowMs]).Pairwise (· ≤ ·) := by
    have hall := h.stamps op.key
    rwa [stamps_append, stamps_self] at hall
  rw [SafeCounter.step_fst (SafeCounter.available_after _ ops),
    SafeCounter.popExpired_after hW hst, events_append, List.filter_append, List.length_append]
  have hself : (events op.key [op]).filter (fun t => op.nowMs - W < t) = events op.key [op] := by
    refine List.filter_eq_self.mpr fun t ht => ?_
    rw [eq_nowMs_of_mem_events ht]
    simpa using hW
  rw [hself]

theorem SafeCounter.replies_eq_windowCounts (hW : 0 < W) (pre : List CounterOp)
    (h : Ordered (pre ++ ops)) :
    Machine.replies SafeCounter.step (Machine.after SafeCounter.step { windowMs := W } pre) ops =
      windowCounts W pre ops := by
  induction ops generalizing pre with
  | nil => rfl
  | cons op ops ih =>
    have h' : Ordered ((pre ++ [op]) ++ ops) := by simpa using h
    rw [Machine.replies_cons, windowCounts, step_eq_windowCount hW (List.pairwise_append.mp h').1,
      ← ih _ h', Machine.after_concat]

/-! ### The server's clock against the timestamps -/

section InStep

variable {ops : List (ℤ × CounterOp)} {key : PyStr}

theorem InStep.ordered (h : InStep ops) : Ordered (ops.map Prod.snd) := by
  rw [Ordered, List.pairwise_map]
  refine h.imp fun hab hk => ?_
  obtain ⟨hc, hd⟩ := hab hk
  omega

theorem exists_mem_of_mem_events {t : ℤ} (h : t ∈ events key (ops.map Prod.snd)) :
    ∃ b ∈ ops, b.2 = .incrAndCount key t := by
  induction ops with
  | nil => cases h
  | cons b ops ih =>
    obtain ⟨clock, op⟩ := b
    have hsplit : t ∈ events key [op] ++ events key (ops.map Prod.snd) := by
      rw [← events_append]
      exact h
    rcases List.mem_append.mp hsplit with ht | ht
    · refine ⟨(clock, op), List.mem_cons_self, ?_⟩
      cases op with
      | incrAndCount k nowMs =>
        by_cases hk : k = key
        · subst hk
          rw [events_incrAndCount, List.mem_singleton] at ht
          rw [ht]
        · have hne : key ≠ (CounterOp.incrAndCount k nowMs).key := Ne.symm hk
          rw [events_of_ne hne] at ht
          cases ht
      | count k nowMs => cases ht
    · obtain ⟨b, hb, hbt⟩ := ih ht
      exact ⟨b, List.mem_cons_of_mem _ hb, hbt⟩

/-- The last `incr_and_count` of a key has the latest of its events. -/
theorem exists_renewed {x : ℤ} (h : Ordered (ops.map Prod.snd)) (hx : x ∈ renewedAt key ops) :
    ∃ c ∈ ops, c.1 = x ∧ c.2.key = key ∧ ∀ t ∈ events key (ops.map Prod.snd), t ≤ c.2.nowMs := by
  obtain ⟨c, hc, rfl⟩ := Option.map_eq_some_iff.mp hx
  obtain ⟨l, hl⟩ := List.getLast?_eq_some_iff.mp hc
  have hmem : ∀ b ∈ l ++ [c], b ∈ ops ∧ b.2 = .incrAndCount key b.2.nowMs := by
    intro b hb
    rw [← hl] at hb
    simpa using hb
  obtain ⟨hcops, hckey⟩ := hmem c (by simp)
  have hord : (l ++ [c]).Pairwise fun a b => a.2.key = b.2.key → a.2.nowMs ≤ b.2.nowMs := by
    rw [← hl]
    rw [Ordered, List.pairwise_map] at h
    exact h.sublist List.filter_sublist
  refine ⟨c, hcops, rfl, by rw [hckey]; rfl, fun t ht => ?_⟩
  obtain ⟨b, hb, hbt⟩ := exists_mem_of_mem_events ht
  -- the event came with an `incr_and_count`, of which `c` is the last
  have hbl : b ∈ l ++ [c] := by
    rw [← hl, List.mem_filter]
    exact ⟨hb, by simp [hbt, CounterOp.nowMs]⟩
  have hbn : b.2.nowMs = t := by rw [hbt]; rfl
  rw [← hbn]
  rcases List.mem_append.mp hbl with hb' | hb'
  · refine (List.pairwise_append.mp hord).2.2 b hb' c (by simp) ?_
    rw [hbt, hckey]
    rfl
  · rw [List.mem_singleton.mp hb']

/-- **What the server has deleted could no longer count**: the timestamps have advanced by a window
too. -/
theorem unforgotten_of_inStep (hsmall : SmallStamps ops) (h : InStep ops) :
    Machine.Along ScoreLog.step ScoreLog.Unforgotten { windowMs := W } ops := by
  rintro pre a post rfl
  obtain ⟨hpre, -, hlast⟩ := List.pairwise_append.mp h
  have hbefore : ∀ b ∈ pre, b.2.key = a.2.key →
      b.1 ≤ a.1 ∧ a.1 - b.1 ≤ a.2.nowMs - b.2.nowMs := fun b hb hk =>
    hlast b hb a List.mem_cons_self hk
  have hspre : SmallStamps pre := fun b hb => hsmall b (List.mem_append_left _ hb)
  have hsa : SmallStamp a.2.nowMs := hsmall a (List.mem_append_right _ List.mem_cons_self)
  refine ⟨fun c hc => ?_, ?_⟩
  · obtain ⟨b, hb, hk, rfl⟩ := clock_after hc
    exact (hbefore b hb hk).1
  · rw [ScoreLog.windowMs_after, renewed_after]
    by_cases halive : ∀ x ∈ renewedAt a.2.key pre, a.1 < x + W
    · exact .inl halive
    · right
      push Not at halive
      -- the key has expired since its last renewal, and the timestamps went as far
      obtain ⟨x, hx, hlate⟩ := halive
      obtain ⟨c, hc, rfl, hck, hmax⟩ := exists_renewed (InStep.ordered hpre) hx
      obtain ⟨-, hadv⟩ := hbefore c hc hck
      rw [ScoreLog.kept, scores_after hspre, ScoreLog.windowMs_after]
      have hlive : ∀ t ∈ liveStamps W a.2.key (pre.map Prod.snd), SmallStamp t := fun t ht =>
        smallStamp_of_mem_events hspre ((liveStamps_sublist _).subset ht)
      rw [filter_map_finite hsa hlive, List.map_eq_nil_iff, List.filter_eq_nil_iff]
      intro t ht
      have hle : t ≤ c.2.nowMs := hmax t ((liveStamps_sublist _).subset ht)
      simp only [decide_eq_true_eq, not_lt]
      omega

/-- Ordered timestamps leave the window in the order of arrival. -/
theorem Ordered.frontFirst {pre post : List CounterOp} {op : CounterOp}
    (h : Ordered (pre ++ op :: post)) : FrontFirst W pre op := by
  have hpre : Ordered pre := (List.pairwise_append.mp h).1
  have hsorted : (liveStamps W op.key pre).Pairwise (· ≤ ·) :=
    (pairwise_events (hpre.stamps op.key)).sublist (liveStamps_sublist _)
  exact hsorted.imp fun hxy hy => hxy.trans hy

end InStep

/-! ### Calls that only count -/

/-- The call is an `incr_and_count`. -/
def CounterOp.adds : CounterOp → Bool
  | .incrAndCount _ _ => true
  | .count _ _ => false

/-- The replies to the calls of `incr_and_count`. -/
def addReplies {ρ : Type*} (ops : List CounterOp) (rs : List ρ) : List ρ :=
  ((ops.zip rs).filter fun p => p.1.adds).map Prod.snd

theorem events_filter_adds (key : PyStr) (ops : List CounterOp) :
    events key (ops.filter CounterOp.adds) = events key ops := by
  induction ops with
  | nil => rfl
  | cons op ops ih =>
    cases op with
    | incrAndCount k nowMs =>
      rw [List.filter_cons_of_pos rfl, events, events, ih]
    | count k nowMs =>
      rw [List.filter_cons_of_neg (by simp [CounterOp.adds]), events, ih]

/-- The number of events in the window does not depend on the calls that only count. -/
theorem addReplies_windowCounts (pre ops : List CounterOp) :
    addReplies ops (windowCounts W pre ops) =
      windowCounts W (pre.filter CounterOp.adds) (ops.filter CounterOp.adds) := by
  induction ops generalizing pre with
  | nil => rfl
  | cons op ops ih =>
    have ih' := ih (pre ++ [op])
    rw [List.filter_append] at ih'
    cases op with
    | incrAndCount k nowMs =>
      rw [List.filter_cons_of_pos rfl, windowCounts, windowCounts, ← events_filter_adds,
        List.filter_append]
      simp only [addReplies, List.zip_cons_cons] at ih' ⊢
      rw [List.filter_cons_of_pos rfl, List.map_cons, ih']
      rfl
    | count k nowMs =>
      rw [List.filter_cons_of_neg (by simp [CounterOp.adds]), windowCounts]
      simp only [addReplies, List.zip_cons_cons] at ih' ⊢
      rw [List.filter_cons_of_neg (by simp [CounterOp.adds]), ih',
        List.filter_cons_of_neg (by simp [CounterOp.adds]), List.filter_nil, List.append_nil]

end WindowCount

section Exact

variable {R : Redis σ} {v : RedisVelocity} {s : σ} {ops : List (ℤ × CounterOp)}

theorem RedisVelocity.replies_eq_windowCounts (hW : 0 < v.windowMs) (hav : v.available = true)
    (hempty : ∀ key clock, R.zset s clock (v.storeKey key) = ∅) (hsmall : SmallStamps ops)
    (h : InStep ops) :
    Machine.replies (step R) (v, s) ops = windowCounts v.windowMs [] (ops.map Prod.snd) := by
  have hlog := (RedisVelocity.replies_eq hav hempty (unforgotten_of_inStep hsmall h)).1
  have hord : Ordered (ops.map Prod.snd) := h.ordered
  have hagree := (replies_scoreLog_iff hsmall).mpr fun pre op post he =>
    Ordered.frontFirst (W := v.windowMs) (he ▸ hord)
  exact (hlog.symm.trans hagree).trans (SafeCounter.replies_eq_windowCounts hW [] hord)

/-- **On ordered timestamps both counters return the number of events in the window**, the Redis one
even though the server deletes keys, while its clock advances no faster than the timestamps. So
calls that only count change no other reply. -/
theorem counters_count_window (hW : 0 < v.windowMs) (hav : v.available = true)
    (hempty : ∀ key clock, R.zset s clock (v.storeKey key) = ∅) (hsmall : SmallStamps ops)
    (hord : Ordered (ops.map Prod.snd)) :
    (Machine.replies SafeCounter.step { windowMs := v.windowMs } (ops.map Prod.snd) =
        windowCounts v.windowMs [] (ops.map Prod.snd) ∧
      addReplies (ops.map Prod.snd)
          (Machine.replies SafeCounter.step { windowMs := v.windowMs } (ops.map Prod.snd)) =
        Machine.replies SafeCounter.step { windowMs := v.windowMs }
          ((ops.map Prod.snd).filter CounterOp.adds)) ∧
    (InStep ops →
      Machine.replies (RedisVelocity.step R) (v, s) ops =
          windowCounts v.windowMs [] (ops.map Prod.snd) ∧
        addReplies (ops.map Prod.snd) (Machine.replies (RedisVelocity.step R) (v, s) ops) =
          Machine.replies (RedisVelocity.step R) (v, s) (ops.filter fun a => a.2.adds)) := by
  have hmap : (ops.filter fun a => a.2.adds).map Prod.snd =
      (ops.map Prod.snd).filter CounterOp.adds := by
    rw [List.filter_map]
    rfl
  have hord' : Ordered ((ops.map Prod.snd).filter CounterOp.adds) :=
    List.Pairwise.sublist List.filter_sublist hord
  have hsafe := SafeCounter.replies_eq_windowCounts hW [] hord
  have hsafe' := SafeCounter.replies_eq_windowCounts hW [] hord'
  refine ⟨⟨hsafe, ?_⟩, fun hstep => ?_⟩
  · exact (congrArg _ hsafe).trans ((addReplies_windowCounts [] _).trans hsafe'.symm)
  · have hredis := RedisVelocity.replies_eq_windowCounts hW hav hempty hsmall hstep
    have hsmall' : SmallStamps (ops.filter fun a => a.2.adds) := fun a ha =>
      hsmall a (List.mem_filter.mp ha).1
    have hstep' : InStep (ops.filter fun a => a.2.adds) :=
      List.Pairwise.sublist List.filter_sublist hstep
    have hredis' := RedisVelocity.replies_eq_windowCounts hW hav hempty hsmall' hstep'
    refine ⟨hredis, ?_⟩
    rw [hredis, hredis', hmap, addReplies_windowCounts]
    rfl

/-- Two events of a key more than a window apart, by both clocks. -/
theorem counters_count_window_two :
    Machine.replies (RedisVelocity.step Redis.inMemory) ({}, Redis.empty)
      [(0, .incrAndCount [] 1000), (5000, .count [] 6000), (70000, .incrAndCount [] 71000)] =
        [some 1, some 1, some 1] := by
  refine ((counters_count_window (v := {}) (by decide) rfl (fun key clock =>
    Redis.zset_empty clock _) ?_ ?_).2 ?_).1
  · show ∀ a ∈ _, _
    decide
  · show List.Pairwise _ _
    decide
  · show List.Pairwise _ _
    decide

end Exact
