import PreauthGateway.Velocity.Interchange

/-!
# One request more

A call trims the window of its key by its own timestamp, which the caller supplies. So a call with a
late timestamp drops events that a later call, with an earlier timestamp, would still have counted;
it adds one event itself. Every later call counts at least what it would have counted without the
extra call, unless that call drops two events or more that the next one would have kept.

## Main definitions

* `SafeCounter.expired`, `RedisVelocity.expired`: how many events of a key a timestamp drops

## Main results

* `extra_request_iff`: when an extra call hides nothing, for both counters
* `extra_request_hides`: a call that hides two events
-/

variable {σ : Type*}

/-! ## In the process -/

namespace SafeCounter

/-- How many events of the queue a call with this timestamp drops. -/
def expired (c : SafeCounter) (key : PyStr) (nowMs : ℤ) : ℕ :=
  ((c.data key).takeWhile (· ≤ nowMs - c.windowMs)).length

variable {key : PyStr} {t : ℤ}

/-- Right after the extra call. -/
structure Extra (key : PyStr) (t : ℤ) (c d : SafeCounter) : Prop where
  available : c.available = true ∧ d.available = true
  windowMs : d.windowMs = c.windowMs
  data : d.data key = Window.trim (t - c.windowMs) (c.data key) ++ [t]

/-- After a later call of the key. -/
structure Ahead (key : PyStr) (c d : SafeCounter) : Prop where
  available : c.available = true ∧ d.available = true
  windowMs : d.windowMs = c.windowMs
  data : Window.Covers (d.data key) (c.data key)

variable {c d : SafeCounter} {op : CounterOp}

theorem Extra.skip (h : Extra key t c d) (hk : op.key ≠ key) :
    Extra key t (c.step op).2 (d.step op).2 where
  available := ⟨(available_step op).trans h.available.1, (available_step op).trans h.available.2⟩
  windowMs := by rw [windowMs_step, windowMs_step, h.windowMs]
  data := by rw [data_step_of_ne (Ne.symm hk), data_step_of_ne (Ne.symm hk), windowMs_step, h.data]

theorem expired_step_of_ne {n : ℤ} (hk : op.key ≠ key) :
    (c.step op).2.expired key n = c.expired key n := by
  rw [expired, data_step_of_ne (Ne.symm hk), windowMs_step, expired]

/-- More is left of a queue, so more is counted. -/
theorem step_le_step (hc : c.available = true) (hd : d.available = true)
    (h : (c.popExpired op.key op.nowMs).length ≤ (d.popExpired op.key op.nowMs).length) :
    ∃ m n, (c.step op).1 = some m ∧ (d.step op).1 = some n ∧ m ≤ n :=
  ⟨_, _, step_fst hc op, step_fst hd op, by omega⟩

theorem le_of_step_le_step (hc : c.available = true) (hd : d.available = true)
    (h : ∃ m n, (c.step op).1 = some m ∧ (d.step op).1 = some n ∧ m ≤ n) :
    (c.popExpired op.key op.nowMs).length ≤ (d.popExpired op.key op.nowMs).length := by
  obtain ⟨m, n, hm, hn, hle⟩ := h
  rw [step_fst hc, Option.some.injEq] at hm
  rw [step_fst hd, Option.some.injEq] at hn
  omega

theorem Ahead.reply (h : Ahead key c d) (hk : op.key = key) :
    ∃ m n, (c.step op).1 = some m ∧ (d.step op).1 = some n ∧ m ≤ n := by
  subst hk
  refine step_le_step h.available.1 h.available.2 ?_
  rw [popExpired, popExpired, h.windowMs]
  exact (h.data.trim _).length_le

/-- A queue that covers another after the trim covers it after the call. -/
theorem Ahead.of_popExpired (hav : c.available = true ∧ d.available = true)
    (hW : d.windowMs = c.windowMs) (hk : op.key = key)
    (h : Window.Covers (d.popExpired key op.nowMs) (c.popExpired key op.nowMs)) :
    Ahead key (c.step op).2 (d.step op).2 where
  available := ⟨(available_step op).trans hav.1, (available_step op).trans hav.2⟩
  windowMs := by rw [windowMs_step, windowMs_step, hW]
  data := by
    subst hk
    rw [data_step_self hav.1, data_step_self hav.2]
    exact h.append _

theorem Ahead.step (h : Ahead key c d) (op : CounterOp) :
    Ahead key (c.step op).2 (d.step op).2 := by
  by_cases hk : op.key = key
  · refine .of_popExpired h.available h.windowMs hk ?_
    rw [popExpired, popExpired, h.windowMs]
    exact h.data.trim _
  · refine ⟨⟨(available_step op).trans h.available.1, (available_step op).trans h.available.2⟩, ?_, ?_⟩
    · rw [windowMs_step, windowMs_step, h.windowMs]
    · rw [data_step_of_ne (Ne.symm hk), data_step_of_ne (Ne.symm hk)]
      exact h.data

/-- The first later call of the key. -/
theorem Extra.first (h : Extra key t c d) (hk : op.key = key) :
    ((∃ m n, (c.step op).1 = some m ∧ (d.step op).1 = some n ∧ m ≤ n) ↔
      c.expired key t ≤ c.expired key op.nowMs + 1) ∧
    (c.expired key t ≤ c.expired key op.nowMs + 1 → Ahead key (c.step op).2 (d.step op).2) := by
  subst hk
  have hpc : c.popExpired op.key op.nowMs = Window.trim (op.nowMs - c.windowMs) (c.data op.key) :=
    rfl
  have hpd : d.popExpired op.key op.nowMs = Window.trim (op.nowMs - c.windowMs)
      (Window.trim (t - c.windowMs) (c.data op.key) ++ [t]) := by
    rw [popExpired, h.windowMs, h.data]
  have hq : t - c.windowMs ≤ t := by omega
  by_cases hcut : op.nowMs - (c.windowMs : ℤ) < t - c.windowMs
  · have hiff := Window.length_trim_extra_iff hcut hq (l := c.data op.key)
    rw [← hpc, ← hpd] at hiff
    refine ⟨⟨fun hle => hiff.mp (le_of_step_le_step h.available.1 h.available.2 hle),
      fun hone => step_le_step h.available.1 h.available.2 (hiff.mpr hone)⟩, fun hone => ?_⟩
    refine .of_popExpired h.available h.windowMs rfl ?_
    rw [hpc, hpd]
    exact Window.covers_extra hcut hq hone
  · have hcov : Window.Covers (d.popExpired op.key op.nowMs) (c.popExpired op.key op.nowMs) := by
      rw [hpc, hpd]
      exact Window.covers_extra_of_le (not_lt.mp hcut) _
    have hone : c.expired op.key t ≤ c.expired op.key op.nowMs + 1 :=
      (Window.length_takeWhile_mono (not_lt.mp hcut) _).trans (Nat.le_succ _)
    exact ⟨iff_of_true (step_le_step h.available.1 h.available.2 hcov.length_le) hone,
      fun _ => .of_popExpired h.available h.windowMs rfl hcov⟩

/-- **An extra call hides nothing exactly when it drops at most one event that the next call of the
key would have kept.** -/
theorem atLeast_extra_iff (h : Extra key t c d) (ops : List CounterOp) :
    Machine.AtLeast step (fun op => op.key = key) c d ops ↔
      ∀ op ∈ ops.find? (fun op => op.key = key), c.expired key t ≤ c.expired key op.nowMs + 1 := by
  refine Machine.atLeast_iff (K := fun op : CounterOp => op.key = key) (D := Extra key t)
    (R := Ahead key) (C := fun c op => c.expired key t ≤ c.expired key op.nowMs + 1) ?_ ?_ ?_ ?_ h ops
  · intro c d op h hk
    refine ⟨h.skip hk, fun b _ => ?_⟩
    rw [expired_step_of_ne hk, expired_step_of_ne hk]
  · exact fun c d op h hk => h.first hk
  · exact fun c d op h hk => h.reply hk
  · exact fun c d op h => h.step op

theorem extra_incrAndCount (h : c.available = true) :
    Extra key t c (c.incrAndCount key t).2 where
  available := ⟨h, available_incrAndCount.trans h⟩
  windowMs := windowMs_incrAndCount
  data := data_incrAndCount_self h

end SafeCounter

/-! ## On Redis -/

namespace ScoreLog

variable {key : PyStr} {t : ℤ}

/-- Right after the extra call. -/
structure Extra (key : PyStr) (t : ℤ) (L M : ScoreLog) : Prop where
  windowMs : M.windowMs = L.windowMs
  scores : (M.scores key : Multiset Double) =
    Double.ofInt t ::ₘ (L.scores key : Multiset Double).filter (cutoff t L.windowMs < ·)

/-- After a later call of the key. -/
structure Ahead (key : PyStr) (L M : ScoreLog) : Prop where
  windowMs : M.windowMs = L.windowMs
  scores : Window.BagCovers (M.scores key : Multiset Double) (L.scores key)

/-- How many scores of the key a call with this timestamp drops. -/
def expired (L : ScoreLog) (key : PyStr) (nowMs : ℤ) : ℕ :=
  (L.scores key : Multiset Double).countP (· ≤ cutoff nowMs L.windowMs)

variable {L M : ScoreLog} {a : ℤ × CounterOp}

theorem coe_kept (op : CounterOp) : (L.kept op : Multiset Double) =
    (L.scores op.key : Multiset Double).filter (cutoff op.nowMs L.windowMs < ·) :=
  (Multiset.filter_coe _ _).symm

theorem Extra.skip (h : Extra key t L M) (hk : a.2.key ≠ key) :
    Extra key t (L.step a).2 (M.step a).2 := by
  obtain ⟨clock, op⟩ := a
  refine ⟨h.windowMs, ?_⟩
  rw [scores_step_of_ne _ (Ne.symm hk), scores_step_of_ne _ (Ne.symm hk), windowMs_step, h.scores]

theorem expired_step_of_ne {n : ℤ} (hk : a.2.key ≠ key) :
    (L.step a).2.expired key n = L.expired key n := by
  obtain ⟨clock, op⟩ := a
  rw [expired, scores_step_of_ne _ (Ne.symm hk), windowMs_step, expired]

theorem step_le_step_iff :
    (∃ m n, (L.step a).1 = some m ∧ (M.step a).1 = some n ∧ m ≤ n) ↔
      (L.kept a.2).length ≤ (M.kept a.2).length := by
  obtain ⟨clock, op⟩ := a
  rw [step_fst, step_fst]
  simp only [Option.some.injEq, List.length_append]
  constructor
  · rintro ⟨m, n, rfl, rfl, h⟩
    omega
  · exact fun h => ⟨_, _, rfl, rfl, by omega⟩

/-- A log that covers another after the trim covers it after the call. -/
theorem Ahead.of_kept (hW : M.windowMs = L.windowMs) (hk : a.2.key = key)
    (h : Window.BagCovers (M.kept a.2 : Multiset Double) (L.kept a.2)) :
    Ahead key (L.step a).2 (M.step a).2 := by
  obtain ⟨clock, op⟩ := a
  subst hk
  refine ⟨hW, ?_⟩
  rw [scores_step_self, scores_step_self]
  cases op with
  | incrAndCount k n =>
    have hc := h.cons (Double.ofInt n)
    simpa only [added, ← Multiset.coe_add, Multiset.coe_singleton, ← Multiset.singleton_add,
      add_comm] using hc
  | count k n => simpa only [added, List.append_nil] using h

theorem Ahead.kept (h : Ahead key L M) (hk : a.2.key = key) :
    Window.BagCovers (M.kept a.2 : Multiset Double) (L.kept a.2) := by
  subst hk
  rw [coe_kept, coe_kept, h.windowMs]
  exact h.scores.filter _

theorem Ahead.reply (h : Ahead key L M) (hk : a.2.key = key) :
    ∃ m n, (L.step a).1 = some m ∧ (M.step a).1 = some n ∧ m ≤ n :=
  step_le_step_iff.mpr (by simpa using (h.kept hk).card_le)

theorem Ahead.step (h : Ahead key L M) (a : ℤ × CounterOp) :
    Ahead key (L.step a).2 (M.step a).2 := by
  by_cases hk : a.2.key = key
  · exact .of_kept h.windowMs hk (h.kept hk)
  · obtain ⟨clock, op⟩ := a
    refine ⟨h.windowMs, ?_⟩
    rw [scores_step_of_ne _ (Ne.symm hk), scores_step_of_ne _ (Ne.symm hk)]
    exact h.scores

/-- The first later call of the key. -/
theorem Extra.first (h : Extra key t L M) (hk : a.2.key = key) :
    ((∃ m n, (L.step a).1 = some m ∧ (M.step a).1 = some n ∧ m ≤ n) ↔
      L.expired key t ≤ L.expired key a.2.nowMs + 1) ∧
    (L.expired key t ≤ L.expired key a.2.nowMs + 1 → Ahead key (L.step a).2 (M.step a).2) := by
  subst hk
  have hL := coe_kept (L := L) a.2
  have hM := coe_kept (L := M) a.2
  rw [h.windowMs, h.scores] at hM
  have hq : cutoff t L.windowMs ≤ Double.ofInt t := Double.sub_le t (Nat.cast_nonneg _)
  rw [step_le_step_iff, ← Multiset.coe_card, ← Multiset.coe_card, hL, hM]
  by_cases hcut : cutoff a.2.nowMs L.windowMs < cutoff t L.windowMs
  · refine ⟨Window.card_filter_extra_iff hcut hq, fun hone => .of_kept h.windowMs rfl ?_⟩
    rw [hL, hM]
    exact Window.bagCovers_extra hcut hq hone
  · have hcov := Window.bagCovers_extra_of_le (q := Double.ofInt t)
      (b := (L.scores a.2.key : Multiset Double)) (not_lt.mp hcut)
    have hone : L.expired a.2.key t ≤ L.expired a.2.key a.2.nowMs + 1 :=
      (Window.countP_mono (not_lt.mp hcut)).trans (Nat.le_succ _)
    refine ⟨iff_of_true hcov.card_le hone, fun _ => .of_kept h.windowMs rfl ?_⟩
    rw [hL, hM]
    exact hcov

theorem atLeast_extra_iff (h : Extra key t L M) (ops : List (ℤ × CounterOp)) :
    Machine.AtLeast step (fun a => a.2.key = key) L M ops ↔
      ∀ a ∈ ops.find? (fun a => a.2.key = key),
        L.expired key t ≤ L.expired key a.2.nowMs + 1 := by
  refine Machine.atLeast_iff (K := fun a : ℤ × CounterOp => a.2.key = key) (D := Extra key t)
    (R := Ahead key) (C := fun L a => L.expired key t ≤ L.expired key a.2.nowMs + 1) ?_ ?_ ?_ ?_
    h ops
  · intro L M a h hk
    refine ⟨h.skip hk, fun b _ => ?_⟩
    rw [expired_step_of_ne hk, expired_step_of_ne hk]
  · exact fun L M a h hk => h.first hk
  · exact fun L M a h hk => h.reply hk
  · exact fun L M a h => h.step a

theorem extra_step (clock : ℤ) :
    Extra key t L (L.step (clock, .incrAndCount key t)).2 where
  windowMs := rfl
  scores := by
    have hs := scores_step_self L clock (.incrAndCount key t)
    rw [show (CounterOp.incrAndCount key t).key = key from rfl] at hs
    rw [hs, ← Multiset.coe_add, add_comm, added, Multiset.coe_singleton, Multiset.singleton_add,
      coe_kept]
    rfl

end ScoreLog

namespace RedisVelocity

/-- How many members of a key's set a call with this timestamp drops. -/
def expired (R : Redis σ) (clock : ℤ) (key : PyStr) (nowMs : ℤ) (p : RedisVelocity × σ) : ℕ :=
  ((R.zset p.2 clock (p.1.storeKey key)).filter fun e => e.2 ≤ cutoff nowMs p.1.windowMs).card

variable {R : Redis σ} {L : ScoreLog} {p : RedisVelocity × σ}

theorem Holds.expired_eq (h : Holds R L p) {clock : ℤ} {key : PyStr}
    (hclock : ∀ c ∈ L.clock key, c ≤ clock)
    (halive : ∀ x ∈ L.renewed key, clock < x + L.windowMs) (nowMs : ℤ) :
    expired R clock key nowMs p = L.expired key nowMs := by
  have hset : (R.zset p.2 clock (p.1.storeKey key)).scores = (L.scores key : Multiset Double) := by
    rcases h.zset key clock hclock with hz | ⟨⟨x, hx, hlate⟩, -⟩
    · exact hz
    · exact absurd (halive x hx) (not_lt.mpr hlate)
  rw [ScoreLog.expired, ← hset, ZSet.scores, Multiset.countP_map, expired, h.windowMs]
  rfl

/-- **On Redis too an extra call hides nothing exactly when it drops at most one event that the next
call of the key would have kept.** -/
theorem atLeast_extra_iff {v : RedisVelocity} {s : σ} {before ops : List (ℤ × CounterOp)}
    {clock : ℤ} {key : PyStr} {t : ℤ} (hav : v.available = true)
    (hempty : ∀ key clock, R.zset s clock (v.storeKey key) = ∅)
    (hwithout : KeysAlive v.windowMs (before ++ ops))
    (hwith : KeysAlive v.windowMs (before ++ (clock, .incrAndCount key t) :: ops)) :
    Machine.AtLeast (step R) (fun a => a.2.key = key)
        (Machine.after (step R) (v, s) before)
        (incrAndCount R .up clock key t (Machine.after (step R) (v, s) before)).2 ops ↔
      ∀ a ∈ ops.find? (fun a => a.2.key = key),
        expired R clock key t (Machine.after (step R) (v, s) before) ≤
          expired R clock key a.2.nowMs (Machine.after (step R) (v, s) before) + 1 := by
  have hstep : ∀ (L : ScoreLog) p a, Holds R L p → L.Unforgotten a →
      (L.step a).1 = (step R p a).1 ∧ Holds R (L.step a).2 (step R p a).2 :=
    fun _ _ _ hh hu => hh.step hu
  obtain ⟨hbefore, hlater⟩ := Machine.along_append.mp (unforgotten_of_keysAlive hwithout)
  obtain ⟨-, hextra⟩ := Machine.along_append.mp (unforgotten_of_keysAlive hwith)
  obtain ⟨hu, hlater'⟩ := Machine.along_cons.mp hextra
  obtain ⟨-, hold⟩ := replies_eq (R := R) hav hempty hbefore
  obtain ⟨-, hnew⟩ := hstep _ _ _ hold hu
  have hclock : ∀ c ∈ (Machine.after ScoreLog.step v.log before).clock key, c ≤ clock := hu.1
  have halive : ∀ x ∈ (Machine.after ScoreLog.step v.log before).renewed key,
      clock < x + (Machine.after ScoreLog.step v.log before).windowMs := by
    intro x hx
    rw [ScoreLog.windowMs_after]
    exact (hwith before (clock, .incrAndCount key t) ops rfl).2 x (renewed_after ▸ hx)
  have hcongr : Machine.AtLeast ScoreLog.step (fun a => a.2.key = key)
      (Machine.after ScoreLog.step v.log before)
      ((Machine.after ScoreLog.step v.log before).step (clock, .incrAndCount key t)).2 ops ↔
      Machine.AtLeast (step R) (fun a => a.2.key = key)
        (Machine.after (step R) (v, s) before)
        (incrAndCount R .up clock key t (Machine.after (step R) (v, s) before)).2 ops :=
    Machine.AtLeast.congr (fun _ _ _ he => Machine.simulation_at hstep hold hlater he)
      (fun _ _ _ he => Machine.simulation_at hstep hnew hlater' he)
  rw [← hcongr, ScoreLog.atLeast_extra_iff (ScoreLog.extra_step clock)]
  simp only [hold.expired_eq hclock halive]

end RedisVelocity

/-! ## Both counters -/

/-- **An extra call of `incr_and_count` never lowers a later count of its key exactly when it drops
at most one event that the next call of the key would have kept**, in the process and on Redis. -/
theorem extra_request_iff (key : PyStr) (t : ℤ) :
    (∀ (W : ℕ) (before ops : List CounterOp),
      Machine.AtLeast SafeCounter.step (fun op => op.key = key)
          (Machine.after SafeCounter.step { windowMs := W } before)
          ((Machine.after SafeCounter.step { windowMs := W } before).incrAndCount key t).2 ops ↔
        ∀ op ∈ ops.find? (fun op => op.key = key),
          (Machine.after SafeCounter.step { windowMs := W } before).expired key t ≤
            (Machine.after SafeCounter.step { windowMs := W } before).expired key op.nowMs + 1) ∧
    ∀ (σ : Type) (R : Redis σ) (v : RedisVelocity) (s : σ) (before ops : List (ℤ × CounterOp))
      (clock : ℤ), v.available = true → (∀ key clock, R.zset s clock (v.storeKey key) = ∅) →
      KeysAlive v.windowMs (before ++ ops) →
      KeysAlive v.windowMs (before ++ (clock, .incrAndCount key t) :: ops) →
      (Machine.AtLeast (RedisVelocity.step R) (fun a => a.2.key = key)
          (Machine.after (RedisVelocity.step R) (v, s) before)
          (RedisVelocity.incrAndCount R .up clock key t
            (Machine.after (RedisVelocity.step R) (v, s) before)).2 ops ↔
        ∀ a ∈ ops.find? (fun a => a.2.key = key),
          RedisVelocity.expired R clock key t
              (Machine.after (RedisVelocity.step R) (v, s) before) ≤
            RedisVelocity.expired R clock key a.2.nowMs
              (Machine.after (RedisVelocity.step R) (v, s) before) + 1) := by
  constructor
  · intro W before ops
    exact SafeCounter.atLeast_extra_iff
      (SafeCounter.extra_incrAndCount (SafeCounter.available_after _ before)) ops
  · intro σ R v s before ops clock hav hempty hwithout hwith
    exact RedisVelocity.atLeast_extra_iff hav hempty hwithout hwith

/-- Two calls of a key. -/
def keptCalls : List (ℤ × CounterOp) := [(100, .incrAndCount [] 100), (200, .incrAndCount [] 200)]

/-- The later calls: the first one keeps both. -/
def laterCalls : List (ℤ × CounterOp) :=
  [(60155, .incrAndCount (PyStr.ofString "b") 60155), (60160, .incrAndCount [] 60050),
    (60170, .count [] 60170)]

/-- The extra call drops one of two events, which the next call of the key keeps. -/
theorem extra_request_iff_late :
    Machine.AtLeast SafeCounter.step (fun op => op.key = [])
      (Machine.after SafeCounter.step {} (keptCalls.map Prod.snd))
      ((Machine.after SafeCounter.step {} (keptCalls.map Prod.snd)).incrAndCount [] 60150).2
      (laterCalls.map Prod.snd) ∧
    RedisVelocity.expired Redis.inMemory 60150 [] 60150
      (Machine.after (RedisVelocity.step Redis.inMemory) ({}, Redis.empty) keptCalls) = 1 ∧
    Machine.AtLeast (RedisVelocity.step Redis.inMemory) (fun a => a.2.key = [])
      (Machine.after (RedisVelocity.step Redis.inMemory) ({}, Redis.empty) keptCalls)
      (RedisVelocity.incrAndCount Redis.inMemory .up 60150 [] 60150
        (Machine.after (RedisVelocity.step Redis.inMemory) ({}, Redis.empty) keptCalls)).2
      laterCalls := by
  obtain ⟨hsafe, hredis⟩ := extra_request_iff [] 60150
  refine ⟨(hsafe 60000 (keptCalls.map Prod.snd) (laterCalls.map Prod.snd)).mpr ?_, ?_,
    (hredis _ Redis.inMemory {} Redis.empty keptCalls laterCalls 60150 rfl
      (fun key clock => Redis.zset_empty clock _) ?_ ?_).mpr ?_⟩
  · decide +kernel
  · decide +kernel
  · decide +kernel
  · decide +kernel
  · decide +kernel

/-- **An extra call with a late timestamp hides two events** from a call that both counters would
have answered with 3. -/
theorem extra_request_hides :
    Machine.replies SafeCounter.step {}
        [.incrAndCount [] 100, .incrAndCount [] 101, .incrAndCount [] 102] =
      [some 1, some 2, some 3] ∧
    Machine.replies SafeCounter.step {}
        [.incrAndCount [] 100, .incrAndCount [] 101, .incrAndCount [] 1000000,
          .incrAndCount [] 102] =
      [some 1, some 2, some 1, some 2] ∧
    Machine.replies (RedisVelocity.step Redis.inMemory) ({}, Redis.empty)
        [(0, .incrAndCount [] 100), (1, .incrAndCount [] 101), (3, .incrAndCount [] 102)] =
      [some 1, some 2, some 3] ∧
    Machine.replies (RedisVelocity.step Redis.inMemory) ({}, Redis.empty)
        [(0, .incrAndCount [] 100), (1, .incrAndCount [] 101), (2, .incrAndCount [] 1000000),
          (3, .incrAndCount [] 102)] =
      [some 1, some 2, some 1, some 2] := by
  refine ⟨?_, ?_, ?_, ?_⟩ <;> decide +kernel
