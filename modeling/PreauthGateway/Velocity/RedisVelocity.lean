import PreauthGateway.Json.RoundTrip
import PreauthGateway.Velocity.Redis
import PreauthGateway.Velocity.SafeCounter

/-!
# The velocity counter on Redis

`RedisVelocity` runs a script that trims the sorted set of a key, adds the event of this call under
a member of its own, and counts. Redis runs a script as one step. The numbers of a script are
doubles, so a timestamp is its nearest double; a window is at most 2^53 ms, and is read exactly.

## Main definitions

* `slidingWindowLua`, `countOnlyLua`: the two scripts
* `RedisVelocity`, `RedisVelocity.member`, `RedisVelocity.incrAndCount`, `RedisVelocity.count`
* `ScoreLog`: the scores a counter would hold if no key were ever deleted

## Main results

* `RedisVelocity.member_injective`: timestamp and sequence number can be read off a member
* `RedisVelocity.replies_eq`: one instance answers like its score log, unless a set is deleted with
  a score in it that still counts
-/

variable {σ : Type*}

/-! ## The scripts -/

section Scripts

variable (R : Redis σ) (clock : ℤ) (key : PyStr) (now : ℤ) (window : ℕ)

/-- `now - window`. -/
def cutoff : Double := Double.sub (Double.ofInt now) window

/-- `SLIDING_WINDOW_LUA`. -/
def slidingWindowLua (member : PyStr) (s : σ) : ℕ × σ :=
  let s := R.zremrangebyscore clock key (cutoff now window) s
  let s := R.zadd clock key (Double.ofInt now) member s
  let count := R.zcard clock key s
  (count, R.pexpire clock key window s)

/-- `COUNT_ONLY_LUA`. -/
def countOnlyLua (s : σ) : ℕ × σ :=
  let s := R.zremrangebyscore clock key (cutoff now window) s
  (R.zcard clock key s, s)

variable {R clock key now window} {member : PyStr} {s : σ}

/-- The set after the script has added its member. -/
def windowSet (now : ℤ) (window : ℕ) (member : PyStr) (z : ZSet) : ZSet :=
  (z.removeUpTo (cutoff now window)).add (Double.ofInt now) member

theorem slidingWindowLua_fst : (slidingWindowLua R clock key now window member s).1 =
    (windowSet now window member (R.zset s clock key)).card := by
  rw [slidingWindowLua, R.zcard_eq, R.zset_zadd, R.zset_zremrangebyscore _ _ _ _ _ le_rfl,
    windowSet]

/-- What the key holds after the script: the set, or nothing once the deadline has passed. -/
theorem zset_slidingWindowLua (R : Redis σ) (key : PyStr) (now : ℤ) (window : ℕ) (member : PyStr)
    (s : σ) {later : ℤ} (h : clock ≤ later) :
    R.zset (slidingWindowLua R clock key now window member s).2 later key =
        windowSet now window member (R.zset s clock key) ∨
      clock + window ≤ later ∧
        R.zset (slidingWindowLua R clock key now window member s).2 later key = ∅ := by
  rcases R.zset_pexpire clock key window (R.zadd clock key (Double.ofInt now) member
    (R.zremrangebyscore clock key (cutoff now window) s)) later h with hz | hz
  · left
    rw [slidingWindowLua, hz, R.zset_zadd, R.zset_zremrangebyscore _ _ _ _ _ le_rfl, windowSet]
  · exact .inr hz

theorem zset_slidingWindowLua_of_ne {later : ℤ} {k : PyStr} (h : k ≠ key) :
    R.zset (slidingWindowLua R clock key now window member s).2 later k = R.zset s later k := by
  rw [slidingWindowLua, R.zset_pexpire_of_ne _ _ _ _ _ _ h, R.zset_zadd_of_ne _ _ _ _ _ _ _ h,
    R.zset_zremrangebyscore_of_ne _ _ _ _ _ _ h]

theorem countOnlyLua_fst : (countOnlyLua R clock key now window s).1 =
    ((R.zset s clock key).removeUpTo (cutoff now window)).card := by
  rw [countOnlyLua, R.zcard_eq, R.zset_zremrangebyscore _ _ _ _ _ le_rfl]

theorem zset_countOnlyLua (R : Redis σ) (key : PyStr) (now : ℤ) (window : ℕ) (s : σ) {later : ℤ}
    (h : clock ≤ later) :
    R.zset (countOnlyLua R clock key now window s).2 later key =
      (R.zset s later key).removeUpTo (cutoff now window) :=
  R.zset_zremrangebyscore _ _ _ _ _ h

theorem zset_countOnlyLua_of_ne {later : ℤ} {k : PyStr} (h : k ≠ key) :
    R.zset (countOnlyLua R clock key now window s).2 later k = R.zset s later k :=
  R.zset_zremrangebyscore_of_ne _ _ _ _ _ _ h

end Scripts

/-! ## The client -/

/-- A client: its settings, whether it is switched off, and what `next(self._seq)` returns next. -/
structure RedisVelocity where
  windowMs : ℕ := 60000
  windowMs_le : windowMs ≤ 2 ^ 53 := by norm_num
  nameSpace : PyStr := PyStr.ofString "vel"
  available : Bool := true
  nextSeq : ℕ := 1

/-- How the call of a script fares. -/
inductive Link
  | up
  | requestLost
  | replyLost
deriving DecidableEq

namespace RedisVelocity

/-- `"{}:{}".format(self.namespace, key)`. -/
def storeKey (v : RedisVelocity) (key : PyStr) : PyStr :=
  v.nameSpace ++ CodePoint.ofChar ':' :: key

/-- `"{}-{}".format(now_ms, next(self._seq))`. -/
def member (nowMs : ℤ) (seq : ℕ) : PyStr :=
  (Json.dumpsInt nowMs ++ '-' :: Nat.toDigits 10 seq).map CodePoint.ofChar

/-- `incr_and_count`; `none` is `RedisVelocity.Unavailable`. -/
def incrAndCount (R : Redis σ) (link : Link) (clock : ℤ) (key : PyStr) (nowMs : ℤ) :
    RedisVelocity × σ → Option ℕ × (RedisVelocity × σ)
  | (v, s) =>
    if v.available then
      let m := member nowMs v.nextSeq
      let v' := { v with nextSeq := v.nextSeq + 1 }
      let r := slidingWindowLua R clock (v.storeKey key) nowMs v.windowMs m s
      match link with
      | .up => (some r.1, v', r.2)
      | .requestLost => (none, v', s)
      | .replyLost => (none, v', r.2)
    else (none, v, s)

/-- `count`; `none` is an exception. -/
def count (R : Redis σ) (link : Link) (clock : ℤ) (key : PyStr) (nowMs : ℤ) :
    RedisVelocity × σ → Option ℕ × (RedisVelocity × σ)
  | (v, s) =>
    if v.available then
      let r := countOnlyLua R clock (v.storeKey key) nowMs v.windowMs s
      match link with
      | .up => (some r.1, v, r.2)
      | .requestLost => (none, v, s)
      | .replyLost => (none, v, r.2)
    else (none, v, s)

/-- A counter whose server can be reached answers a call, at a reading of the server's clock. -/
def step (R : Redis σ) (p : RedisVelocity × σ) : ℤ × CounterOp → Option ℕ × (RedisVelocity × σ)
  | (clock, .incrAndCount key nowMs) => incrAndCount R .up clock key nowMs p
  | (clock, .count key nowMs) => count R .up clock key nowMs p

section Up

variable {R : Redis σ} {v : RedisVelocity} {clock : ℤ} {key : PyStr} {nowMs : ℤ} {s : σ}

theorem incrAndCount_up (h : v.available = true) :
    incrAndCount R .up clock key nowMs (v, s) =
      (some (slidingWindowLua R clock (v.storeKey key) nowMs v.windowMs
        (member nowMs v.nextSeq) s).1, { v with nextSeq := v.nextSeq + 1 },
        (slidingWindowLua R clock (v.storeKey key) nowMs v.windowMs
          (member nowMs v.nextSeq) s).2) := by
  rw [incrAndCount, if_pos h]

theorem count_up (h : v.available = true) :
    count R .up clock key nowMs (v, s) =
      (some (countOnlyLua R clock (v.storeKey key) nowMs v.windowMs s).1, v,
        (countOnlyLua R clock (v.storeKey key) nowMs v.windowMs s).2) := by
  rw [count, if_pos h]

end Up

/-! ## Members and keys -/

theorem toDigits_injective {m n : ℕ} (h : Nat.toDigits 10 m = Nat.toDigits 10 n) : m = n := by
  rw [← Nat.ofDigitChars_ten_toDigits (n := m), h, Nat.ofDigitChars_ten_toDigits]

theorem dumpsInt_injective {m n : ℤ} (h : Json.dumpsInt m = Json.dumpsInt n) : m = n := by
  have hs := Json.scanAtom_dumpsInt m
  rw [h, Json.scanAtom_dumpsInt n] at hs
  simpa using hs.symm

theorem dash_notMem_toDigits (n : ℕ) : '-' ∉ Nat.toDigits 10 n := by
  intro h
  have hd : '-'.isDigit = true := Nat.isDigit_of_mem_toDigits (by decide) (by decide) h
  exact absurd hd (by decide)

/-- **Timestamp and sequence number can be read off a member.** -/
theorem member_injective {m n : ℤ} {i j : ℕ} (h : member m i = member n j) : m = n ∧ i = j := by
  have hl := List.map_injective_iff.mpr CodePoint.ofChar_injective h
  -- the sequence number begins after the last dash
  obtain ⟨ht, hs⟩ :=
    PyStr.append_cons_inj_of_notMem_right (dash_notMem_toDigits i) (dash_notMem_toDigits j) hl
  exact ⟨dumpsInt_injective ht, toDigits_injective hs⟩

theorem storeKey_injective {v : RedisVelocity} {k k' : PyStr} (h : v.storeKey k = v.storeKey k') :
    k = k' := by
  simpa [storeKey] using h

end RedisVelocity

/-! ## One instance and its score log -/

/-- The scores a counter would hold if no key were ever deleted, and the times at which each key was
given its deadline and was last used. -/
structure ScoreLog where
  windowMs : ℕ
  scores : PyStr → List Double := fun _ => []
  renewed : PyStr → Option ℤ := fun _ => none
  clock : PyStr → Option ℤ := fun _ => none

namespace ScoreLog

variable (L : ScoreLog)

/-- The scores of a key that a call counts. -/
def kept (op : CounterOp) : List Double :=
  (L.scores op.key).filter (cutoff op.nowMs L.windowMs < ·)

/-- The score a call adds. -/
def added : CounterOp → List Double
  | .incrAndCount _ nowMs => [Double.ofInt nowMs]
  | .count _ _ => []

/-- A call at a time. -/
def step : ℤ × CounterOp → Option ℕ × ScoreLog
  | (clock, op) =>
    let d := L.kept op ++ added op
    (some d.length, { L with
      scores := Function.update L.scores op.key d
      renewed := match op with
        | .incrAndCount key _ => Function.update L.renewed key (some clock)
        | .count _ _ => L.renewed
      clock := Function.update L.clock op.key (some clock) })

/-- The clock has not gone back, and the key was not deleted with a score that still counts. -/
def Unforgotten (L : ScoreLog) (a : ℤ × CounterOp) : Prop :=
  (∀ c ∈ L.clock a.2.key, c ≤ a.1) ∧
    ((∀ x ∈ L.renewed a.2.key, a.1 < x + L.windowMs) ∨ L.kept a.2 = [])

theorem step_fst (clock : ℤ) (op : CounterOp) :
    (L.step (clock, op)).1 = some (L.kept op ++ added op).length := rfl

theorem scores_step_self (clock : ℤ) (op : CounterOp) :
    (L.step (clock, op)).2.scores op.key = L.kept op ++ added op :=
  Function.update_self _ _ _

theorem scores_step_of_ne {clock : ℤ} {op : CounterOp} {k : PyStr} (h : k ≠ op.key) :
    (L.step (clock, op)).2.scores k = L.scores k :=
  Function.update_of_ne h _ _

theorem renewed_step_of_ne {clock : ℤ} {op : CounterOp} {k : PyStr} (h : k ≠ op.key) :
    (L.step (clock, op)).2.renewed k = L.renewed k := by
  cases op with
  | incrAndCount key nowMs => exact Function.update_of_ne h _ _
  | count key nowMs => rfl

@[simp] theorem windowMs_step (a : ℤ × CounterOp) : (L.step a).2.windowMs = L.windowMs := rfl

@[simp] theorem windowMs_after (ops : List (ℤ × CounterOp)) :
    (Machine.after step L ops).windowMs = L.windowMs := by
  induction ops using List.reverseRecOn with
  | nil => rfl
  | append_singleton ops a ih => rw [Machine.after_concat, windowMs_step, ih]

theorem clock_step_self (clock : ℤ) (op : CounterOp) :
    (L.step (clock, op)).2.clock op.key = some clock := Function.update_self _ _ _

theorem clock_step_of_ne {clock : ℤ} {op : CounterOp} {k : PyStr} (h : k ≠ op.key) :
    (L.step (clock, op)).2.clock k = L.clock k := Function.update_of_ne h _ _

/-- What is after a call is after the calls before it. -/
theorem past {L : ScoreLog} {clock later : ℤ} {op : CounterOp} {k : PyStr}
    (hu : L.Unforgotten (clock, op)) (hl : ∀ c ∈ (L.step (clock, op)).2.clock k, c ≤ later) :
    (k = op.key → clock ≤ later) ∧ ∀ c ∈ L.clock k, c ≤ later := by
  by_cases hk : k = op.key
  · subst hk
    have hcl : clock ≤ later := hl clock (clock_step_self L clock op)
    exact ⟨fun _ => hcl, fun c hc => (hu.1 c hc).trans hcl⟩
  · exact ⟨fun h => absurd h hk, fun c hc => hl c ((clock_step_of_ne L hk).symm ▸ hc)⟩

end ScoreLog

namespace RedisVelocity

variable {R : Redis σ}

/-- A server holds, under the keys of a client, what the client's score log says. -/
structure Holds (R : Redis σ) (L : ScoreLog) (p : RedisVelocity × σ) : Prop where
  windowMs : p.1.windowMs = L.windowMs
  available : p.1.available = true
  /-- A set has the scores of the log, or was deleted after its deadline. -/
  zset : ∀ key later, (∀ c ∈ L.clock key, c ≤ later) →
    (R.zset p.2 later (p.1.storeKey key)).scores = (L.scores key : Multiset Double) ∨
      (∃ x ∈ L.renewed key, x + L.windowMs ≤ later) ∧ R.zset p.2 later (p.1.storeKey key) = ∅
  /-- Its members have sequence numbers that were given out. -/
  numbered : ∀ key later, (∀ c ∈ L.clock key, c ≤ later) →
    ∀ e ∈ R.zset p.2 later (p.1.storeKey key), ∃ n i, e.1 = member n i ∧ i < p.1.nextSeq

namespace Holds

variable {L : ScoreLog} {v : RedisVelocity} {s : σ} {clock : ℤ}

/-- What is left of a set after the trim of a call. -/
theorem scores_removeUpTo (h : Holds R L (v, s)) {op : CounterOp}
    (hu : L.Unforgotten (clock, op)) :
    ((R.zset s clock (v.storeKey op.key)).removeUpTo (cutoff op.nowMs v.windowMs)).scores =
      (L.kept op : Multiset Double) := by
  rw [ZSet.scores_removeUpTo, h.windowMs]
  rcases h.zset op.key clock hu.1 with hz | ⟨⟨x, hx, hlate⟩, hz⟩
  · rw [hz, Multiset.filter_coe]
    rfl
  · have hkept : L.kept op = [] := by
      rcases hu.2 with halive | hkept
      · exact absurd (halive x hx) (not_lt.mpr hlate)
      · exact hkept
    rw [hz, hkept]
    rfl

/-- The member of the next call is new. -/
theorem member_ne (h : Holds R L (v, s)) {key : PyStr} (hc : ∀ c ∈ L.clock key, c ≤ clock)
    (nowMs : ℤ) (max : Double) :
    ∀ e ∈ (R.zset s clock (v.storeKey key)).removeUpTo max, e.1 ≠ member nowMs v.nextSeq := by
  intro e he heq
  obtain ⟨n, i, hm, hi⟩ := h.numbered key clock hc e (ZSet.mem_removeUpTo.mp he).1
  obtain ⟨-, rfl⟩ := member_injective (hm.symm.trans heq)
  exact lt_irrefl _ hi

/-- The scores after `incr_and_count` has added its member. -/
theorem scores_windowSet (h : Holds R L (v, s)) {key : PyStr} {nowMs : ℤ}
    (hu : L.Unforgotten (clock, .incrAndCount key nowMs)) :
    (windowSet nowMs v.windowMs (member nowMs v.nextSeq)
      (R.zset s clock (v.storeKey key))).scores =
        (L.kept (.incrAndCount key nowMs) ++ [Double.ofInt nowMs] : List Double) := by
  have hkept := h.scores_removeUpTo hu
  have hc : ∀ c ∈ L.clock key, c ≤ clock := hu.1
  rw [windowSet, ZSet.scores_add (h.member_ne hc nowMs _)]
  simp only [CounterOp.key, CounterOp.nowMs] at hkept
  rw [hkept, ← Multiset.coe_add, add_comm]
  rfl

/-- Every key but one is as before. -/
theorem of_ne {v' : RedisVelocity} {s' : σ} (h : Holds R L (v, s)) (op : CounterOp)
    (hk : v'.storeKey = v.storeKey)
    (hs : ∀ k ≠ op.key, ∀ later, R.zset s' later (v.storeKey k) = R.zset s later (v.storeKey k))
    {key : PyStr} (hne : key ≠ op.key) {later : ℤ} (hl : ∀ c ∈ L.clock key, c ≤ later) :
    (R.zset s' later (v'.storeKey key)).scores =
        ((L.step (clock, op)).2.scores key : Multiset Double) ∨
      (∃ x ∈ (L.step (clock, op)).2.renewed key, x + L.windowMs ≤ later) ∧
        R.zset s' later (v'.storeKey key) = ∅ := by
  rw [ScoreLog.scores_step_of_ne L hne, ScoreLog.renewed_step_of_ne L hne, hk, hs key hne]
  exact h.zset key later hl

theorem incrAndCount (h : Holds R L (v, s)) {key : PyStr} {nowMs : ℤ}
    (hu : L.Unforgotten (clock, .incrAndCount key nowMs)) :
    (L.step (clock, .incrAndCount key nowMs)).1 =
        (RedisVelocity.incrAndCount R .up clock key nowMs (v, s)).1 ∧
      Holds R (L.step (clock, .incrAndCount key nowMs)).2
        (RedisVelocity.incrAndCount R .up clock key nowMs (v, s)).2 := by
  have hav : v.available = true := h.available
  have hset := h.scores_windowSet hu
  have hother : ∀ k, k ≠ key → ∀ later, R.zset (slidingWindowLua R clock (v.storeKey key) nowMs
      v.windowMs (member nowMs v.nextSeq) s).2 later (v.storeKey k) =
        R.zset s later (v.storeKey k) := fun k hk later =>
    zset_slidingWindowLua_of_ne fun he => hk (storeKey_injective he)
  rw [incrAndCount_up hav]
  constructor
  · rw [slidingWindowLua_fst, ← ZSet.card_scores, hset]
    rfl
  · refine ⟨h.windowMs, hav, fun k later hl => ?_, fun k later hl e he => ?_⟩
    · obtain ⟨hcl, hl'⟩ := ScoreLog.past hu hl
      by_cases hk : k = key
      · -- the set of this key holds the scores of its window, until the key expires
        subst hk
        have hcl : clock ≤ later := hcl rfl
        rcases zset_slidingWindowLua R (v.storeKey k) nowMs v.windowMs (member nowMs v.nextSeq) s
          hcl with hz | hz
        · left
          exact (congrArg ZSet.scores hz).trans
            (hset.trans (congrArg _ (ScoreLog.scores_step_self L clock _).symm))
        · exact .inr ⟨⟨clock, Function.update_self _ _ _, h.windowMs ▸ hz.1⟩, hz.2⟩
      · exact h.of_ne (.incrAndCount key nowMs) rfl hother hk hl'
    · obtain ⟨hcl, hl'⟩ := ScoreLog.past hu hl
      by_cases hk : k = key
      · subst hk
        have hcl : clock ≤ later := hcl rfl
        rcases zset_slidingWindowLua R (v.storeKey k) nowMs v.windowMs (member nowMs v.nextSeq) s
          hcl with hz | hz
        · have he' : e ∈ windowSet nowMs v.windowMs (member nowMs v.nextSeq)
              (R.zset s clock (v.storeKey k)) := hz ▸ he
          rcases ZSet.mem_add.mp he' with rfl | ⟨he', -⟩
          · exact ⟨nowMs, v.nextSeq, rfl, Nat.lt_succ_self _⟩
          · obtain ⟨n, i, hm, hi⟩ := h.numbered k clock hu.1 e (ZSet.mem_removeUpTo.mp he').1
            exact ⟨n, i, hm, Nat.lt_succ_of_lt hi⟩
        · have he' : e ∈ (∅ : ZSet) := hz.2 ▸ he
          cases he'
      · have he' : e ∈ R.zset s later (v.storeKey k) := hother k hk later ▸ he
        obtain ⟨n, i, hm, hi⟩ := h.numbered k later hl' e he'
        exact ⟨n, i, hm, Nat.lt_succ_of_lt hi⟩

theorem count (h : Holds R L (v, s)) {key : PyStr} {nowMs : ℤ}
    (hu : L.Unforgotten (clock, .count key nowMs)) :
    (L.step (clock, .count key nowMs)).1 =
        (RedisVelocity.count R .up clock key nowMs (v, s)).1 ∧
      Holds R (L.step (clock, .count key nowMs)).2
        (RedisVelocity.count R .up clock key nowMs (v, s)).2 := by
  have hav : v.available = true := h.available
  have hset := h.scores_removeUpTo hu
  have hother : ∀ k, k ≠ key → ∀ later, R.zset (countOnlyLua R clock (v.storeKey key) nowMs
      v.windowMs s).2 later (v.storeKey k) = R.zset s later (v.storeKey k) := fun k hk later =>
    zset_countOnlyLua_of_ne fun he => hk (storeKey_injective he)
  rw [count_up hav]
  constructor
  · rw [countOnlyLua_fst, ← ZSet.card_scores]
    simp only [CounterOp.key, CounterOp.nowMs] at hset
    rw [hset]
    simp [ScoreLog.step, ScoreLog.added]
  · -- the deadline of the key stays, and so does what the log says of a deleted set
    refine ⟨h.windowMs, hav, fun k later hl => ?_, fun k later hl e he => ?_⟩
    · obtain ⟨hcl, hl'⟩ := ScoreLog.past hu hl
      by_cases hk : k = key
      · subst hk
        have hz := zset_countOnlyLua R (v.storeKey k) nowMs v.windowMs s (hcl rfl)
        rcases h.zset k later hl' with hold | ⟨hlate, hold⟩
        · left
          refine (congrArg ZSet.scores hz).trans ?_
          rw [ZSet.scores_removeUpTo, hold, Multiset.filter_coe, h.windowMs]
          refine congrArg _ ?_
          refine Eq.trans ?_ (ScoreLog.scores_step_self L clock (.count k nowMs)).symm
          rw [ScoreLog.added, List.append_nil]
          rfl
        · refine .inr ⟨hlate, hz.trans ?_⟩
          rw [hold]
          rfl
      · exact h.of_ne (.count key nowMs) rfl hother hk hl'
    · obtain ⟨hcl, hl'⟩ := ScoreLog.past hu hl
      by_cases hk : k = key
      · subst hk
        have he' := zset_countOnlyLua R (v.storeKey k) nowMs v.windowMs s (hcl rfl) ▸ he
        exact h.numbered k later hl' e (ZSet.mem_removeUpTo.mp he').1
      · exact h.numbered k later hl' e (hother k hk later ▸ he)

/-- **A call of the client is a call of its score log.** -/
theorem step (h : Holds R L (v, s)) {op : CounterOp} (hu : L.Unforgotten (clock, op)) :
    (L.step (clock, op)).1 = (RedisVelocity.step R (v, s) (clock, op)).1 ∧
      Holds R (L.step (clock, op)).2 (RedisVelocity.step R (v, s) (clock, op)).2 := by
  cases op with
  | incrAndCount key nowMs => exact h.incrAndCount hu
  | count key nowMs => exact h.count hu

end Holds

/-- The log of a client whose keys hold nothing. -/
def log (v : RedisVelocity) : ScoreLog := { windowMs := v.windowMs }

theorem holds_empty {v : RedisVelocity} {s : σ} (hav : v.available = true)
    (h : ∀ key clock, R.zset s clock (v.storeKey key) = ∅) : Holds R v.log (v, s) := by
  refine ⟨rfl, hav, fun key later _ => .inl ?_, fun key later _ e he => ?_⟩
  · rw [show R.zset (v, s).2 later ((v, s).1.storeKey key) = ∅ from h key later]
    rfl
  · rw [show R.zset (v, s).2 later ((v, s).1.storeKey key) = ∅ from h key later] at he
    cases he

/-- **One instance answers like its score log.** -/
theorem replies_eq {v : RedisVelocity} {s : σ} (hav : v.available = true)
    (h : ∀ key clock, R.zset s clock (v.storeKey key) = ∅) {ops : List (ℤ × CounterOp)}
    (hu : Machine.Along ScoreLog.step ScoreLog.Unforgotten v.log ops) :
    Machine.replies ScoreLog.step v.log ops = Machine.replies (step R) (v, s) ops ∧
      Holds R (Machine.after ScoreLog.step v.log ops) (Machine.after (step R) (v, s) ops) :=
  Machine.simulation (fun _ _ _ hh hu => hh.step hu) (holds_empty hav h) hu

end RedisVelocity
