import PreauthGateway.Program.Runs
import PreauthGateway.Velocity.RedisVelocity

/-!
# Several gateways on one Redis

Each gateway has a client of its own, all with the same namespace and window on one server. A client
builds the member of a call and sends the script; the server runs the scripts it was sent one at a
time, in any order and at any time. A member has the timestamp of its call and a sequence number of
its client, so two clients may build one member.

## Main definitions

* `Fleet`, `Fleet.step`: clients, the script calls on their way, and the executions so far
* `Fleet.on`: the executions under a key
* `keySet`: the set a key holds after its executions, while its deadline does not pass

## Main results

* `Fleet.counted`: what the executions under a key return
* `card_keySet_iff`: when the `k`-th execution finds `k` members
-/

variable {σ : Type*}

/-- A script call on its way to the server. -/
structure ScriptCall where
  client : ℕ
  key : PyStr
  nowMs : ℤ
  seq : ℕ
deriving DecidableEq

namespace ScriptCall

/-- The member of the call. -/
def member (c : ScriptCall) : PyStr := RedisVelocity.member c.nowMs c.seq

/-- The server runs the script, for a client with the settings of `v`. -/
def run (R : Redis σ) (v : RedisVelocity) (clock : ℤ) (c : ScriptCall) (s : σ) : ℕ × σ :=
  slidingWindowLua R clock (v.storeKey c.key) c.nowMs v.windowMs c.member s

end ScriptCall

/-- A script the server has run, when, and what it returned. -/
structure Execution where
  call : ScriptCall
  clock : ℤ
  count : ℕ
deriving DecidableEq

/-- The gateways and their server. -/
structure Fleet (σ : Type*) where
  clients : ℕ → RedisVelocity
  server : σ
  inFlight : List ScriptCall := []
  executed : List Execution := []

namespace Fleet

/-- What can happen next. -/
inductive Action
  /-- a client begins `incr_and_count` -/
  | call (i : ℕ) (key : PyStr) (nowMs : ℤ)
  /-- the server runs the script call at a position of those on their way -/
  | execute (j : ℕ) (clock : ℤ)

/-- `incr_and_count` up to sending the script. -/
def call (F : Fleet σ) (i : ℕ) (key : PyStr) (nowMs : ℤ) : Fleet σ :=
  let v := F.clients i
  if v.available then
    { F with
      clients := Function.update F.clients i { v with nextSeq := v.nextSeq + 1 }
      inFlight := F.inFlight ++ [⟨i, key, nowMs, v.nextSeq⟩] }
  else F

/-- The server runs a script. -/
def execute (R : Redis σ) (F : Fleet σ) (c : ScriptCall) (rest : List ScriptCall) (clock : ℤ) :
    Fleet σ :=
  { F with
    server := (c.run R (F.clients c.client) clock F.server).2
    inFlight := rest
    executed := F.executed ++ [⟨c, clock, (c.run R (F.clients c.client) clock F.server).1⟩] }

def step (R : Redis σ) (F : Fleet σ) : Action → Option (Fleet σ)
  | .call i key nowMs => some (F.call i key nowMs)
  | .execute j clock =>
    F.inFlight[j]?.map fun c => F.execute R c (F.inFlight.eraseIdx j) clock

/-- Clients that have made no call yet, all with the settings of `v`. -/
def start (v : RedisVelocity) (s : σ) : Fleet σ :=
  { clients := fun _ => { v with nextSeq := 1 }, server := s }

/-- The executions under a key. -/
def on (F : Fleet σ) (key : PyStr) : List Execution :=
  F.executed.filter fun e => e.call.key = key

/-- A call that is executed at once is `incr_and_count` of its client. -/
theorem execute_call {R : Redis σ} {F : Fleet σ} {i : ℕ} {key : PyStr} {nowMs clock : ℤ}
    (h : (F.clients i).available = true) (h0 : F.inFlight = []) :
    ∃ F', Runs.run (step R) F [.call i key nowMs, .execute 0 clock] = some F' ∧
      (RedisVelocity.incrAndCount R .up clock key nowMs (F.clients i, F.server)).2 =
        (F'.clients i, F'.server) ∧
      F'.executed.getLast?.map Execution.count =
        (RedisVelocity.incrAndCount R .up clock key nowMs (F.clients i, F.server)).1 := by
  have hcall : F.call i key nowMs = { F with
      clients := Function.update F.clients i
        { F.clients i with nextSeq := (F.clients i).nextSeq + 1 }
      inFlight := [⟨i, key, nowMs, (F.clients i).nextSeq⟩] } := by
    rw [call, if_pos h, h0]
    rfl
  rw [RedisVelocity.incrAndCount_up h]
  refine ⟨(F.call i key nowMs).execute R ⟨i, key, nowMs, (F.clients i).nextSeq⟩ [] clock,
    ?_, ?_, ?_⟩
  · rw [Runs.run_cons, step, Option.bind_some, Runs.run_cons, step, hcall]
    rfl
  · simp only [hcall, execute, ScriptCall.run, Function.update_self]
    rfl
  · simp only [hcall, execute, ScriptCall.run, Function.update_self, List.getLast?_append]
    rfl

end Fleet

/-! ## The set of a key -/

section KeySet

variable {W : ℕ}

/-- The set a key holds after its executions, while its deadline does not pass. -/
def keySet (W : ℕ) (es : List Execution) : ZSet :=
  es.foldl (fun z e => windowSet e.call.nowMs W e.call.member z) ∅

theorem keySet_concat (es : List Execution) (e : Execution) :
    keySet W (es ++ [e]) = windowSet e.call.nowMs W e.call.member (keySet W es) := by
  simp [keySet]

/-- The entry an execution adds. -/
def Execution.entry (e : Execution) : PyStr × Double := (e.call.member, Double.ofInt e.call.nowMs)

/-- An execution takes nothing from an earlier one: it has another member, and its cutoff is below
the score of the earlier one. -/
def Spares (W : ℕ) (a b : Execution) : Prop :=
  a.call.member ≠ b.call.member ∧ cutoff b.call.nowMs W < Double.ofInt a.call.nowMs

theorem keySet_eq {es : List Execution} (h : es.Pairwise (Spares W)) :
    keySet W es = (es.map Execution.entry).toFinset := by
  induction es using List.reverseRecOn with
  | nil => rfl
  | append_singleton es e ih =>
    obtain ⟨hes, -, hlast⟩ := List.pairwise_append.mp h
    have hsp : ∀ a ∈ es, Spares W a e := fun a ha => hlast a ha e (List.mem_singleton_self e)
    rw [keySet_concat, ih hes]
    ext x
    simp only [windowSet, ZSet.mem_add, ZSet.mem_removeUpTo, List.mem_toFinset, List.map_append,
      List.mem_append, List.mem_map, List.mem_singleton, List.map_cons, List.map_nil]
    constructor
    · rintro (rfl | ⟨⟨hx, -⟩, -⟩)
      · exact .inr rfl
      · exact .inl hx
    · rintro (⟨a, ha, rfl⟩ | rfl)
      · exact .inr ⟨⟨⟨a, ha, rfl⟩, (hsp a ha).2⟩, (hsp a ha).1⟩
      · exact .inl rfl

theorem card_keySet {es : List Execution} (h : es.Pairwise (Spares W)) :
    (keySet W es).card = es.length := by
  rw [keySet_eq h, List.toFinset_card_of_nodup, List.length_map]
  refine List.Pairwise.map _ (fun a b hab => ?_) h
  intro he
  exact hab.1 (congrArg Prod.fst he)

/-- A script finds one member more than before exactly when it takes none. -/
theorem card_windowSet_iff {es : List Execution} (h : es.Pairwise (Spares W)) (e : Execution) :
    (windowSet e.call.nowMs W e.call.member (keySet W es)).card = es.length + 1 ↔
      ∀ a ∈ es, Spares W a e := by
  have hnot : e.entry ∉ ((keySet W es).removeUpTo (cutoff e.call.nowMs W)).filter
      fun x => x.1 ≠ e.call.member := by
    intro hx
    exact (Finset.mem_filter.mp hx).2 rfl
  rw [windowSet, ZSet.add, show (e.call.member, Double.ofInt e.call.nowMs) = e.entry from rfl,
    Finset.card_insert_of_notMem hnot, Nat.add_right_cancel_iff, ZSet.removeUpTo,
    Finset.filter_filter, ← card_keySet h, Finset.card_filter_eq_iff, keySet_eq h]
  simp only [List.mem_toFinset, List.mem_map]
  constructor
  · intro hall a ha
    obtain ⟨hcut, hne⟩ := hall a.entry ⟨a, ha, rfl⟩
    exact ⟨hne, hcut⟩
  · rintro hall x ⟨a, ha, rfl⟩
    exact ⟨(hall a ha).2, (hall a ha).1⟩

/-- **Every execution finds one member more than the one before exactly when none takes from
another.** -/
theorem card_keySet_iff {es : List Execution} :
    (∀ k < es.length, (keySet W (es.take (k + 1))).card = k + 1) ↔ es.Pairwise (Spares W) := by
  induction es using List.reverseRecOn with
  | nil => simp
  | append_singleton es e ih =>
    rw [List.pairwise_append, ← ih]
    have hinit : ∀ k < es.length, (es ++ [e]).take (k + 1) = es.take (k + 1) := fun k hk =>
      List.take_append_of_le_length hk
    constructor
    · intro h
      have hes : ∀ k < es.length, (keySet W (es.take (k + 1))).card = k + 1 := by
        intro k hk
        rw [← hinit k hk]
        exact h k (by simp; omega)
      have hlast := h es.length (by simp)
      rw [List.take_of_length_le (by simp), keySet_concat,
        card_windowSet_iff (ih.mp hes)] at hlast
      exact ⟨hes, List.pairwise_singleton _ _, by simpa using hlast⟩
    · rintro ⟨hes, -, hlast⟩ k hk
      by_cases hk' : k < es.length
      · rw [hinit k hk']
        exact hes k hk'
      · have hk : k = es.length := by
          rw [List.length_append, List.length_singleton] at hk
          omega
        subst hk
        rw [List.take_of_length_le (by simp), keySet_concat, card_windowSet_iff (ih.mp hes)]
        simpa using hlast

end KeySet

/-! ## The executions of a run -/

namespace Fleet

variable {R : Redis σ} {v : RedisVelocity} {F : Fleet σ}

/-- The deadline of the key does not pass between two executions, and the clock does not go back. -/
def Alive (W : ℕ) (es : List Execution) : Prop :=
  es.IsChain fun a b : Execution => a.clock ≤ b.clock ∧ b.clock < a.clock + W

/-- While its deadline does not pass, a key holds the set of its executions, and each of them has
returned the size of the set it left. -/
structure Counted (R : Redis σ) (v : RedisVelocity) (F : Fleet σ) : Prop where
  settings : ∀ i, (F.clients i).windowMs = v.windowMs ∧ (F.clients i).storeKey = v.storeKey
  counts : ∀ key, Alive v.windowMs (F.on key) → ∀ k (hk : k < (F.on key).length),
    (F.on key)[k].count = (keySet v.windowMs ((F.on key).take (k + 1))).card
  zset : ∀ key later, Alive v.windowMs (F.on key) →
    (∀ e ∈ (F.on key).getLast?, e.clock ≤ later ∧ later < e.clock + v.windowMs) →
      R.zset F.server later (v.storeKey key) = keySet v.windowMs (F.on key)

theorem Counted.start {s : σ} (h : ∀ key clock, R.zset s clock (v.storeKey key) = ∅) :
    Counted R v (start v s) where
  settings _ := ⟨rfl, rfl⟩
  counts _ _ k hk := absurd hk (Nat.not_lt_zero k)
  zset key later _ _ := h key later

theorem Counted.call (h : Counted R v F) (i : ℕ) (key : PyStr) (nowMs : ℤ) :
    Counted R v (F.call i key nowMs) := by
  by_cases hav : (F.clients i).available = true
  · rw [Fleet.call, if_pos hav]
    refine ⟨fun j => ?_, h.counts, h.zset⟩
    by_cases hj : j = i
    · subst hj
      simp only [Function.update_self]
      exact h.settings j
    · simp only [Function.update_of_ne hj]
      exact h.settings j
  · rw [Fleet.call, if_neg hav]
    exact h

section Execute

variable {c : ScriptCall} {rest : List ScriptCall} {clock : ℤ}

theorem on_execute_self : (F.execute R c rest clock).on c.key =
    F.on c.key ++ [⟨c, clock, (c.run R (F.clients c.client) clock F.server).1⟩] := by
  simp [on, execute, List.filter_append]

theorem on_execute_of_ne {key : PyStr} (h : key ≠ c.key) :
    (F.execute R c rest clock).on key = F.on key := by
  simp [on, execute, h.symm]

/-- A script is the same for every client. -/
theorem Counted.run_eq (h : Counted R v F) (c : ScriptCall) (clock : ℤ) :
    c.run R (F.clients c.client) clock F.server = c.run R v clock F.server := by
  obtain ⟨hW, hk⟩ := h.settings c.client
  rw [ScriptCall.run, hW, hk, ScriptCall.run]

/-- What a script finds under its key, if the deadline has not passed. -/
theorem Counted.zset_execute (h : Counted R v F) {e : Execution} (hc : e.clock = clock)
    (ha : Alive v.windowMs (F.on c.key ++ [e])) :
    R.zset F.server clock (v.storeKey c.key) = keySet v.windowMs (F.on c.key) := by
  obtain ⟨hold, -, hlast⟩ := List.isChain_append.mp ha
  exact h.zset c.key clock hold fun a hmem => hc ▸ hlast a hmem e rfl

theorem Counted.execute (h : Counted R v F) : Counted R v (F.execute R c rest clock) := by
  have hrun := h.run_eq c clock
  refine ⟨h.settings, fun key ha k hk => ?_, fun key later ha hlater => ?_⟩
  · by_cases hkey : key = c.key
    · subst hkey
      simp only [on_execute_self] at ha hk ⊢
      by_cases hk' : k < (F.on c.key).length
      · rw [List.getElem_append_left hk', List.take_append_of_le_length hk']
        exact h.counts c.key (List.isChain_append.mp ha).1 k hk'
      · have hlast : k = (F.on c.key).length := by
          rw [List.length_append, List.length_singleton] at hk
          omega
        subst hlast
        rw [List.getElem_concat_length rfl, List.take_of_length_le (by simp), keySet_concat,
          ← h.zset_execute rfl ha, hrun]
        exact slidingWindowLua_fst
    · simp only [on_execute_of_ne hkey] at ha hk ⊢
      exact h.counts key ha k hk
  · by_cases hkey : key = c.key
    · subst hkey
      rw [on_execute_self] at ha hlater ⊢
      rw [keySet_concat, ← h.zset_execute rfl ha]
      rw [List.getLast?_concat] at hlater
      obtain ⟨hle, hlt⟩ := hlater _ rfl
      show R.zset (c.run R (F.clients c.client) clock F.server).2 later _ = _
      rw [hrun]
      rcases zset_slidingWindowLua R (v.storeKey c.key) c.nowMs v.windowMs c.member F.server
        hle with hz | ⟨hpassed, -⟩
      · exact hz
      · -- the key has not expired: its last execution is too recent
        exact absurd hlt (not_lt.mpr hpassed)
    · rw [on_execute_of_ne hkey] at ha hlater ⊢
      show R.zset (c.run R (F.clients c.client) clock F.server).2 later _ = _
      rw [hrun, ScriptCall.run, zset_slidingWindowLua_of_ne fun he =>
        hkey (RedisVelocity.storeKey_injective he)]
      exact h.zset key later ha hlater

end Execute

/-- **The executions of every run are counted.** -/
theorem counted {s : σ} {as : List Action}
    (h : ∀ key clock, R.zset s clock (v.storeKey key) = ∅)
    (hrun : Runs.run (step R) (start v s) as = some F) : Counted R v F := by
  refine Runs.preserved (fun F a F' hF hstep => ?_) (Counted.start h) hrun
  cases a with
  | call i key nowMs =>
    cases hstep
    exact hF.call i key nowMs
  | execute j clock =>
    obtain ⟨c, -, rfl⟩ := Option.map_eq_some_iff.mp hstep
    exact hF.execute

end Fleet
