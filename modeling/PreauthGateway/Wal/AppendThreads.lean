import PreauthGateway.Program.Mutex
import PreauthGateway.Wal.Recovery

/-!
# The write-ahead log under threads

The threads of the service share one `AuditWal`. Under its lock each statement of `append` is an
access of its own: the write of the line into the buffer of the file object, the flush, the
counters, the sync. The buffer may reach the file in pieces of any size, so a process that dies in
between leaves a torn line. The list of the times of the appends is outside the lock, and is left
out here.

## Main definitions

* `WalHandle`: a log, with what its file object has not yet handed to the operating system
* `WalLine`, `walCode`: the lines of `append` under the lock, and what each does

## Main results

* `WalHandle.implements`: the lines under the lock do what `append` does
* `AuditWal.threads_recover`: **at every moment of every interleaving the file reads back as the
  records in the order of the lock, all of those whose append has returned, and at most one line is
  torn**
-/

open Json

/-- A log and the buffer of its file object. -/
structure WalHandle where
  wal : AuditWal
  pending : Bytes := []

/-- The lines under the lock. -/
inductive WalLine
  | write
  | flush
  | bump
  | test
  | sync
  | countSync
  | resetSince
  | stampSync
  | countAppend

/-- An append: the readings of the clock, and the record. -/
abbrev WalCall := AppendClock × JsonObject

namespace WalHandle

/-- The next `n` bytes of the buffer reach the file. -/
def spill (n : ℕ) (h : WalHandle) : WalHandle where
  wal := { h.wal with file := h.wal.file ++ h.pending.take n }
  pending := h.pending.drop n

/-- One line of `append`, when `n` bytes reach the file if it writes. -/
def access (n : ℕ) (call : WalCall) (h : WalHandle) : WalLine → WalHandle × (WalLine ⊕ Unit)
  | .write => (spill n { h with pending := h.pending ++ Utf8.encode (line call.2) }, .inl .flush)
  | .flush => (h.spill n, .inl (if (h.spill n).pending = [] then .bump else .flush))
  | .bump => ({ h with wal := { h.wal with sinceSync := h.wal.sinceSync + 1 } }, .inl .test)
  | .test => (h, .inl (if h.wal.shouldFsync call.1.check then .sync else .countAppend))
  | .sync => ({ h with wal := { h.wal with synced := h.wal.file } }, .inl .countSync)
  | .countSync =>
    ({ h with wal := { h.wal with
      stats := { h.wal.stats with fsyncs := h.wal.stats.fsyncs + 1 } } }, .inl .resetSince)
  | .resetSince => ({ h with wal := { h.wal with sinceSync := 0 } }, .inl .stampSync)
  | .stampSync => ({ h with wal := { h.wal with lastSync := call.1.sync } }, .inl .countAppend)
  | .countAppend =>
    ({ h with wal := { h.wal with
      stats := { h.wal.stats with appended := h.wal.stats.appended + 1 } } }, .inr ())

end WalHandle

/-- The code of `append`; the reading is how many bytes reach the file. -/
def walCode : Mutex.Code ℕ WalCall (WalCall × WalLine) WalHandle Unit where
  check _ _ := none
  enter call := (call, .write)
  body n l h := ((h.access n l.1 l.2).1, (h.access n l.1 l.2).2.map (fun k => (l.1, k)) id)

/-- Threads that share a log. -/
abbrev WalPool :=
  Pool (Mutex.Guarded WalHandle) (Mutex.Phase WalCall (WalCall × WalLine) Unit)
    (Mutex.Access WalCall)

namespace AuditWal

/-- `append`, as far as it holds the lock. -/
def appendLocked (c : AppendClock) (record : JsonObject) (w : AuditWal) : AuditWal :=
  let w := w.writeLine record
  let w := if w.shouldFsync c.check then w.syncNow c.sync else w
  { w with stats := { w.stats with appended := w.stats.appended + 1 } }

/-- What follows outside the lock is the time of the append. -/
theorem append_eq_appendLocked (c : AppendClock) (record : JsonObject) (w : AuditWal) :
    w.append c record = { w.appendLocked c record with
      stats := { (w.appendLocked c record).stats with
        appendMs := (w.appendLocked c record).stats.appendMs ++ [(c.done - c.t0) * 1000] } } := rfl

@[simp] theorem file_appendLocked (c : AppendClock) (record : JsonObject) (w : AuditWal) :
    (w.appendLocked c record).file = w.file ++ Utf8.encode (line record) := by
  simp only [appendLocked]
  split <;> rfl

end AuditWal

namespace WalHandle

/-- A log with an empty buffer answers an append that it takes whole. -/
def step (h : WalHandle) (call : WalCall) : Unit × WalHandle :=
  ((), { wal := h.wal.appendLocked call.1 call.2 })

/-- How far an append that began on `s` has come at a line. -/
def Midway (s : WalHandle) (call : WalCall) (l : WalCall × WalLine) (h : WalHandle) : Prop :=
  l.1 = call ∧
    let text := Utf8.encode (line call.2)
    let whole := s.wal.writeLine call.2
    match l.2 with
    | .write => h = s ∧ s.pending = []
    | .flush => ∃ k, h = ⟨{ s.wal with file := s.wal.file ++ text.take k }, text.drop k⟩
    | .bump => h = ⟨{ s.wal with file := s.wal.file ++ text }, []⟩
    | .test => h = ⟨whole, []⟩
    | .sync => h = ⟨whole, []⟩ ∧ whole.shouldFsync call.1.check = true
    | .countSync =>
      h = ⟨{ whole with synced := whole.file }, []⟩ ∧ whole.shouldFsync call.1.check = true
    | .resetSince => h = ⟨{ whole.syncNow call.1.sync with
        sinceSync := whole.sinceSync, lastSync := whole.lastSync }, []⟩ ∧
        whole.shouldFsync call.1.check = true
    | .stampSync => h = ⟨{ whole.syncNow call.1.sync with lastSync := whole.lastSync }, []⟩ ∧
        whole.shouldFsync call.1.check = true
    | .countAppend =>
      h = ⟨if whole.shouldFsync call.1.check then whole.syncNow call.1.sync else whole, []⟩

/-- Bytes that reach the file leave the buffer. -/
theorem spill_taken (w : AuditWal) (text : Bytes) (k n : ℕ) :
    spill n ⟨{ w with file := w.file ++ text.take k }, text.drop k⟩ =
      ⟨{ w with file := w.file ++ text.take (k + n) }, text.drop (k + n)⟩ := by
  simp only [spill, List.append_assoc, ← List.take_add, List.drop_drop]

/-- A line leads to the next one. -/
theorem midway_access {n : ℕ} {s h h' : WalHandle} {call : WalCall} {l l' : WalLine}
    (hm : Midway s call (call, l) h) (ha : h.access n call l = (h', .inl l')) :
    Midway s call (call, l') h' := by
  obtain ⟨-, hm⟩ := hm
  refine ⟨rfl, ?_⟩
  cases l with
  | write =>
    cases ha
    obtain ⟨rfl, hs⟩ := hm
    refine ⟨n, ?_⟩
    have h := spill_taken h.wal (Utf8.encode (line call.2)) 0 n
    rw [Nat.zero_add, List.take_zero, List.append_nil, List.drop_zero] at h
    rw [hs, List.nil_append]
    exact h
  | flush =>
    obtain ⟨k, rfl⟩ := hm
    rw [access, spill_taken] at ha
    split at ha
    · rename_i hempty
      have htake := List.take_append_drop (k + n) (Utf8.encode (line call.2))
      simp only at hempty
      rw [hempty, List.append_nil] at htake
      rw [hempty, htake] at ha
      cases ha
      rfl
    · cases ha
      exact ⟨k + n, rfl⟩
  | bump =>
    cases ha
    rw [hm]
    rfl
  | test =>
    rw [access] at ha
    subst hm
    split at ha
    · rename_i hsync
      cases ha
      exact ⟨rfl, hsync⟩
    · rename_i hsync
      cases ha
      dsimp only
      rw [if_neg hsync]
  | sync =>
    cases ha
    obtain ⟨rfl, hsync⟩ := hm
    exact ⟨rfl, hsync⟩
  | countSync =>
    cases ha
    obtain ⟨rfl, hsync⟩ := hm
    exact ⟨rfl, hsync⟩
  | resetSince =>
    cases ha
    obtain ⟨rfl, hsync⟩ := hm
    exact ⟨rfl, hsync⟩
  | stampSync =>
    cases ha
    obtain ⟨rfl, hsync⟩ := hm
    dsimp only
    rw [if_pos hsync]
    rfl
  | countAppend => cases ha

/-- **The lines under the lock do what `append` does**, in whatever pieces the buffer reaches the
file. -/
theorem implements : Mutex.Implements walCode step (fun h => h.pending = []) Midway where
  keep _ _ _ := rfl
  enter _ _ hs := ⟨rfl, rfl, hs⟩
  work {s call l n h h' l'} hm hb := by
    obtain ⟨call', l⟩ := l
    obtain rfl : call' = call := hm.1
    rcases ha : h.access n call' l with ⟨v, k | r⟩
    · simp only [walCode, ha, Sum.map_inl, Prod.mk.injEq, Sum.inl.injEq] at hb
      obtain ⟨rfl, rfl⟩ := hb
      exact midway_access hm ha
    · simp only [walCode, ha, Sum.map_inr, Prod.mk.injEq, reduceCtorEq, and_false] at hb
  finish {s call l n h h' r} hm hb := by
    obtain ⟨call', l⟩ := l
    obtain ⟨rfl, hm⟩ := hm
    cases l with
    | countAppend =>
      cases hb
      rw [hm]
      rfl
    | _ => cases hb

end WalHandle

/-! ## What the file holds -/

/-- The records of the calls that took the lock, in order. -/
def recordsOf (T : List (ℕ × WalCall)) : List JsonObject := T.map fun e => e.2.2

namespace WalHandle

/-- The file of a settled log is the lines of the calls. -/
theorem file_settled (config : WalConfig) (now : ℚ) (T : List (ℕ × WalCall)) :
    (Mutex.settled step { wal := .openAt config now [] } T).wal.file = logBytes (recordsOf T) := by
  induction T using List.reverseRecOn with
  | nil => rfl
  | append_singleton T e ih =>
    obtain ⟨i, call⟩ := e
    rw [Mutex.settled_concat, step, AuditWal.file_appendLocked, ih, recordsOf, recordsOf,
      List.map_append, List.map_singleton, logBytes_append]
    congr 1
    rw [logBytes, logText_singleton]

/-- During an append, a part of its line follows what was there. -/
theorem Midway.file {s h : WalHandle} {call : WalCall} {l : WalCall × WalLine}
    (hm : Midway s call l h) :
    ∃ k, h.wal.file = s.wal.file ++ (Utf8.encode (line call.2)).take k := by
  obtain ⟨call', l⟩ := l
  obtain ⟨rfl, hm⟩ := hm
  have hwhole : ∀ n, (Utf8.encode (line call'.2)).length ≤ n →
      (s.wal.writeLine call'.2).file = s.wal.file ++ (Utf8.encode (line call'.2)).take n := by
    intro n hn
    rw [List.take_of_length_le hn]
    rfl
  cases l with
  | write =>
    obtain ⟨rfl, -⟩ := hm
    exact ⟨0, by simp⟩
  | flush =>
    obtain ⟨k, rfl⟩ := hm
    exact ⟨k, rfl⟩
  | bump =>
    rw [hm]
    exact ⟨_, hwhole _ le_rfl⟩
  | test =>
    rw [hm]
    exact ⟨_, hwhole _ le_rfl⟩
  | countAppend =>
    rw [hm]
    refine ⟨_, (?_ : _ = (s.wal.writeLine call'.2).file).trans (hwhole _ le_rfl)⟩
    split <;> rfl
  | _ =>
    rw [hm.1]
    exact ⟨_, hwhole _ le_rfl⟩

end WalHandle

namespace AuditWal

/-- At every moment the file is the lines of the calls in the order of the lock, the last one
perhaps only in part, and then its call has not returned. -/
theorem threads_file {config : WalConfig} {now : ℚ} {es : List (Pool.Event WalCall ℕ)} {c : WalPool}
    (h : Runs.run (Mutex.next walCode) { shared := { value := { wal := .openAt config now [] } } } es =
      some c) :
    c.shared.value.wal.file = logBytes (recordsOf (Mutex.taken c.journal)) ∨
      ∃ pre i call l k, Mutex.taken c.journal = pre ++ [(i, call)] ∧
        c.threads[i]? = some (.inside call l) ∧
        c.shared.value.wal.file =
          logBytes (recordsOf pre) ++ (Utf8.encode (line call.2)).take k := by
  rcases Mutex.midway WalHandle.implements rfl h with hv | ⟨pre, i, call, l, ht, hp, hm⟩
  · left
    rw [hv, WalHandle.file_settled]
  · obtain ⟨k, hk⟩ := hm.file
    rw [WalHandle.file_settled] at hk
    exact .inr ⟨pre, i, call, l, k, ht, hp, hk⟩

/-- **At every moment of every interleaving the file reads back as records in the order of the
lock**: all of those whose append has returned, each once, and at most one line is torn. -/
theorem threads_recover {config : WalConfig} {now : ℚ} {es : List (Pool.Event WalCall ℕ)}
    {c : WalPool}
    (h : Runs.run (Mutex.next walCode) { shared := { value := { wal := .openAt config now [] } } } es =
      some c) (config' : WalConfig) (now' : ℚ) :
    ∃ (order : List (ℕ × WalCall)) (w : AuditWal),
      (openAt config' now' c.shared.value.wal.file).records =
        .ok ((recordsOf order).map JsonObject.toJson, w) ∧
      w.stats.truncated ≤ 1 ∧ order <+: Mutex.taken c.journal ∧ (order.map Prod.fst).Nodup ∧
      (∀ i call r, c.threads[i]? = some (.done call r) → (i, call) ∈ order) ∧
      ((∀ p ∈ c.threads, ∃ call r, p = .done call r) → order = Mutex.taken c.journal) := by
  have hlin := Mutex.linearizable WalHandle.implements rfl h
  have hdone : ∀ i call r, c.threads[i]? = some (.done call r) →
      (i, call) ∈ Mutex.taken c.journal := by
    intro i call r hp
    rcases hlin.replies hp with ⟨-, x, hx⟩ | ⟨pre, post, ht, -⟩
    · cases hx
    · rw [ht]
      exact List.mem_append_right _ List.mem_cons_self
  rcases threads_file h with hfile | ⟨pre, i, call, l, k, ht, hp, hfile⟩
  · refine ⟨_, _, records_of_file (?_ : readLog (openAt config' now' _).file = some (_, 0)), ?_,
      List.prefix_rfl, hlin.once, hdone, fun _ => rfl⟩
    · exact (congrArg readLog hfile).trans (readLog_logBytes _)
    · exact Nat.zero_le 1
  · have hline : logBytes [call.2] = Utf8.encode (line call.2) := by
      rw [logBytes, logText_singleton]
    have hpre : c.shared.value.wal.file <+: logBytes (recordsOf pre ++ [call.2]) := by
      rw [hfile, logBytes_append, hline]
      exact (List.prefix_append_right_inj _).mpr (List.take_prefix _ _)
    obtain ⟨n, torn, hread, hwhole, htorn, -⟩ := readLog_front hpre
    have hlen : (recordsOf pre).length ≤ n := by
      by_contra hlt
      have hi : n < (recordsOf pre ++ [call.2]).length := by
        rw [List.length_append]
        omega
      have hend : lineEnd (recordsOf pre ++ [call.2]) ⟨n, hi⟩ <
          lineStart (recordsOf pre ++ [call.2]) (recordsOf pre).length :=
        lineEnd_lt_of_lt (not_le.mp hlt)
      refine absurd ((hwhole ⟨n, hi⟩).mpr (hend.le.trans ?_)) (lt_irrefl n)
      rw [lineStart, List.take_left, hfile, List.length_append]
      exact Nat.le_add_right _ _
    have horder : (recordsOf pre ++ [call.2]).take n =
        recordsOf (pre ++ [(i, call)].take (n - (recordsOf pre).length)) := by
      rw [List.take_append, List.take_of_length_le hlen, recordsOf, recordsOf, List.map_append,
        List.map_take]
      rfl
    have hsub : pre ++ [(i, call)].take (n - (recordsOf pre).length) <+: Mutex.taken c.journal := by
      rw [ht]
      exact (List.prefix_append_right_inj pre).mpr (List.take_prefix _ _)
    rw [horder] at hread
    refine ⟨_, _, records_of_file hread, ?_, hsub, hlin.once.sublist (hsub.sublist.map _), ?_, ?_⟩
    · exact (Nat.zero_add torn).le.trans htorn
    · intro j call' r hj
      have hmem := hdone j call' r hj
      rw [ht] at hmem
      rcases List.mem_append.mp hmem with hmem | hmem
      · exact List.mem_append_left _ hmem
      · cases List.mem_singleton.mp hmem
        rw [hp] at hj
        cases hj
    · intro hall
      obtain ⟨call', r, hr⟩ := hall _ (List.mem_of_getElem? hp)
      cases hr

/-- Two threads append; the process dies when the second has the lock and a byte of its line is in
the file. -/
def twoAppends : List (Pool.Event WalCall ℕ) :=
  [.start oneRecord, .start oneRecord, .step 1 0, .step 0 0] ++
    List.replicate 3 (.step 0 20) ++ List.replicate 4 (.step 0 0) ++ [.step 1 0, .step 1 1]

theorem threads_recover_two : ∃ c : WalPool,
    Runs.run (Mutex.next walCode) { shared := { value := { wal := .openAt {} 0 [] } } } twoAppends =
      some c ∧ c.shared.value.wal.file.length = 21 ∧
    ∃ (order : List (ℕ × WalCall)) (w : AuditWal),
      (openAt {} 0 c.shared.value.wal.file).records =
        .ok ((recordsOf order).map JsonObject.toJson, w) ∧
      w.stats.truncated ≤ 1 ∧ order <+: Mutex.taken c.journal ∧ (order.map Prod.fst).Nodup ∧
      (∀ i call r, c.threads[i]? = some (.done call r) → (i, call) ∈ order) ∧
      ((∀ p ∈ c.threads, ∃ call r, p = .done call r) → order = Mutex.taken c.journal) := by
  have h : (Runs.run (Mutex.next walCode) { shared := { value := { wal := .openAt {} 0 [] } } }
      twoAppends).map (fun c => c.shared.value.wal.file.length) = some 21 := by decide +kernel
  obtain ⟨c, hrun, hlen⟩ := Option.map_eq_some_iff.mp h
  exact ⟨c, hrun, hlen, threads_recover hrun {} 0⟩

end AuditWal
