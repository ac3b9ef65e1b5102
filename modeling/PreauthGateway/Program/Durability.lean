import PreauthGateway.Program.Machine

/-!
# What a machine crash may lose

A process writes items to files and syncs files to the device. A crash of the machine may lose what
was written to a file and not synced since.

## Main definitions

* `FileOp`, `FileOp.atRisk`: writes and syncs, and the writes that no later sync of their file
  covers
* `Machine.trace`: the operations of a run of a machine whose replies are lists of them

## Main results

* `FileOp.atRisk_append`: **what later operations leave at risk** of what was at risk before
-/

/-- A write of an item to a file, or a sync of a file. -/
inductive FileOp (κ ι : Type*)
  | write (file : κ) (item : ι)
  | sync (file : κ)
deriving DecidableEq

namespace FileOp

variable {κ ι : Type*} {ops ops' : List (FileOp κ ι)} {file : κ}

/-- One of the operations is a sync of the file. -/
def Synced (file : κ) : List (FileOp κ ι) → Prop
  | [] => False
  | .write _ _ :: ops => Synced file ops
  | .sync f :: ops => f = file ∨ Synced file ops

theorem synced_append : Synced file (ops ++ ops') ↔ Synced file ops ∨ Synced file ops' := by
  induction ops with
  | nil => simp [Synced]
  | cons op ops ih =>
    cases op with
    | write f item => exact ih
    | sync f => exact (or_congr_right ih).trans or_assoc.symm

variable [DecidableEq κ]

instance decidableSynced (file : κ) : (ops : List (FileOp κ ι)) → Decidable (Synced file ops)
  | [] => inferInstanceAs (Decidable False)
  | .write _ _ :: ops => decidableSynced file ops
  | .sync f :: ops => @instDecidableOr (f = file) _ _ (decidableSynced file ops)

/-- The writes that no later sync of their file covers, in order. -/
def atRisk : List (FileOp κ ι) → List (κ × ι)
  | [] => []
  | .write file item :: ops => if Synced file ops then atRisk ops else (file, item) :: atRisk ops
  | .sync _ :: ops => atRisk ops

/-- **What later operations leave at risk**: the earlier writes to the files that they do not sync,
and their own. -/
theorem atRisk_append (ops ops' : List (FileOp κ ι)) :
    atRisk (ops ++ ops') = ((atRisk ops).filter fun p => ¬ Synced p.1 ops') ++ atRisk ops' := by
  induction ops with
  | nil => rfl
  | cons op ops ih =>
    cases op with
    | sync f => exact ih
    | write f item =>
      rw [List.cons_append, atRisk, atRisk, ih]
      by_cases hops : Synced f ops
      · rw [if_pos (synced_append.mpr (.inl hops)), if_pos hops]
      by_cases hops' : Synced f ops'
      · rw [if_pos (synced_append.mpr (.inr hops')), if_neg hops,
          List.filter_cons_of_neg (by simpa using hops')]
      · rw [if_neg (mt synced_append.mp (not_or.mpr ⟨hops, hops'⟩)), if_neg hops,
          List.filter_cons_of_pos (by simpa using hops'), List.cons_append]

theorem atRisk_write (ops : List (FileOp κ ι)) (file : κ) (item : ι) :
    atRisk (ops ++ [.write file item]) = atRisk ops ++ [(file, item)] := by
  simp [atRisk_append, Synced, atRisk]

/-- A sync of the only file with writes at risk leaves none. -/
theorem atRisk_sync (h : ∀ p ∈ atRisk ops, p.1 = file) : atRisk (ops ++ [.sync file]) = [] := by
  rw [atRisk_append, List.append_eq_nil_iff]
  refine ⟨List.filter_eq_nil_iff.mpr fun p hp => ?_, rfl⟩
  simp [Synced, h p hp]

end FileOp

namespace Machine

variable {σ α κ ι : Type*} {f : σ → α → List (FileOp κ ι) × σ}

variable (f) in
/-- The operations on files of a run, in order. -/
def trace (s : σ) (as : List α) : List (FileOp κ ι) := (replies f s as).flatten

theorem trace_concat (s : σ) (as : List α) (a : α) :
    trace f s (as ++ [a]) = trace f s as ++ (f (after f s as) a).1 := by
  rw [trace, replies_append, List.flatten_append]
  simp [trace, replies]

end Machine
