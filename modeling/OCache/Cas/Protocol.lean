import OCache.Lib.EventSystem
import OCache.Merge.Operands

/-!
# Compare-and-swap calls on one key

Any number of `GetWithVersion`, `PutIfVersion` and `DeleteIfVersion` calls run on one key. A call
reads the row, takes a version stamp, merges its operand and reads the row back to learn whether it
won; between any two of these steps other calls may move, a migration may rewrite the row, and an
eviction pass may remove it. RocksDB orders the merges of a key totally and a read returns the fold
of the merges before it, so the row is one value that merges replace.

`Trans` says what an event that changes anything can do, one constructor for each way a call moves,
and `step_trans` connects it with `step`; all invariants are about `Trans`.
-/

namespace OCache.Cas

open EventSystem Merge

/-! ## Rules of the entry points -/

/-- What a read row means for a compare-and-swap. -/
inductive RowState where
  | absent
  | fenced
  | live
deriving DecidableEq

variable (now : Int64)

/-- The state of a row at the time `now` and the version that goes with it. -/
def casClassify : Option ValueMessage → RowState × UInt64
  | none => (.absent, 0)
  | some vm =>
    if vm.expiry = tombstoneExpiry then
      if vm.version = 0 then (.absent, 0) else (.fenced, vm.version)
    else if 0 < vm.expiry ∧ vm.expiry ≤ now then (.absent, 0)
    else (.live, effectiveRowVersion (some vm))

/-- The check an entry point makes before it merges. -/
def casAdmits (state : RowState) (cur expected : UInt64) : Bool :=
  match state with
  | .live => cur = expected
  | .fenced => expected = 0 ∨ cur ≤ expected
  | .absent => true

/-- `DeleteIfVersion` is narrower on a plainly absent key: only an unguarded delete proceeds. -/
def deleteAdmits (state : RowState) (cur expected : UInt64) : Bool :=
  match state with
  | .absent => expected = 0
  | _ => casAdmits state cur expected

/-- The version a mismatch reports. -/
def currentVersionOf (row : Option ValueMessage) : UInt64 := (casClassify now row).2

/-- The version the operand carries. The merge operator does not know the time, so a call that found
an expired row expects the version stored in it. -/
def carriedVersion (row : Option ValueMessage) (expected : UInt64) : UInt64 :=
  match row with
  | none => expected
  | some prev =>
    if (casClassify now row).1 = .absent ∧ prev.expiry ≠ tombstoneExpiry then
      effectiveRowVersion (some prev)
    else expected

/-! ## Calls -/

/-- What a call returns. -/
inductive Outcome where
  | found (version : UInt64)
  | absent (token : UInt64)
  | stored (version : UInt64)
  | deleted
  | mismatch (current : UInt64)
deriving DecidableEq

/-- The version the caller learns. -/
def Outcome.version : Outcome → Option UInt64
  | found v | absent v | stored v | mismatch v => some v
  | deleted => none

def Outcome.isSuccess : Outcome → Bool
  | stored _ | deleted => true
  | _ => false

/-- What a call wants to write. -/
inductive Op where
  | put (payload : Payload) (expiry : Int64)
  | delete
deriving DecidableEq

/-- Where a call stands. `expected` is the caller's argument throughout. -/
inductive Call where
  | idle
  | getToken
  | stamping (op : Op) (expected carried : UInt64)
  | refreshing (payload : Payload) (expiry : Int64) (expected stamp : UInt64)
  | merging (expected : UInt64) (operand : ValueMessage)
  | readingBack (expected : UInt64) (operand : ValueMessage)
  | done (expected : UInt64) (outcome : Outcome)
deriving DecidableEq

/-- An operand in the merge order of the key, with the row it met. -/
structure Merged where
  /-- The call that merged the operand. -/
  call : Nat
  /-- The operand. -/
  operand : ValueMessage
  /-- The row before the merge. -/
  base : Option ValueMessage

namespace Merged

/-- The operand replaced the row. -/
def applied (m : Merged) : Bool := applies m.base m.operand

def isPut (m : Merged) : Bool := m.operand.opType = .casPut

def isDelete (m : Merged) : Bool := m.operand.opType = .casDelete

end Merged

/-- The row of the key, the calls on it, and what happened so far. -/
structure State where
  /-- The metadata row. -/
  row : Option ValueMessage
  /-- The stamp issued last. -/
  lastStamp : UInt64
  /-- Where each call stands. -/
  calls : Nat → Call
  /-- The row each migration worker has read. -/
  migrators : Nat → Option ValueMessage
  /-- The eviction passes that have the key in their batch. -/
  evictors : Nat → Bool
  /-- The CAS operands merged so far, newest first. -/
  log : List Merged
  /-- The stamps issued so far with the call they went to, newest first. -/
  issued : List (Nat × UInt64)
  /-- The versions returned to callers so far. -/
  returned : List UInt64
  /-- The tokens that reads of the absent key handed out. -/
  tokens : List UInt64

namespace State

/-- A key without a row. Stamps are nanosecond timestamps, so none is `0` or `versionLegacy`. -/
@[simp] def init : State where
  row := none
  lastStamp := versionLegacy
  calls _ := .idle
  migrators _ := none
  evictors _ := false
  log := []
  issued := []
  returned := []
  tokens := []

variable (s : State) (i : Nat)

@[simp] def setCall (c : Call) : State := { s with calls := Function.update s.calls i c }

/-- `nextVersion` hands `stamp` to the call. -/
@[simp] def issue (stamp : UInt64) : State :=
  { s with lastStamp := stamp, issued := (i, stamp) :: s.issued }

/-- The call returns. -/
@[simp] def finish (expected : UInt64) (outcome : Outcome) : State :=
  { s.setCall i (.done expected outcome) with
    returned := outcome.version.toList ++ s.returned
    tokens := match outcome with
      | .absent token => token :: s.tokens
      | _ => s.tokens }

/-- The call's operand is merged. -/
@[simp] def mergeOperand (expected : UInt64) (operand : ValueMessage) : State :=
  { s.setCall i (.readingBack expected operand) with
    row := some (mergeRow s.row [operand])
    log := ⟨i, operand, s.row⟩ :: s.log }

end State

/-! ## Steps -/

/-- A step of a call, a migration or an eviction pass. -/
inductive Event where
  | getRead (i : Nat) (now : Int64)
  | putRead (i : Nat) (now : Int64) (expected : UInt64) (payload : Payload) (expiry : Int64)
  | deleteRead (i : Nat) (now : Int64) (expected : UInt64)
  | nextVersion (i : Nat) (stamp : UInt64)
  | putRefresh (i : Nat) (now : Int64)
  | merge (i : Nat)
  | readBack (i : Nat) (now : Int64)
  | migrateRead (w : Nat)
  | migrateMerge (w : Nat) (segmentPath : String) (segmentOffset : Int64)
  | evictRead (w : Nat) (now : Int64)
  | evictCommit (w : Nat)

/-- The row carries the stamp: `gotFound` and `got.Version == newStamp`. -/
@[simp] def carries (row : Option ValueMessage) (stamp : UInt64) : Bool :=
  match row with
  | none => false
  | some vm => vm.version = stamp

/-- One step. An event that is not enabled changes nothing. -/
def step (s : State) : Event → State
  | .getRead i now =>
    match s.calls i with
    | .idle =>
      match casClassify now s.row with
      | (.live, cur) => s.finish i 0 (.found cur)
      | (.fenced, cur) => s.finish i 0 (.absent cur)
      | (.absent, _) => s.setCall i .getToken
    | _ => s
  | .putRead i now expected payload expiry =>
    match s.calls i with
    | .idle =>
      let (state, cur) := casClassify now s.row
      if casAdmits state cur expected then
        s.setCall i (.stamping (.put payload expiry) expected expected)
      else s.finish i expected (.mismatch cur)
    | _ => s
  | .deleteRead i now expected =>
    match s.calls i with
    | .idle =>
      let (state, cur) := casClassify now s.row
      if deleteAdmits state cur expected then
        s.setCall i (.stamping .delete expected (carriedVersion now s.row expected))
      else s.finish i expected (.mismatch cur)
    | _ => s
  | .nextVersion i stamp =>
    if s.lastStamp < stamp then
      match s.calls i with
      | .getToken => (s.issue i stamp).finish i 0 (.absent stamp)
      | .stamping (.put payload expiry) expected _ =>
        (s.issue i stamp).setCall i (.refreshing payload expiry expected stamp)
      | .stamping .delete expected carried =>
        (s.issue i stamp).setCall i (.merging expected (casDeleteOperand stamp carried))
      | _ => s
    else s
  | .putRefresh i now =>
    match s.calls i with
    | .refreshing payload expiry expected stamp =>
      let (state, cur) := casClassify now s.row
      if casAdmits state cur expected then
        s.setCall i (.merging expected
          (casPutOperand payload expiry stamp (carriedVersion now s.row expected)))
      else s.finish i expected (.mismatch cur)
    | _ => s
  | .merge i =>
    match s.calls i with
    | .merging expected operand => s.mergeOperand i expected operand
    | _ => s
  | .readBack i now =>
    match s.calls i with
    | .readingBack expected operand =>
      if carries s.row operand.version then
        s.finish i expected
          (if operand.opType = .casPut then .stored operand.version else .deleted)
      else s.finish i expected (.mismatch (currentVersionOf now s.row))
    | _ => s
  | .migrateRead w => { s with migrators := Function.update s.migrators w s.row }
  | .migrateMerge w segmentPath segmentOffset =>
    match (s.migrators w).bind (migrationOperand · segmentPath segmentOffset) with
    | some operand => { s with row := some (mergeRow s.row [operand]) }
    | none => s
  | .evictRead w now =>
    -- An eviction pass skips missing rows and leaves expired ones to the TTL sweep.
    match s.row with
    | some vm =>
      if 0 < vm.expiry ∧ vm.expiry ≤ now then s
      else { s with evictors := Function.update s.evictors w true }
    | none => s
  | .evictCommit w =>
    if s.evictors w then { s with row := none, evictors := Function.update s.evictors w false }
    else s

/-- What an event that changes the state does. -/
inductive Trans (s : State) : Event → State → Prop
  | getFound {i : Nat} {now : Int64} {v : UInt64} (hpc : s.calls i = .idle)
      (hrow : casClassify now s.row = (.live, v)) :
      Trans s (.getRead i now) (s.finish i 0 (.found v))
  | getFenced {i : Nat} {now : Int64} {v : UInt64} (hpc : s.calls i = .idle)
      (hrow : casClassify now s.row = (.fenced, v)) :
      Trans s (.getRead i now) (s.finish i 0 (.absent v))
  | getAbsent {i : Nat} {now : Int64} (hpc : s.calls i = .idle) :
      Trans s (.getRead i now) (s.setCall i .getToken)
  | getToken {i : Nat} {stamp : UInt64} (hpc : s.calls i = .getToken) (hlt : s.lastStamp < stamp) :
      Trans s (.nextVersion i stamp) ((s.issue i stamp).finish i 0 (.absent stamp))
  | admitPut {i : Nat} {now : Int64} {expected : UInt64} {payload : Payload} {expiry : Int64}
      (hpc : s.calls i = .idle) :
      Trans s (.putRead i now expected payload expiry)
        (s.setCall i (.stamping (.put payload expiry) expected expected))
  | rejectPut {i : Nat} {now : Int64} {expected : UInt64} {payload : Payload} {expiry : Int64}
      (hpc : s.calls i = .idle) :
      Trans s (.putRead i now expected payload expiry)
        (s.finish i expected (.mismatch (currentVersionOf now s.row)))
  | admitDelete {i : Nat} {now : Int64} {expected : UInt64} (hpc : s.calls i = .idle)
      (hadmits : deleteAdmits (casClassify now s.row).1 (casClassify now s.row).2 expected = true) :
      Trans s (.deleteRead i now expected)
        (s.setCall i (.stamping .delete expected (carriedVersion now s.row expected)))
  | rejectDelete {i : Nat} {now : Int64} {expected : UInt64} (hpc : s.calls i = .idle) :
      Trans s (.deleteRead i now expected)
        (s.finish i expected (.mismatch (currentVersionOf now s.row)))
  | stampPut {i : Nat} {stamp : UInt64} {payload : Payload} {expiry : Int64}
      {expected carried : UInt64}
      (hpc : s.calls i = .stamping (.put payload expiry) expected carried)
      (hlt : s.lastStamp < stamp) :
      Trans s (.nextVersion i stamp)
        ((s.issue i stamp).setCall i (.refreshing payload expiry expected stamp))
  | stampDelete {i : Nat} {stamp expected carried : UInt64}
      (hpc : s.calls i = .stamping .delete expected carried) (hlt : s.lastStamp < stamp) :
      Trans s (.nextVersion i stamp)
        ((s.issue i stamp).setCall i (.merging expected (casDeleteOperand stamp carried)))
  | refresh {i : Nat} {now : Int64} {payload : Payload} {expiry : Int64} {expected stamp : UInt64}
      (hpc : s.calls i = .refreshing payload expiry expected stamp) :
      Trans s (.putRefresh i now) (s.setCall i (.merging expected
        (casPutOperand payload expiry stamp (carriedVersion now s.row expected))))
  | rejectRefresh {i : Nat} {now : Int64} {payload : Payload} {expiry : Int64}
      {expected stamp : UInt64} (hpc : s.calls i = .refreshing payload expiry expected stamp) :
      Trans s (.putRefresh i now)
        (s.finish i expected (.mismatch (currentVersionOf now s.row)))
  | merge {i : Nat} {expected : UInt64} {operand : ValueMessage}
      (hpc : s.calls i = .merging expected operand) :
      Trans s (.merge i) (s.mergeOperand i expected operand)
  | won {i : Nat} {now : Int64} {expected : UInt64} {operand : ValueMessage}
      (hpc : s.calls i = .readingBack expected operand)
      (hrow : carries s.row operand.version = true) :
      Trans s (.readBack i now) (s.finish i expected
        (if operand.opType = .casPut then .stored operand.version else .deleted))
  | lost {i : Nat} {now : Int64} {expected : UInt64} {operand : ValueMessage}
      (hpc : s.calls i = .readingBack expected operand)
      (hrow : carries s.row operand.version = false) :
      Trans s (.readBack i now)
        (s.finish i expected (.mismatch (currentVersionOf now s.row)))
  | migrateRead {w : Nat} :
      Trans s (.migrateRead w) { s with migrators := Function.update s.migrators w s.row }
  | migrateMerge {w : Nat} {segmentPath : String} {segmentOffset : Int64}
      {read operand : ValueMessage} (hread : s.migrators w = some read)
      (hop : migrationOperand read segmentPath segmentOffset = some operand) :
      Trans s (.migrateMerge w segmentPath segmentOffset)
        { s with row := some (mergeRow s.row [operand]) }
  | evictRead {w : Nat} {now : Int64} :
      Trans s (.evictRead w now) { s with evictors := Function.update s.evictors w true }
  | evictCommit {w : Nat} (hstaged : s.evictors w = true) :
      Trans s (.evictCommit w)
        { s with row := none, evictors := Function.update s.evictors w false }

/-- Every step is one of the transitions, or changes nothing. -/
theorem step_trans (s : State) (e : Event) : step s e = s ∨ Trans s e (step s e) := by
  cases e with
  | getRead i now =>
    simp only [step]
    split
    · rename_i hpc
      split
      · exact .inr (.getFound hpc ‹_›)
      · exact .inr (.getFenced hpc ‹_›)
      · exact .inr (.getAbsent hpc)
    · exact .inl rfl
  | putRead i now expected payload expiry =>
    simp only [step]
    split
    · rename_i hpc
      split
      · exact .inr (.admitPut hpc)
      · exact .inr (.rejectPut hpc)
    · exact .inl rfl
  | deleteRead i now expected =>
    simp only [step]
    split
    · rename_i hpc
      split
      · exact .inr (.admitDelete hpc ‹_›)
      · exact .inr (.rejectDelete hpc)
    · exact .inl rfl
  | nextVersion i stamp =>
    simp only [step]
    split
    · rename_i hlt
      split
      · exact .inr (.getToken ‹_› hlt)
      · exact .inr (.stampPut ‹_› hlt)
      · exact .inr (.stampDelete ‹_› hlt)
      · exact .inl rfl
    · exact .inl rfl
  | putRefresh i now =>
    simp only [step]
    split
    · rename_i hpc
      split
      · exact .inr (.refresh hpc)
      · exact .inr (.rejectRefresh hpc)
    · exact .inl rfl
  | merge i =>
    simp only [step]
    split
    · exact .inr (.merge ‹_›)
    · exact .inl rfl
  | readBack i now =>
    simp only [step]
    split
    · rename_i hpc
      split
      · exact .inr (.won hpc ‹_›)
      · rename_i hlost
        exact .inr (.lost hpc (by simpa using hlost))
    · exact .inl rfl
  | migrateRead w => exact .inr .migrateRead
  | migrateMerge w segmentPath segmentOffset =>
    simp only [step]
    split
    · rename_i operand h
      obtain ⟨read, hread, hop⟩ := Option.bind_eq_some_iff.mp h
      exact .inr (.migrateMerge hread hop)
    · exact .inl rfl
  | evictRead w now =>
    simp only [step]
    split
    · split
      · exact .inl rfl
      · exact .inr .evictRead
    · exact .inl rfl
  | evictCommit w =>
    simp only [step]
    split
    · exact .inr (.evictCommit ‹_›)
    · exact .inl rfl

/-- What every transition preserves holds after every admissible run. -/
theorem invariant_of_trans {ok : State → Event → Prop} {I : State → Prop}
    (hstep : ∀ s e s', I s → ok s e → Trans s e s' → I s') {s : State} {es : List Event}
    (hs : I s) (hok : RunOk step ok s es) : I (run step s es) := by
  refine invariant_run (fun s e hI hoke => ?_) hs hok
  rcases step_trans s e with h | h
  · rwa [h]
  · exact hstep s e _ hI hoke h

end OCache.Cas
