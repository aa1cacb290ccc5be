import OCache.Store.Calls
import OCache.Store.Migrations

/-!
# The system

Calls and migrations are numbered and interleave in any order. A number is used for one execution; a
flush of the TTL sweep and a batch of an eviction pass count as executions of their own.
-/

namespace OCache.Store

/-- A step of the store. -/
inductive Event where
  | get (key : String) (now : Int64)
  | purge (key path : String)
  | putWrite (i : Nat) (key : String) (data : List UInt8) (expiry : Int64) (path : String)
      (checksum : UInt32)
  | putRead (i : Nat)
  | putCommit (i : Nat) (ok : Bool)
  | deleteRead (i : Nat) (key : String)
  | deleteCommit (i : Nat) (ok : Bool)
  | casPutRead (i : Nat) (key : String) (now : Int64) (expected : UInt64)
  | casPutWrite (i : Nat) (stamp : UInt64) (data : List UInt8) (expiry : Int64) (path : String)
      (checksum : UInt32)
  | casPutRefresh (i : Nat) (now : Int64)
  | casDeleteRead (i : Nat) (key : String) (now : Int64) (expected : UInt64)
  | casDeleteStamp (i : Nat) (stamp : UInt64)
  | casMerge (i : Nat) (ok : Bool)
  | casReadBack (i : Nat)
  | casFinish (i : Nat) (ok : Bool)
  | sweepScan (i : Nat) (key : String) (now : Int64) (retained : Bool)
  | sweepCheck (i : Nat) (key : String)
  | evictStage (i : Nat) (key : String) (now : Int64)
  | removeCommit (i : Nat) (ok : Bool)
  | reclaim (i : Nat)
  | unlink (path : String)
  | compactStart (seg : String)
  | compactNext (m : Nat)
  | compactSkip (m : Nat)
  | compactCopy (m : Nat) (offset : Int64)
  | compactCommit (m : Nat) (ok : Bool)
  | compactRoll (m : Nat) (seg : String)
  | compactFinish (m : Nat) (ok : Bool)
  | recompactStart (old seg : String)
  | recompactNext (m : Nat)
  | recompactRoll (m : Nat) (seg : String)
  | recompactCopy (m : Nat) (offset : Int64)
  | recompactCommit (m : Nat) (ok : Bool)
  | recompactRemove (m : Nat)
  | migrationQueue (m : Nat)
  | migrationCancel (m : Nat)

/-- A step of the compactor or the recompactor. -/
def Event.isMigration : Event → Bool
  | .compactStart .. | .compactNext .. | .compactSkip .. | .compactCopy .. | .compactCommit ..
  | .compactRoll .. | .compactFinish .. | .recompactStart .. | .recompactNext ..
  | .recompactRoll .. | .recompactCopy .. | .recompactCommit .. | .recompactRemove ..
  | .migrationQueue .. | .migrationCancel .. => true
  | _ => false

/-- One step. -/
def step (cfg : Config) (s : State) : Event → State
  | .get key now => { s with observed := get s key now :: s.observed }
  | .putWrite i key data expiry path checksum => putWrite cfg s i key data expiry path checksum
  | .purge key path => purge s key path
  | .putRead i => putRead s i
  | .putCommit i ok => putCommit cfg s i ok
  | .deleteRead i key => deleteRead s i key
  | .deleteCommit i ok => deleteCommit s i ok
  | .casPutRead i key now expected => casPutRead s i key now expected
  | .casPutWrite i stamp data expiry path checksum =>
    casPutWrite cfg s i stamp data expiry path checksum
  | .casPutRefresh i now => casPutRefresh s i now
  | .casDeleteRead i key now expected => casDeleteRead s i key now expected
  | .casDeleteStamp i stamp => casDeleteStamp s i stamp
  | .casMerge i ok => casMerge s i ok
  | .casReadBack i => casReadBack s i
  | .casFinish i ok => casFinish cfg s i ok
  | .sweepScan i key now retained => sweepScan s i key now retained
  | .sweepCheck i key => sweepCheck s i key
  | .evictStage i key now => evictStage s i key now
  | .removeCommit i ok => removeCommit s i ok
  | .reclaim i => reclaim s i
  | .unlink path => unlink s path
  | .compactStart seg => compactStart s seg
  | .compactNext m => compactNext s m
  | .compactSkip m => compactSkip s m
  | .compactCopy m offset => compactCopy s m offset
  | .compactCommit m ok => compactCommit s m ok
  | .compactRoll m seg => compactRoll s m seg
  | .compactFinish m ok => compactFinish s m ok
  | .recompactStart old seg => recompactStart s old seg
  | .recompactNext m => recompactNext s m
  | .recompactRoll m seg => recompactRoll s m seg
  | .recompactCopy m offset => recompactCopy s m offset
  | .recompactCommit m ok => recompactCommit s m ok
  | .recompactRemove m => recompactRemove s m
  | .migrationQueue m => migrationQueue s m
  | .migrationCancel m => migrationCancel s m

/-- A step of a call that writes no row: it reads, or works on its own state, raw files and
queues. -/
def Event.keepsRows : Event → Bool
  | .get .. | .putWrite .. | .putRead .. | .deleteRead .. | .casPutRead .. | .casPutWrite ..
  | .casPutRefresh .. | .casDeleteRead .. | .casDeleteStamp .. | .casReadBack .. | .casFinish ..
  | .sweepScan .. | .sweepCheck .. | .evictStage .. | .reclaim .. | .unlink .. => true
  | _ => false

lemma step_of_keepsRows (cfg : Config) (s : State) {e : Event} (he : e.keepsRows = true) :
    (step cfg s e).rows = s.rows ∧ (step cfg s e).segments = s.segments ∧
      (step cfg s e).migrations = s.migrations := by
  cases e
  all_goals cases he
  case get => exact ⟨rfl, rfl, rfl⟩
  all_goals
    -- Every branch changes calls, raw files, queues or nothing.
    simp only [step, putWrite, putRead, deleteRead, casPutRead, casPutWrite, casPutRefresh,
      casDeleteRead, casDeleteStamp, casReadBack, casFinish, sweepScan, sweepCheck, evictStage,
      reclaim, unlink]
    repeat' split
    all_goals exact ⟨rfl, rfl, rfl⟩

/-! ## Conditions on runs -/

/-- Raw files and segments are created under names that were never used. -/
def freshNames (s : State) : Event → Bool
  | .putWrite _ _ _ _ path _ | .casPutWrite _ _ _ _ path _ =>
    path ≠ "" ∧ s.rawFiles path = none ∧ s.segments path = none
  | .compactStart seg | .compactRoll _ seg | .recompactStart _ seg | .recompactRoll _ seg =>
    s.segments seg = none → seg ≠ "" ∧ s.rawFiles seg = none
  | _ => true

/-- A pass of the recompactor starts on a segment only if no batch that is yet to be committed moves
a row there. -/
def publishedFirst (s : State) : Event → Bool
  | .recompactStart old _ =>
    s.migrations.all fun x => x.staged.all fun e => (segmentPlace e.2).map Prod.fst ≠ some old
  | _ => true

end OCache.Store
