import OCache.Eviction.ByIndex
import OCache.Lib.SignedWord
import OCache.Proto.ValueWire

/-!
# The sweep of expired keys

`cleanupExpiredKeys` walks an iterator that shows the metadata rows as they were when it was opened.
Rows that do not decode are deleted in a write batch right away, expired rows are remembered, and
`flush` writes the batch from time to time. It reads every remembered row again and deletes it only
if it has the expiry it was seen with, and a tombstone only if it has the stamp it was seen with. In
between, `Put`, `PutIfVersion` and `DeleteIfVersion` write rows.

The re-read and the write of a flush are one step. Rows are stored bytes, and any bytes are allowed.
-/

namespace OCache.Cleaner

open Merge ValueWire Eviction

/-! ## The sweep -/

/-- An expired row that the scan has seen. -/
structure Candidate (K : Type) where
  key : K
  expiry : Int64
  /-- The stamp, read for a tombstone only. -/
  version : UInt64

/-- Where the sweep is. -/
inductive Phase where
  | scanning
  | flushing (final : Bool)
  | finished

/-- The variables of `cleanupExpiredKeys`. -/
structure Sweep (E K : Type) where
  /-- The second the sweep started in. -/
  now : Int64
  /-- The rows that the iterator shows. -/
  snapshot : K → Option (List UInt8)
  /-- The keys that the iterator has ahead. -/
  ahead : List K
  phase : Phase
  candidates : List (Candidate K)
  /-- The deletions in the write batch. -/
  batch : List (Delete E K)
  /-- The merges into the delete index in the write batch. -/
  credits : List (String × Int64)
  pendingCleaned : Nat
  pendingBytes : Int64
  pendingFiles : List ValueMessage
  committedCleaned : Nat
  committedBytes : Int64

/-- The store around the sweep. -/
structure State (E K : Type) where
  db : Database E K
  reclaimed : Reclaimed
  totalSize : Int64
  cleanedKeys : Nat
  /-- The clock, in nanoseconds from the start of 1970. -/
  clock : Int
  sweep : Sweep E K
  /-- A write has landed on the key since the iterator was opened. No step reads it. -/
  written : K → Bool

section Model

variable {E K : Type} [DecidableEq E] [DecidableEq K]

variable (w : Sweep E K)

/-- `batch.Count` -/
def Sweep.count : Nat := w.batch.length + w.credits.length

/-- A batch of this many operations is written. -/
def maxBatch : Nat := 1000

/-- So many candidates are flushed. -/
def expiryFlushBatch : Nat := 100

variable (db : Database E K)

/-- `stageEvictionIndexDeletes`. A back-reference that cannot be read is deleted without its
entry. -/
def stageEvictionIndexDeletes (readable : Bool) (key : K) : List (Delete E K) :=
  (if readable then (db.backrefs key).toList.map .entry else []) ++ [.backref key]

variable (retention : Int64)

/-- The stamp is younger than the retention. Its time is an `int64` of nanoseconds. -/
def young (clock : Int) (version : UInt64) : Bool :=
  version ≠ 0 ∧ SignedWord.since clock version.toInt64.toInt < retention.toInt

/-- What the scan remembers of a row that decodes. -/
def candidate? (clock : Int) (now : Int64) (key : K) (value : List UInt8)
    (expiry : Int64) : Option (Candidate K) :=
  if 0 < expiry ∧ expiry ≤ now then
    if expiry = tombstoneExpiry then
      let version := (valueMessageVersion value).getD 0
      if young retention clock version then none else some ⟨key, expiry, version⟩
    else some ⟨key, expiry, 0⟩
  else none

/-- The check behind every row that decodes. -/
def Sweep.flushIfFull : Sweep E K :=
  if maxBatch ≤ w.count ∨ expiryFlushBatch ≤ w.candidates.length then
    { w with phase := .flushing false }
  else w

/-- The body of the loop for the row of a key. -/
def Sweep.visit (clock : Int) (db : Database E K) (readable : Bool) (key : K)
    (value : List UInt8) (w : Sweep E K) : Sweep E K :=
  match valueMessageExpiry value with
  | none =>
    -- The row is deleted, and the loop continues without a look at the size of the batch.
    { w with
      batch := w.batch ++ .row key :: stageEvictionIndexDeletes db readable key
      pendingCleaned := w.pendingCleaned + 1 }
  | some expiry =>
    Sweep.flushIfFull { w with
      candidates := w.candidates ++ (candidate? retention clock w.now key value expiry).toList }

variable (s : State E K)

/-- The end of the sweep. -/
def State.finish : State E K :=
  { s with
    cleanedKeys := s.cleanedKeys + s.sweep.committedCleaned
    sweep := { s.sweep with phase := .finished } }

/-- The next row of the iterator, or the decision about a final flush. -/
def scan (readable : Bool) (s : State E K) : State E K :=
  match s.sweep.phase, s.sweep.ahead with
  | .scanning, key :: ahead =>
    let w := { s.sweep with ahead := ahead }
    match w.snapshot key with
    | some value => { s with sweep := w.visit retention s.clock s.db readable key value }
    | none => { s with sweep := w }
  | .scanning, [] =>
    if 0 < s.sweep.count ∨ s.sweep.candidates ≠ [] then
      { s with sweep := { s.sweep with phase := .flushing true } }
    else s.finish
  | _, _ => s

/-- The re-check: the row cannot be told from the one the scan saw. -/
def Candidate.matches (c : Candidate K) (value : List UInt8) : Bool :=
  match valueMessageExpiry value with
  | none => true
  | some expiry =>
    expiry = c.expiry ∧
      (c.expiry = tombstoneExpiry → (valueMessageVersion value).getD 0 = c.version)

/-- The deletion of a row, with what has to be reclaimed for it. -/
def Sweep.stage (readable : Bool) (key : K) (value : List UInt8)
    (w : Sweep E K) : Sweep E K :=
  let w := { w with
    batch := w.batch ++ .row key :: stageEvictionIndexDeletes db readable key
    pendingCleaned := w.pendingCleaned + 1 }
  match (valueMessageExpiry value).bind fun _ => unmarshalValueMessageSkippingData value with
  | none => w
  | some vm =>
    let w := { w with pendingBytes := w.pendingBytes + vm.valueLength }
    if vm.valueType = .segment ∧ vm.segmentPath ≠ "" then
      { w with credits := w.credits ++ [(vm.segmentPath, vm.valueLength)] }
    else { w with pendingFiles := w.pendingFiles ++ [vm] }

/-- The loop of `flush` for a candidate. A failed read leaves the row to the next sweep. -/
def Sweep.recheck (readable backrefReadable : K → Bool) (w : Sweep E K)
    (c : Candidate K) : Sweep E K :=
  match db.rows c.key with
  | some value =>
    if readable c.key ∧ c.matches value then w.stage db (backrefReadable c.key) c.key value else w
  | none => w

/-- The variables behind the write of a batch. -/
def Sweep.clear : Sweep E K :=
  { w with batch := [], credits := [], pendingCleaned := 0, pendingBytes := 0, pendingFiles := [] }

/-- The write of the batch, and what follows if it succeeds. -/
def State.write (ok : Bool) : State E K :=
  let w := s.sweep
  if w.count = 0 then s
  else if ok then
    let reclaimed := { s.reclaimed with deleteIndex := s.reclaimed.deleteIndex ++ w.credits }
    { s with
      db := s.db.write w.batch
      reclaimed := w.pendingFiles.foldl stageFileDeletion reclaimed
      totalSize := if 0 < w.pendingBytes then s.totalSize - w.pendingBytes else s.totalSize
      sweep := { w.clear with
        committedCleaned := w.committedCleaned + w.pendingCleaned
        committedBytes := w.committedBytes + w.pendingBytes } }
  else { s with sweep := w.clear }

/-- `flush` -/
def flush (readable backrefReadable : K → Bool) (ok : Bool) (s : State E K) : State E K :=
  match s.sweep.phase with
  | .flushing final =>
    let w := s.sweep.candidates.foldl (Sweep.recheck s.db readable backrefReadable) s.sweep
    let s := State.write { s with sweep := { w with candidates := [] } } ok
    if final then s.finish else { s with sweep := { s.sweep with phase := .scanning } }
  | _ => s

/-- The channel is closed: the sweep stops before the next row or before a flush, not before the
final one. -/
def shutdown : State E K :=
  match s.sweep.phase, s.sweep.ahead with
  | .scanning, _ :: _ => { s with sweep := { s.sweep with phase := .finished } }
  | .flushing false, _ => { s with sweep := { s.sweep with phase := .finished } }
  | _, _ => s

/-! ## The writes of others -/

/-- A call that writes a row. -/
inductive Write (K : Type) where
  | put (key : K) (payload : {p : Payload // p.Sized}) (expiry : Int64)
  | putIfVersion (key : K) (payload : {p : Payload // p.Sized}) (expiry : Int64)
    (stamp expected : UInt64)
  | deleteIfVersion (key : K) (stamp expected : UInt64)

namespace Write

def key : Write K → K
  | put key _ _ => key
  | putIfVersion key _ _ _ _ => key
  | deleteIfVersion key _ _ => key

/-- What is stored after the write; a missing row is merged into as no bytes. -/
def stored (existing : List UInt8) : Write K → List UInt8
  | put _ payload expiry => (Store.putRow payload.1 expiry).marshal
  | putIfVersion _ payload expiry stamp expected =>
    mergeMetadataCAS existing [(casPutOperand payload.1 expiry stamp expected).marshal]
  | deleteIfVersion _ stamp expected =>
    mergeMetadataCAS existing [(casDeleteOperand stamp expected).marshal]

/-- The write leaves a row of its own. -/
def lands (existing : List UInt8) : Write K → Bool
  | put _ _ _ => true
  | putIfVersion _ payload expiry stamp expected =>
    Merge.lands existing (casPutOperand payload.1 expiry stamp expected)
  | deleteIfVersion _ stamp expected => Merge.lands existing (casDeleteOperand stamp expected)

end Write

/-- The stored bytes a write meets. -/
def State.existing (key : K) : List UInt8 := (s.db.rows key).getD []

@[simp] def State.apply (w : Write K) : State E K :=
  { s with
    db := { s.db with rows := Function.update s.db.rows w.key (some (w.stored (s.existing w.key))) }
    written := Function.update s.written w.key
      (s.written w.key || w.lands (s.existing w.key)) }

/-- What happens next. -/
inductive Event (E K : Type) where
  | scan (readable : Bool)
  | flush (readable backrefReadable : K → Bool) (ok : Bool)
  | shutdown
  | write (w : Write K)
  /-- The writers keep the index of the eviction in batches of their own. -/
  | index (backrefs : K → Option E) (entries : List E)
  | tick (clock : Int)

def step (s : State E K) : Event E K → State E K
  | .scan readable => scan retention readable s
  | .flush readable backrefReadable ok => flush readable backrefReadable ok s
  | .shutdown => shutdown s
  | .write w => s.apply w
  | .index backrefs entries => { s with db := { s.db with backrefs := backrefs, entries := entries } }
  | .tick clock => { s with clock := clock }

/-- The sweep at its start: the iterator shows the keys of `order` that have a row. -/
def cleanupExpiredKeys (order : List K) (now : Int64) (db : Database E K) (reclaimed : Reclaimed)
    (totalSize : Int64) (cleanedKeys : Nat) (clock : Int) : State E K where
  db := db
  reclaimed := reclaimed
  totalSize := totalSize
  cleanedKeys := cleanedKeys
  clock := clock
  sweep :=
    { now := now, snapshot := db.rows, ahead := order.filter fun key => (db.rows key).isSome
      phase := .scanning, candidates := [], batch := [], credits := [], pendingCleaned := 0
      pendingBytes := 0, pendingFiles := [], committedCleaned := 0, committedBytes := 0 }
  written _ := false

end Model

end OCache.Cleaner
