import Mathlib.Logic.Function.Basic
import OCache.Cas.Protocol

/-!
# The state of the store

A metadata row says where the value of a key is: in the row, in a raw file of its own or in a
segment that many values share. Foreground calls (`Put`, `DeleteKey`, `PutIfVersion`,
`DeleteIfVersion`), the TTL sweep and the eviction pass replace or remove rows and queue the raw
files of those rows for deletion. The compactor moves raw files into segments and the recompactor
moves the live entries of a segment into another one. None of them holds a lock across a database
read and the write that follows from it.

The segment manager reserves an open segment for one caller id. Two executions with one caller id
share their segment, so a writer here gets any open segment, or a new one.
-/

namespace OCache.Store

open Merge

/-! ## Files and segments -/

/-- The limits that decide where a value goes. -/
structure Config where
  /-- Up to this length a value is stored in its row. -/
  inlineThreshold : Nat
  /-- Up to this length a raw file is moved into a segment. -/
  compactThreshold : Nat

/-- One entry of a segment file. -/
structure Entry where
  /-- The key the entry was written for. -/
  key : String
  /-- Where the entry starts. -/
  offset : Int64
  /-- The value. -/
  data : List UInt8

/-- What the segment manager knows of a segment. -/
inductive SegmentStatus where
  | opened
  | closed
  /-- The manager no longer tracks it. -/
  | removed
deriving DecidableEq

/-- A segment file. -/
structure Segment where
  /-- Whether it can be written and read. -/
  status : SegmentStatus
  /-- The entries, oldest first. -/
  entries : List Entry

/-- The entry at an offset. -/
def Segment.entryAt (seg : Segment) (offset : Int64) : Option Entry :=
  seg.entries.find? (·.offset = offset)

instance lawfulBEq_strings : LawfulBEq (String × String) := inferInstance

/-- The raw file a row references. -/
def rawPath (vm : ValueMessage) : Option String :=
  if vm.valueType = .rawFile then some vm.rawFilePath else none

/-- The place in a segment a row references. -/
def segmentPlace (vm : ValueMessage) : Option (String × Int64) :=
  if vm.valueType = .segment then some (vm.segmentPath, vm.segmentOffset) else none

/-- Where `Put` and `PutIfVersion` store a value: a large one in the file they create for it. -/
def Config.payload (cfg : Config) (data : List UInt8) (path : String) (checksum : UInt32) :
    Payload :=
  if data.length ≤ cfg.inlineThreshold then .inline data
  else .rawFile path (Int64.ofNat data.length) checksum

/-- The row of a plain put. -/
def putRow (payload : Payload) (expiry : Int64) : ValueMessage :=
  match payload with
  | .inline data =>
    { valueType := .inline, data := data, expiry := expiry
      valueLength := Int64.ofNat data.length }
  | .rawFile path length checksum =>
    { valueType := .rawFile, rawFilePath := path, expiry := expiry, valueLength := length
      checksum := checksum }

/-- The value is due for compaction: `putLow` and `finishWonCASPut` index its raw file. -/
def Config.isMedium (cfg : Config) (length : Int64) : Bool :=
  Int64.ofNat cfg.inlineThreshold < length ∧ length ≤ Int64.ofNat cfg.compactThreshold

/-! ## Executions -/

/-- An expired row that the TTL sweep saw. -/
structure ExpiryCandidate where
  key : String
  expiry : Int64
  version : UInt64
deriving DecidableEq

/-- Where a foreground call, a flush of the TTL sweep or a batch of an eviction pass stands. -/
inductive Call where
  | idle
  /-- `Put` has stored the bytes, in the row to be or in a raw file. -/
  | putWritten (key : String) (row : ValueMessage)
  /-- `putLow` has read the row it replaces. -/
  | putRead (key : String) (row : ValueMessage) (prev : Option ValueMessage)
  /-- `DeleteKey` has read the row it removes. -/
  | deleting (key : String) (read : ValueMessage)
  /-- `PutIfVersion` has passed its first check. -/
  | casPutAdmitted (key : String) (expected : UInt64)
  /-- `PutIfVersion` has its stamp and has stored the bytes. -/
  | casPutWritten (key : String) (operand : ValueMessage)
  /-- `DeleteIfVersion` has passed its check. -/
  | casDeleteAdmitted (key : String) (carried : UInt64) (prev : Option ValueMessage)
  | casMerging (key : String) (operand : ValueMessage) (prev : Option ValueMessage)
  | casMerged (key : String) (operand : ValueMessage) (prev : Option ValueMessage)
  /-- `PutIfVersion` has read its own stamp back; `replaced` goes to the queue at the end. -/
  | casWon (key : String) (operand : ValueMessage) (replaced : List String)
  /-- The TTL sweep has seen candidates, and has staged the removal of those it read again. -/
  | sweeping (candidates : List ExpiryCandidate) (batch : List (String × ValueMessage))
  /-- The eviction pass has staged the removal of rows. -/
  | evicting (batch : List (String × ValueMessage))
  /-- Nothing is left but to queue raw files, if any. -/
  | reclaiming (paths : List String)
deriving DecidableEq

/-- A run of `CompactFiles`. -/
structure Compaction where
  /-- The segment it writes to. -/
  seg : String
  /-- The merges in its write batch. -/
  wb : List (String × ValueMessage)
  /-- The index rows its write batch deletes. -/
  dropped : List (String × String)
  /-- `filesToDeleteAfterCommit`. -/
  pending : List String
  /-- Files to queue before it goes on. -/
  ready : List String
  /-- The index rows ahead of its iterator. -/
  entries : List (String × String)

/-- A pass of `recompactSegment`. -/
structure Recompaction where
  /-- The segment it empties. -/
  old : String
  /-- The segment it writes to. -/
  seg : String
  /-- The merges in its write batch. -/
  wb : List (String × ValueMessage)
  /-- The entries ahead of its iterator. -/
  entries : List Entry
  /-- An entry could not be copied. -/
  failed : Bool

/-- Where a run of the compactor or a pass of the recompactor stands. -/
inductive Migration where
  | compacting (c : Compaction)
  /-- `compactEntry` works on a validated entry. -/
  | copying (c : Compaction) (key path : String) (row : ValueMessage)
  /-- `ensureCapacity` has committed the batch and is about to close the full segment. -/
  | rolling (c : Compaction) (key path : String) (row : ValueMessage)
  | recompacting (r : Recompaction)
  /-- `copyEntry` works on an entry that the row it read is at. -/
  | moving (r : Recompaction) (entry : Entry) (row : ValueMessage)
  /-- The batch is committed and every entry was handled. -/
  | removing (old : String)
  /-- Nothing is left but to queue files. -/
  | finishing (ready : List String)

/-- The merges in the write batch of a migration. -/
@[simp] def Migration.staged : Migration → List (String × ValueMessage)
  | compacting c | copying c .. | rolling c .. => c.wb
  | recompacting r | moving r .. => r.wb
  | _ => []

/-- What a `Get` returns. -/
inductive GetResult where
  | notFound
  | found (data : List UInt8)
  | failed
deriving DecidableEq

/-! ## State -/

/-- The store. -/
structure State where
  /-- The metadata rows. -/
  rows : String → Option ValueMessage
  /-- The raw files ever written. -/
  rawFiles : String → Option (List UInt8)
  /-- The segments ever created. -/
  segments : String → Option Segment
  /-- The compaction index: a key and the raw file to move. -/
  compactionIndex : List (String × String)
  /-- The deletion queue. -/
  queued : List String
  /-- The files that the deletion queue has removed. -/
  unlinked : List String
  /-- The version stamp issued last. -/
  lastStamp : UInt64
  /-- The foreground calls, sweeps and eviction passes. -/
  calls : Nat → Call
  /-- The runs of the compactor and the passes of the recompactor. -/
  migrations : List Migration
  /-- What the `Get` calls returned, newest first. -/
  observed : List GetResult

namespace State

/-- An empty store. -/
@[simp] def init : State where
  rows _ := none
  rawFiles _ := none
  segments _ := none
  compactionIndex := []
  queued := []
  unlinked := []
  lastStamp := versionLegacy
  calls _ := .idle
  migrations := []
  observed := []

variable (s : State)

@[simp] def setCall (i : Nat) (c : Call) : State := { s with calls := Function.update s.calls i c }

@[simp] def setMigration (m : Nat) (x : Migration) : State :=
  { s with migrations := s.migrations.set m x }

def addMigration (x : Migration) : State := { s with migrations := s.migrations ++ [x] }

@[simp] def setRow (key : String) (row : Option ValueMessage) : State :=
  { s with rows := Function.update s.rows key row }

@[simp] def setSegment (path : String) (seg : Segment) : State :=
  { s with segments := Function.update s.segments path (some seg) }

/-- `DeletionQueue.Add`. -/
def queue (path : String) : State := { s with queued := path :: s.queued }

/-- `FileManager.Write`, for a value that goes to a file. -/
def writeRaw (payload : Payload) (data : List UInt8) : State :=
  { s with rawFiles := match payload with
    | .inline _ => s.rawFiles
    | .rawFile path _ _ => Function.update s.rawFiles path (some data) }

/-- Index the raw file of a medium value. -/
@[simp] def indexRaw (cfg : Config) (key : String) (row : ValueMessage) : State :=
  { s with compactionIndex := s.compactionIndex ++ match rawPath row with
    | some path => if cfg.isMedium row.valueLength then [(key, path)] else []
    | none => [] }

variable {path p : String} {s' : State} {entry : Entry} {seg : Segment}

lemma mem_indexRaw {cfg : Config} {key k : String} {row : ValueMessage}
    (h : (k, path) ∈ (s.indexRaw cfg key row).compactionIndex) :
    (k, path) ∈ s.compactionIndex ∨ (k = key ∧ rawPath row = some path) := by
  simp only [indexRaw, List.mem_append] at h
  refine h.imp_right fun hnew => ?_
  split at hnew
  · rename_i p hp
    split at hnew
    · simp only [List.mem_singleton, Prod.mk.injEq] at hnew
      exact ⟨hnew.1, hnew.2 ▸ hp⟩
    · simp at hnew
  · simp at hnew

/-- The file is on disk. -/
def hasFile (path : String) : Bool := (s.rawFiles path).isSome ∧ path ∉ s.unlinked

/-- `AcquireOpenSegmentWithReservation`: an open segment, or a new one. -/
def acquire (path : String) : Option State :=
  match s.segments path with
  | none => some (s.setSegment path ⟨.opened, []⟩)
  | some seg => if seg.status = .opened then some s else none

/-- `FinalizeSegment`. -/
@[simp] def finalizeSegment (path : String) : State :=
  { s with segments := Function.update s.segments path ((s.segments path).map fun seg =>
      if seg.status = .opened then { seg with status := .closed } else seg) }

/-- `RemoveSegment`. -/
@[simp] def removeSegment (path : String) : State :=
  { s with segments := Function.update s.segments path ((s.segments path).map fun seg =>
      { seg with status := .removed }) }

/-- The offset can be the end of the segment: no entry starts there. -/
def freeAt (path : String) (offset : Int64) : Bool :=
  0 ≤ offset ∧ ((s.segments path).bind (·.entryAt offset)).isNone

/-- `WriteEntry` to an open segment; the write fails on any other. -/
def writeEntry (path : String) (entry : Entry) : Option State :=
  match s.segments path with
  | some seg =>
    if seg.status = .opened then
      some (s.setSegment path { seg with entries := seg.entries ++ [entry] })
    else none
  | none => none

variable {s}

lemma acquire_eq_some (h : s.acquire path = some s') :
    (s.segments path = none ∧ s' = s.setSegment path ⟨.opened, []⟩) ∨
      (s' = s ∧ ∃ seg, s.segments path = some seg ∧ seg.status = .opened) := by
  unfold acquire at h
  split at h
  · exact .inl ⟨‹_›, (Option.some.inj h).symm⟩
  · rename_i seg hseg
    split at h
    · exact .inr ⟨(Option.some.inj h).symm, seg, hseg, ‹_›⟩
    · simp at h

lemma acquire_eq (h : s.acquire path = some s') : s' = { s with segments := s'.segments } := by
  rcases acquire_eq_some h with ⟨-, rfl⟩ | ⟨rfl, -⟩ <;> rfl

lemma writeEntry_eq_some (h : s.writeEntry path entry = some s') :
    ∃ seg, s.segments path = some seg ∧ seg.status = .opened ∧
      s' = s.setSegment path { seg with entries := seg.entries ++ [entry] } := by
  unfold writeEntry at h
  split at h
  · rename_i seg hseg
    split at h
    · exact ⟨seg, hseg, ‹_›, (Option.some.inj h).symm⟩
    · simp at h
  · simp at h

lemma writeEntry_eq (h : s.writeEntry path entry = some s') :
    s' = { s with segments := s'.segments } := by
  obtain ⟨seg, -, -, rfl⟩ := writeEntry_eq_some h
  rfl

lemma isSome_setSegment (h : ((s.setSegment path seg).segments p).isSome) :
    p = path ∨ (s.segments p).isSome := by
  by_cases hp : p = path
  · exact .inl hp
  · exact .inr (by simpa [setSegment, hp] using h)

lemma isSome_segments_setSegment (h : (s.segments p).isSome) :
    ((s.setSegment path seg).segments p).isSome := by
  by_cases hp : p = path
  · simp [setSegment, hp]
  · simpa [setSegment, hp] using h

lemma isSome_finalizeSegment (s : State) (path p : String) :
    ((s.finalizeSegment path).segments p).isSome = (s.segments p).isSome := by
  by_cases hp : p = path <;> simp [finalizeSegment, hp]

lemma isSome_removeSegment (s : State) (path p : String) :
    ((s.removeSegment path).segments p).isSome = (s.segments p).isSome := by
  by_cases hp : p = path <;> simp [removeSegment, hp]

end State

/-! ## Write batches -/

variable (rows : String → Option ValueMessage)

/-- The rows after the merges of a write batch. -/
def applyMerges (wb : List (String × ValueMessage)) :
    String → Option ValueMessage :=
  wb.foldl (fun rows op => Function.update rows op.1 (some (mergeRow (rows op.1) [op.2]))) rows

lemma applyMerges_cons (key : String) (op : ValueMessage) (wb : List (String × ValueMessage)) :
    applyMerges rows ((key, op) :: wb) =
      applyMerges (Function.update rows key (some (mergeRow (rows key) [op]))) wb := rfl

/-- The rows after the deletes of a write batch. -/
def removeKeys (batch : List (String × ValueMessage)) :
    String → Option ValueMessage :=
  fun key => if key ∈ batch.map Prod.fst then none else rows key

/-- A batch of the compactor or the recompactor is committed. -/
def State.commitBatch (s : State) (wb : List (String × ValueMessage))
    (dropped : List (String × String)) : State :=
  { s with
    rows := applyMerges s.rows wb
    compactionIndex := s.compactionIndex.filter (· ∉ dropped) }

end OCache.Store
