import OCache.Lib.BackrefIndex
import OCache.Lib.Total
import OCache.Store.Calls

/-!
# The operations of the store, one after another

The store with everything that is counted: metadata rows, the cleaner's total size, the eviction
index of each policy, the compaction index, segments and the dead bytes credited to them. An
operation runs to its end before the next one starts. Any batch write or merge may fail as a whole;
reads do not fail.

What comes from outside is an argument: clock readings, the caller's arguments, names of new files,
where an entry lands in a segment and when a segment is full. Raw files and the deletion queue are
left out, no operation here reads them: a compaction finds the file of a row with the length the row
says. Sums of lengths do not leave `int64`.
-/

namespace OCache.Accounting

open Merge Cas Total

/-! ## State -/

/-- The settings of the process. -/
structure Settings extends Store.Config where
  /-- A disk cap is set (`maxDiskUsage > 0`). -/
  capped : Bool

/-- The eviction policy of the process. -/
inductive Policy where
  | lru
  | fifo
deriving DecidableEq

/-- The eviction index of a policy, by nanoseconds and key. -/
abbrev Index := BackrefIndex Nat String

abbrev IndexEntry := TimedKey Nat String

/-- An entry of a segment. -/
structure Entry where
  key : String
  offset : Int64
  length : Int64

/-- A segment that the manager tracks. -/
structure Segment where
  opened : Bool
  entries : List Entry
  /-- The counters that `WriteEntry` keeps and the footer stores. -/
  numEntries : Nat
  dataBytes : ℤ

/-- The segment after a `WriteEntry`. -/
def Segment.append (seg : Segment) (e : Entry) : Segment :=
  { seg with
    entries := seg.entries ++ [e]
    numEntries := seg.numEntries + 1
    dataBytes := seg.dataBytes + e.length.toInt }

/-- A row of the delete index. -/
structure DeadCount where
  deletedEntries : ℤ := 0
  deletedBytes : ℤ := 0

/-- The name of a segment file. -/
abbrev SegmentPath := { path : String // path ≠ "" }

abbrev Rows := AList fun _ : String => ValueMessage

structure State where
  /-- The metadata rows. -/
  rows : Rows
  /-- `Cleaner.totalSize` -/
  totalSize : ℤ
  /-- The policy of the running process. -/
  policy : Policy
  /-- The eviction indexes. -/
  index : Policy → Index
  /-- The updates that the access updater has collected. -/
  updates : AList fun _ : String => Nat
  /-- The compaction index: a key and the raw file to move. -/
  compactionIndex : List (String × String)
  /-- The segments that the manager tracks. -/
  segments : String → Option Segment
  /-- The delete index. -/
  deleteIndex : String → DeadCount
  /-- The version stamp issued last. -/
  lastStamp : UInt64

/-- An empty store. -/
def init (policy : Policy) : State where
  rows := ∅
  totalSize := 0
  policy := policy
  index _ := .empty
  updates := ∅
  compactionIndex := []
  segments _ := none
  deleteIndex _ := {}
  lastStamp := versionLegacy

/-- The length of the value of a row. -/
def size (vm : ValueMessage) : ℤ := vm.valueLength.toInt

namespace State

variable (s : State)

@[simp]
def setRow (key : String) (row : ValueMessage) : State := { s with rows := s.rows.insert key row }

/-- `UpdateSize` -/
@[simp] def updateSize (delta : ℤ) : State := { s with totalSize := s.totalSize + delta }

/-- Change the index of the active policy. -/
@[simp] def modifyIndex (f : Index → Index) : State :=
  { s with index := Function.update s.index s.policy (f (s.index s.policy)) }

/-- The eviction entry of a put: under FIFO it replaces the one before. -/
def indexKey (cfg : Settings) (key : String) (now : Nat) : State :=
  s.modifyIndex fun i =>
    if cfg.capped then
      match s.policy with
      | .fifo => i.replace key now
      | .lru => i.put key now
    else i

/-- Index the raw file of a medium value for compaction. -/
def indexRaw (cfg : Settings) (key : String) (row : ValueMessage) : State :=
  let paths := (Store.rawPath row).toList.filter fun _ => cfg.isMedium row.valueLength
  { s with compactionIndex := s.compactionIndex ++ paths.map (key, ·) }

end State

/-- The delete index after the credit of a value, if that was in a segment. -/
def credited (deleteIndex : String → DeadCount) (vm : ValueMessage) : String → DeadCount :=
  if vm.valueType = .segment ∧ vm.segmentPath ≠ "" then
    let count := deleteIndex vm.segmentPath
    Function.update deleteIndex vm.segmentPath
      ⟨count.deletedEntries + 1, count.deletedBytes + size vm⟩
  else deleteIndex

namespace State

variable (s : State)

/-- Credit the dead bytes of a value. -/
def credit (vm : ValueMessage) : State := { s with deleteIndex := credited s.deleteIndex vm }

/-- `reclaimReplacedValue`, as far as segments go. -/
@[simp] def creditReplaced (prev : Option ValueMessage) : State :=
  { s with deleteIndex := prev.elim s.deleteIndex (credited s.deleteIndex) }

end State

/-! ## Puts and deletes -/

/-- A value that fits into memory. -/
structure Value where
  data : List UInt8
  length_lt : data.length < 2 ^ 63 := by decide

/-- What a put stores: a value, its expiry, and name and checksum of the raw file if it gets one. -/
structure Upload where
  key : String
  value : Value
  expiry : Int64 := 0
  path : String
  path_ne : path ≠ "" := by decide
  checksum : UInt32 := 0

/-- Where the value goes. -/
def Upload.payload (cfg : Settings) (u : Upload) : Payload :=
  cfg.toConfig.payload u.value.data u.path u.checksum

variable (cfg : Settings)

/-- `Put`. The size of the replaced row is read before the write, the counter moves after it. -/
def put (s : State) (u : Upload) (now : Nat) (ok : Bool) : State :=
  let row := Store.putRow (u.payload cfg) u.expiry
  let prev := s.rows.lookup u.key
  if ok then
    ((((s.setRow u.key row).indexRaw cfg u.key row).creditReplaced prev).indexKey cfg u.key now)
      |>.updateSize (size row - weight size prev)
  else s

/-- `DeleteKey`. It calls `notifyDelete` before it writes. -/
def deleteKey (s : State) (key : String) (ok : Bool) : State :=
  match s.rows.lookup key with
  | none => s
  | some prev =>
    let s := s.updateSize (-size prev)
    if ok then ({ s with rows := s.rows.erase key }.modifyIndex (·.remove key)).credit prev else s

/-- `finishWonCASPut`. The counter moves whether or not the bookkeeping batch was written. -/
def finishWonCASPut (s : State) (key : String) (row : ValueMessage) (prev : Option ValueMessage)
    (now : Nat) (bookOk creditOk : Bool) : State :=
  let s := if bookOk then (s.indexRaw cfg key row).indexKey cfg key now else s
  let s := if creditOk then s.creditReplaced prev else s
  s.updateSize (size row - weight size prev)

/-- `PutIfVersion`, with the clock at its two checks. -/
def putIfVersion (s : State) (u : Upload) (expected stamp : UInt64) (first second : Int64)
    (now : Nat) (mergeOk bookOk creditOk : Bool) : State :=
  let prev := s.rows.lookup u.key
  let admits (t : Int64) := casAdmits (casClassify t prev).1 (casClassify t prev).2 expected
  if admits first ∧ s.lastStamp < stamp then
    let s := { s with lastStamp := stamp }
    if admits second ∧ mergeOk then
      let carried := carriedVersion second prev expected
      let operand := casPutOperand (u.payload cfg) u.expiry stamp carried
      let got := mergeRow prev [operand]
      let s := s.setRow u.key got
      if got.version = stamp then finishWonCASPut cfg s u.key operand prev now bookOk creditOk
      else s
    else s
  else s

/-- `dropDeadEvictionGeneration`: the captured entry goes, and the entry of the back-reference with
the back-reference itself if it was written before the cutoff. -/
def dropDeadEvictionGeneration (i : Index) (key : String) (cutoff : Nat)
    (deadEntry : Option IndexEntry) : Index :=
  let dropped := i.discard deadEntry.toFinset
  match i.backref key with
  | some e => if e.time < cutoff then dropped.remove key else dropped
  | none => dropped

/-- `DeleteIfVersion` -/
def deleteIfVersion (s : State) (key : String) (expected stamp : UInt64) (now : Int64)
    (cutoff : Nat) (mergeOk creditOk dropOk : Bool) : State :=
  let prev := s.rows.lookup key
  let seen := casClassify now prev
  if deleteAdmits seen.1 seen.2 expected ∧ s.lastStamp < stamp then
    let deadEntry := (s.index s.policy).backref key
    let s := { s with lastStamp := stamp }
    if mergeOk then
      let got := mergeRow prev [casDeleteOperand stamp (carriedVersion now prev expected)]
      let s := s.setRow key got
      if got.version = stamp then
        let s := if creditOk then s.creditReplaced prev else s
        let s := s.updateSize (-weight size prev)
        if dropOk then s.modifyIndex (dropDeadEvictionGeneration · key cutoff deadEntry) else s
      else s
    else s
  else s

/-! ## Sweeps -/

/-- `expiryFlushBatch` -/
def expiryFlushBatch : Nat := 100

/-- The candidates that are still the rows that the scan saw. -/
def stillThere (rows : Rows) (candidates : List Store.ExpiryCandidate) :
    List (String × ValueMessage) :=
  candidates.filterMap fun cand =>
    (rows.lookup cand.key).bind fun vm => if cand.stillThere vm then some (cand.key, vm) else none

/-- One key of a deletion batch: row, eviction entry, and the credit of a segment value. -/
def dropExpired (s : State) (entry : String × ValueMessage) : State :=
  ({ s with rows := s.rows.erase entry.1 }.modifyIndex (·.remove entry.1)).credit entry.2

/-- The bytes of the values of a batch. -/
def batchBytes (batch : List (String × ValueMessage)) : ℤ :=
  (batch.map fun entry => size entry.2).sum

/-- The flush of `cleanupExpiredKeys`: candidates are read again, then the batch is written. The
keys of a batch are distinct, so its deletes can be done one by one. -/
def flushExpired (s : State) (candidates : List Store.ExpiryCandidate) (ok : Bool) : State :=
  let batch := stillThere s.rows candidates
  if ok then
    let pendingBytes := batchBytes batch
    let s := batch.foldl dropExpired s
    if 0 < pendingBytes then s.updateSize (-pendingBytes) else s
  else s

/-- The scan of `cleanupExpiredKeys` from a key on. `snapshot` is what its iterator sees, `flushed`
the number of flushes so far. -/
def sweepFrom (snapshot : Rows) (now : Int64) (retained : UInt64 → Bool) (failing : List Nat)
    (s : State) (candidates : List Store.ExpiryCandidate) (flushed : Nat) : List String → State
  | [] => if candidates = [] then s else flushExpired s candidates (flushed ∉ failing)
  | key :: keys =>
    let found := (snapshot.lookup key).bind fun vm =>
      Store.candidateOf key now (retained vm.version) vm
    let candidates := candidates ++ found.toList
    if expiryFlushBatch ≤ candidates.length then
      sweepFrom snapshot now retained failing (flushExpired s candidates (flushed ∉ failing)) []
        (flushed + 1) keys
    else sweepFrom snapshot now retained failing s candidates flushed keys

/-- The keys of the rows in the order of an iterator. -/
def sortedKeys (rows : Rows) : List String := rows.keys.insertionSort (· ≤ ·)

/-- `cleanupExpiredKeys`. `retained` says which stamps are younger than the retention horizon. -/
def cleanupExpiredKeys (s : State) (now : Int64) (retained : UInt64 → Bool) (failing : List Nat) :
    State :=
  sweepFrom s.rows now retained failing s [] 0 (sortedKeys s.rows)

/-! ## Eviction -/

/-- The variables of a pass of `evictByIndex`. -/
structure Pass where
  state : State
  /-- Entries that the batch deletes on their own. -/
  orphans : List IndexEntry
  /-- Entries through which the batch evicts, with the rows. -/
  victims : List (IndexEntry × ValueMessage)
  committedBytes : ℤ
  /-- Batches written so far, failed ones included. -/
  commits : Nat

namespace Pass

/-- `pendingBytes` -/
def pendingBytes (p : Pass) : ℤ := (p.victims.map fun v => size v.2).sum

/-- `batch.Count()` -/
def count (p : Pass) : Nat := p.orphans.length + 3 * p.victims.length

/-- Delete the row, the entry and the back-reference of a victim. -/
def evictOne (s : State) (v : IndexEntry × ValueMessage) : State :=
  { s with rows := s.rows.erase v.1.key }.modifyIndex (·.evict v.1)

/-- The batch is written, and then its segment values are credited one by one. -/
def written (uncredited : List String) (p : Pass) : State :=
  let s := p.victims.foldl evictOne (p.state.modifyIndex (·.discard p.orphans.toFinset))
  let credited := p.victims.filter (·.1.key ∉ uncredited)
  credited.foldl (fun s v => s.credit v.2) s

/-- `commit` -/
def commit (failing : List Nat) (uncredited : List String) (p : Pass) : Pass :=
  if p.count = 0 then p
  else if p.commits ∈ failing then
    { p with orphans := [], victims := [], commits := p.commits + 1 }
  else
    { state := p.written uncredited
      orphans := []
      victims := []
      committedBytes := p.committedBytes + p.pendingBytes
      commits := p.commits + 1 }

/-- What the pass makes of an entry. -/
def visit (now : IndexEntry → Int64) (p : Pass) (e : IndexEntry) : Pass :=
  match p.state.rows.lookup e.key with
  | none => { p with orphans := p.orphans ++ [e] }
  | some vm =>
    -- Expired rows are left to the TTL sweep.
    if Store.expired (now e) vm then p
    else
      match (p.state.index p.state.policy).backref e.key with
      | some current =>
        if current ≠ e then { p with orphans := p.orphans ++ [e] }
        else { p with victims := p.victims ++ [(e, vm)] }
      | none => { p with victims := p.victims ++ [(e, vm)] }

/-- The loop of `evictByIndex`. -/
def loop (target : ℤ) (now : IndexEntry → Int64) (failing : List Nat) (uncredited : List String) :
    Pass → List IndexEntry → Pass
  | p, [] => p
  | p, e :: es =>
    let p := if 1000 ≤ p.count then p.commit failing uncredited else p
    if target ≤ p.committedBytes + p.pendingBytes then p
    else loop target now failing uncredited (p.visit now e) es

end Pass

/-- `evictByIndex`. Its iterator sees the entries of the start, its reads what it has committed. -/
def evictByIndex (s : State) (target : ℤ) (now : IndexEntry → Int64) (failing : List Nat)
    (uncredited : List String) : State :=
  let p := Pass.loop target now failing uncredited ⟨s, [], [], 0, 0⟩ (s.index s.policy).ordered
  let p := p.commit failing uncredited
  p.state.updateSize (-p.committedBytes)

/-! ## Compaction -/

namespace State

variable (s : State)

@[simp] def setSegment (path : String) (seg : Segment) : State :=
  { s with segments := Function.update s.segments path (some seg) }

/-- `AcquireOpenSegmentWithReservation`: an open segment, or a new one. -/
def acquire (path : SegmentPath) : Option State :=
  match s.segments path with
  | none => some (s.setSegment path ⟨true, [], 0, 0⟩)
  | some seg => if seg.opened then some s else none

/-- `FinalizeSegment` -/
def finalizeSegment (path : String) : State :=
  match s.segments path with
  | none => s
  | some seg => s.setSegment path { seg with opened := false }

/-- `WriteEntry` to an open segment, at an offset at which no entry starts. -/
def writeEntry (path : String) (e : Entry) : Option State :=
  match s.segments path with
  | none => none
  | some seg =>
    if seg.opened ∧ e.offset ∉ seg.entries.map (·.offset) then
      some (s.setSegment path (seg.append e))
    else none

variable {s} {s' : State}

lemma acquire_eq_some {path : SegmentPath} (h : s.acquire path = some s') :
    s.segments path = none ∧ s' = s.setSegment path ⟨true, [], 0, 0⟩ ∨
      s' = s ∧ ∃ seg, s.segments path = some seg ∧ seg.opened = true := by
  unfold acquire at h
  split at h
  · rename_i hnone
    exact .inl ⟨hnone, Option.some.inj h.symm⟩
  · rename_i seg hseg
    obtain ⟨hopened, hs⟩ := Option.ite_none_right_eq_some.mp h
    exact .inr ⟨Option.some.inj hs.symm, seg, hseg, hopened⟩

lemma writeEntry_eq_some {path : String} {e : Entry} (h : s.writeEntry path e = some s') :
    ∃ seg, s.segments path = some seg ∧ e.offset ∉ seg.entries.map (·.offset) ∧
      s' = s.setSegment path (seg.append e) := by
  unfold writeEntry at h
  split at h
  · simp at h
  · rename_i seg hseg
    obtain ⟨hfree, hs⟩ := Option.ite_none_right_eq_some.mp h
    exact ⟨seg, hseg, hfree.2, Option.some.inj hs.symm⟩

variable (s)

lemma finalizeSegment_rows (path : String) : (s.finalizeSegment path).rows = s.rows := by
  unfold finalizeSegment
  split <;> rfl

/-- The rows after the merges of a write batch. -/
def applyMerges (wb : List (String × ValueMessage)) : State :=
  wb.foldl (fun s op => s.setRow op.1 (mergeRow (s.rows.lookup op.1) [op.2])) s

/-- The batch of a compaction is written: the merges, and the index rows it deletes. -/
def commitBatch (wb : List (String × ValueMessage)) (dropped : List (String × String)) : State :=
  { s.applyMerges wb with compactionIndex := s.compactionIndex.filter (· ∉ dropped) }

end State

/-- What the environment decides for one value that is copied to a segment. -/
structure Slot where
  /-- The row of the compaction index is this worker's. -/
  mine : Bool := true
  /-- The segment is full; the next one, and whether the commit before it succeeds. -/
  roll : Option (SegmentPath × Bool) := none
  /-- The copy succeeds. -/
  ok : Bool := true
  /-- Where the entry lands. -/
  offset : Int64

/-- The variables of a run of `CompactFiles`. -/
structure Compaction where
  state : State
  seg : SegmentPath
  /-- The merges in the write batch. -/
  wb : List (String × ValueMessage)
  /-- The index rows the write batch deletes. -/
  dropped : List (String × String)

namespace Compaction

/-- `ensureCapacity`: commit, close the full segment, take another; with whether it succeeded. -/
def ensureCapacity (c : Compaction) (slot : Slot) : Compaction × Bool :=
  match slot.roll with
  | none => (c, true)
  | some (path, commitOk) =>
    if commitOk then
      let s := (c.state.commitBatch c.wb c.dropped).finalizeSegment c.seg
      match s.acquire path with
      | some s => (⟨s, path, [], []⟩, true)
      | none => (⟨s, c.seg, [], []⟩, false)
    else (c, false)

/-- `compactEntry`, on a validated entry. An entry that is not copied stays in the index. -/
def compactEntry (c : Compaction) (slot : Slot) (key path : String) (vm : ValueMessage) :
    Compaction :=
  let (c, hasRoom) := c.ensureCapacity slot
  if hasRoom ∧ slot.ok then
    match c.state.writeEntry c.seg ⟨key, slot.offset, vm.valueLength⟩ with
    | some s => ⟨s, c.seg, c.wb ++ [(key, compactionOperand vm c.seg slot.offset)],
        c.dropped ++ [(key, path)]⟩
    | none => c
  else c

/-- One row of the compaction index. Rows whose file is not the value of the key are dropped. -/
def next (slot : String × String → Slot) (c : Compaction) (row : String × String) : Compaction :=
  if (slot row).mine then
    match c.state.rows.lookup row.1 with
    | none => { c with dropped := c.dropped ++ [row] }
    | some vm =>
      if vm.valueType = .rawFile ∧ vm.rawFilePath = row.2 then
        c.compactEntry (slot row) row.1 row.2 vm
      else { c with dropped := c.dropped ++ [row] }
  else c

end Compaction

/-- `CompactFiles` -/
def compactFiles (s : State) (seg : SegmentPath) (slot : String × String → Slot) (ok : Bool) :
    State :=
  match s.acquire seg with
  | none => s
  | some s' =>
    let c := s.compactionIndex.foldl (Compaction.next slot) ⟨s', seg, [], []⟩
    if ok then c.state.commitBatch c.wb c.dropped else c.state

/-- The variables of a pass of `recompactSegment`. -/
structure Recompaction where
  state : State
  seg : SegmentPath
  /-- The merges in the write batch. -/
  wb : List (String × ValueMessage)
  /-- A live entry could not be copied. -/
  failed : Bool

namespace Recompaction

/-- `copyEntry` closes a full segment without a commit. -/
def ensureCapacity (r : Recompaction) (slot : Slot) : Option Recompaction :=
  match slot.roll with
  | none => some r
  | some (path, _) =>
    ((r.state.finalizeSegment r.seg).acquire path).map fun s => { r with state := s, seg := path }

/-- `copyEntry`, on an entry that its row is at. -/
def copyEntry (r : Recompaction) (slot : Slot) (e : Entry) (vm : ValueMessage) : Recompaction :=
  match r.ensureCapacity slot with
  | none => { r with failed := true }
  | some r =>
    if slot.ok then
      match r.state.writeEntry r.seg ⟨e.key, slot.offset, e.length⟩ with
      | some s => { r with
          state := s, wb := r.wb ++ [(e.key, recompactionOperand vm r.seg slot.offset)] }
      | none => { r with failed := true }
    else { r with failed := true }

/-- One entry of the old segment. -/
def next (old : String) (slot : Entry → Slot) (r : Recompaction) (e : Entry) : Recompaction :=
  match r.state.rows.lookup e.key with
  | none => r
  | some vm =>
    if Store.segmentPlace vm = some (old, e.offset) then r.copyEntry (slot e) e vm else r

end Recompaction

/-- The entries of a closed segment moved on, up to the commit. -/
def moveEntries (s : State) (old : String) (o : Segment) (seg : SegmentPath) (slot : Entry → Slot) :
    Option Recompaction :=
  (s.acquire seg).map fun s' => o.entries.foldl (Recompaction.next old slot) ⟨s', seg, [], false⟩

/-- `recompactSegment` of a closed segment. A pass that could not copy an entry keeps it. -/
def recompactSegment (s : State) (old : String) (seg : SegmentPath) (slot : Entry → Slot)
    (ok : Bool) : State :=
  match s.segments old with
  | none => s
  | some o =>
    if o.opened then s
    else
      match moveEntries s old o seg slot with
      | none => s
      | some r =>
        if r.wb ≠ [] ∧ !ok then r.state
        else
          let s := r.state.applyMerges r.wb
          if r.failed then s
          else
            { s with
              segments := Function.update s.segments old none
              deleteIndex := Function.update s.deleteIndex old {} }

/-- `walkSegmentLiveness` of a tracked segment: dead entries and dead bytes; `none` if the file does
not have the entries that the footer says. -/
def walkSegmentLiveness (s : State) (path : String) (seg : Segment) : Option (ℤ × ℤ) :=
  let live := seg.entries.filter fun e =>
    (s.rows.lookup e.key).any fun vm => Store.segmentPlace vm = some (path, e.offset)
  if seg.numEntries = 0 ∨ seg.dataBytes ≤ 0 then some (0, 0)
  else if seg.entries.length ≠ seg.numEntries then none
  else some (max 0 (seg.numEntries - live.length),
    max 0 (seg.dataBytes - (live.map fun e => e.length.toInt).sum))

/-! ## Reads, maintenance and restarts -/

/-- `Get`, as far as the access updater goes: under LRU a read of a live row is collected, unless
the buffer is full or a recent one was. -/
def get (s : State) (key : String) (now : Int64) (time : Nat) (collected : Bool) : State :=
  match s.rows.lookup key with
  | none => s
  | some vm =>
    if cfg.capped ∧ s.policy = .lru ∧ collected ∧ !Store.expired now vm then
      { s with updates := s.updates.insert key time }
    else s

/-- `flushBatch` of the access updater. -/
def flushBatch (s : State) (ok : Bool) : State :=
  let index := s.updates.entries.foldl (fun i u => BackrefIndex.replace i u.1 u.2) (s.index .lru)
  { s with
    updates := ∅
    index := if ok then Function.update s.index .lru index else s.index }

/-- Nanoseconds of an access bucket. -/
def bucketDuration : Nat := 3600 * 10 ^ 9

/-- `cleanupOldBuckets`: access entries in buckets before that of the cutoff. -/
def cleanupOldBuckets (s : State) (cutoff : Nat) : State :=
  let old := (s.index .lru).entries.filter (·.time / bucketDuration < cutoff / bucketDuration)
  { s with index := Function.update s.index .lru ((s.index .lru).discard old) }

/-- The backfill of `reconcileFromMetadata`: a row without a back-reference gets an entry. -/
def backfill (s : State) (now : Nat) : State :=
  s.rows.keys.foldl (fun s' key =>
    if ((s.index s.policy).backref key).isNone then s'.indexKey cfg key now else s') s

/-- `reconcileFromMetadata` -/
def reconcileFromMetadata (s : State) (now : Nat) : State :=
  { backfill cfg s now with totalSize := total size s.rows }

/-- A restart, with any policy. What the access updater had collected is lost, unless it was flushed
before; the total size is read from the metadata by the next reconcile. -/
def restart (s : State) (policy : Policy) : State :=
  { s with policy := policy, updates := ∅, totalSize := 0 }

/-! ## Runs -/

/-- An operation with what comes from outside. -/
inductive Event where
  | put (u : Upload) (now : Nat) (ok : Bool)
  | deleteKey (key : String) (ok : Bool)
  | putIfVersion (u : Upload) (expected stamp : UInt64) (first second : Int64) (now : Nat)
      (mergeOk bookOk creditOk : Bool)
  | deleteIfVersion (key : String) (expected stamp : UInt64) (now : Int64) (cutoff : Nat)
      (mergeOk creditOk dropOk : Bool)
  | cleanupExpiredKeys (now : Int64) (retained : UInt64 → Bool) (failing : List Nat)
  | evictByIndex (target : ℤ) (now : IndexEntry → Int64) (failing : List Nat)
      (uncredited : List String)
  | compactFiles (seg : SegmentPath) (slot : String × String → Slot) (ok : Bool)
  | recompactSegment (old : String) (seg : SegmentPath) (slot : Entry → Slot) (ok : Bool)
  | get (key : String) (now : Int64) (time : Nat) (collected : Bool)
  | flushBatch (ok : Bool)
  | cleanupOldBuckets (cutoff : Nat)
  | reconcileFromMetadata (now : Nat)
  | restart (policy : Policy)

def step (s : State) : Event → State
  | .put u now ok => put cfg s u now ok
  | .deleteKey key ok => deleteKey s key ok
  | .putIfVersion u expected stamp first second now mergeOk bookOk creditOk =>
    putIfVersion cfg s u expected stamp first second now mergeOk bookOk creditOk
  | .deleteIfVersion key expected stamp now cutoff mergeOk creditOk dropOk =>
    deleteIfVersion s key expected stamp now cutoff mergeOk creditOk dropOk
  | .cleanupExpiredKeys now retained failing => cleanupExpiredKeys s now retained failing
  | .evictByIndex target now failing uncredited => evictByIndex s target now failing uncredited
  | .compactFiles seg slot ok => compactFiles s seg slot ok
  | .recompactSegment old seg slot ok => recompactSegment s old seg slot ok
  | .get key now time collected => get cfg s key now time collected
  | .flushBatch ok => flushBatch s ok
  | .cleanupOldBuckets cutoff => cleanupOldBuckets s cutoff
  | .reconcileFromMetadata now => reconcileFromMetadata cfg s now
  | .restart policy => restart s policy

end OCache.Accounting
