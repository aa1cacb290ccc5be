import OCache.Store.State

/-!
# Foreground calls, sweeps and evictions

Each function is one step of an execution: a database read, a batch commit or a merge, or an
addition to the deletion queue, with the private work of the execution around it. A commit is told
whether the write succeeded; a batch fails as a whole. A step that is not enabled changes nothing.

What the code takes from outside is an argument: the time, the caller's arguments, the name of a new
file.
-/

namespace OCache.Store

open Merge Cas

variable (cfg : Config)

/-! ## Reads -/

/-- `FileManager.Read`. -/
def State.readRaw (s : State) (path : String) (length : Int64) : GetResult :=
  if path = "" ∨ length ≤ 0 ∨ path ∈ s.unlinked then .failed
  else
    match s.rawFiles path with
    | some data => .found (data.take length.toNatClampNeg)
    | none => .failed

/-- `Manager.ReadEntry`. The value starts after the header, whose length depends on the key, so an
entry is read under its own key. -/
def State.readEntry (s : State) (key path : String) (offset length : Int64) : GetResult :=
  if path = "" ∨ offset < 0 ∨ length ≤ 0 ∨ key = "" then .failed
  else
    match s.segments path with
    | some seg =>
      if seg.status = .removed then .failed
      else
        match seg.entryAt offset with
        | some entry => if entry.key = key then .found (entry.data.take length.toNatClampNeg) else .failed
        | none => .failed
    | none => .failed

/-- The row has a time to live that is over. -/
def expired (now : Int64) (vm : ValueMessage) : Bool := 0 < vm.expiry ∧ vm.expiry ≤ now

/-- `Get` of a whole value. -/
def get (s : State) (key : String) (now : Int64) : GetResult :=
  match s.rows key with
  | none => .notFound
  | some vm =>
    if expired now vm then .notFound
    else
      match vm.valueType with
      | .inline => .found vm.data
      | .segment => s.readEntry key vm.segmentPath vm.segmentOffset vm.valueLength
      | .rawFile => s.readRaw vm.rawFilePath vm.valueLength
      | .unrecognized _ => .failed

/-! ## Foreground calls -/

/-- The raw file of a replaced or removed row goes to the deletion queue. -/
def reclaimable (prev : Option ValueMessage) : List String := (prev.bind rawPath).toList

/-- `reclaimReplacedValue`, which checks for a missing path. -/
def reclaimReplacedValue (prev : Option ValueMessage) : List String :=
  (reclaimable prev).filter (· ≠ "")

variable {p : String} {prev : Option ValueMessage}

lemma mem_reclaimable : p ∈ reclaimable prev ↔ ∃ r, prev = some r ∧ rawPath r = some p := by
  simp [reclaimable, Option.bind_eq_some_iff]

lemma mem_reclaimReplacedValue (h : p ∈ reclaimReplacedValue prev) :
    ∃ r, prev = some r ∧ rawPath r = some p :=
  mem_reclaimable.mp (List.mem_of_mem_filter h)

variable (s : State) (i : Nat)

/-- The raw files of the rows that a batch removes. -/
def reclaimableBatch (batch : List (String × ValueMessage)) : List String :=
  batch.flatMap fun entry => reclaimable (some entry.2)

lemma mem_reclaimableBatch {batch : List (String × ValueMessage)} :
    p ∈ reclaimableBatch batch ↔ ∃ key r, (key, r) ∈ batch ∧ rawPath r = some p := by
  simp [reclaimableBatch, mem_reclaimable]

def putWrite (key : String) (data : List UInt8) (expiry : Int64)
    (path : String) (checksum : UInt32) : State :=
  match s.calls i with
  | .idle =>
    let payload := cfg.payload data path checksum
    (s.writeRaw payload data).setCall i (.putWritten key (putRow payload expiry))
  | _ => s

def putRead : State :=
  match s.calls i with
  | .putWritten key row => s.setCall i (.putRead key row (s.rows key))
  | _ => s

/-- The write of `putLow`. After a failed one `Put` queues the file it wrote. -/
def putCommit (ok : Bool) : State :=
  match s.calls i with
  | .putRead key row prev =>
    if ok then
      ((s.setRow key (some row)).indexRaw cfg key row).setCall i (.reclaiming (reclaimable prev))
    else s.setCall i (.reclaiming (reclaimable (some row)))
  | _ => s

/-- `DeleteKey` returns at once if there is no row. -/
def deleteRead (key : String) : State :=
  match s.calls i with
  | .idle =>
    match s.rows key with
    | some read => s.setCall i (.deleting key read)
    | none => s.setCall i (.reclaiming [])
  | _ => s

def deleteCommit (ok : Bool) : State :=
  match s.calls i with
  | .deleting key read =>
    if ok then (s.setRow key none).setCall i (.reclaiming (reclaimable (some read)))
    else s.setCall i (.reclaiming [])
  | _ => s

def casPutRead (key : String) (now : Int64) (expected : UInt64) : State :=
  match s.calls i with
  | .idle =>
    let (state, cur) := casClassify now (s.rows key)
    if casAdmits state cur expected then s.setCall i (.casPutAdmitted key expected)
    else s.setCall i (.reclaiming [])
  | _ => s

/-- `nextVersion`, and the body goes into the operand or into a raw file. -/
def casPutWrite (stamp : UInt64) (data : List UInt8) (expiry : Int64)
    (path : String) (checksum : UInt32) : State :=
  match s.calls i with
  | .casPutAdmitted key expected =>
    if s.lastStamp < stamp then
      let payload := cfg.payload data path checksum
      { s.writeRaw payload data with lastStamp := stamp }.setCall i
        (.casPutWritten key (casPutOperand payload expiry stamp expected))
    else s
  | _ => s

/-- The second check of `PutIfVersion`; if it fails the call queues its own file. -/
def casPutRefresh (now : Int64) : State :=
  match s.calls i with
  | .casPutWritten key operand =>
    let (state, cur) := casClassify now (s.rows key)
    if casAdmits state cur operand.casExpectedVersion then
      let carried := carriedVersion now (s.rows key) operand.casExpectedVersion
      s.setCall i (.casMerging key { operand with casExpectedVersion := carried } (s.rows key))
    else s.setCall i (.reclaiming (reclaimable (some operand)))
  | _ => s

def casDeleteRead (key : String) (now : Int64) (expected : UInt64) : State :=
  match s.calls i with
  | .idle =>
    let (state, cur) := casClassify now (s.rows key)
    if deleteAdmits state cur expected then
      s.setCall i (.casDeleteAdmitted key (carriedVersion now (s.rows key) expected) (s.rows key))
    else s.setCall i (.reclaiming [])
  | _ => s

def casDeleteStamp (stamp : UInt64) : State :=
  match s.calls i with
  | .casDeleteAdmitted key carried prev =>
    if s.lastStamp < stamp then
      { s with lastStamp := stamp }.setCall i (.casMerging key (casDeleteOperand stamp carried) prev)
    else s
  | _ => s

def casMerge (ok : Bool) : State :=
  match s.calls i with
  | .casMerging key operand prev =>
    if ok then
      (s.setRow key (some (mergeRow (s.rows key) [operand]))).setCall i (.casMerged key operand prev)
    else s.setCall i (.reclaiming (reclaimable (some operand)))
  | _ => s

/-- A loser queues its own file and leaves the replaced one to the winner. -/
def casReadBack : State :=
  match s.calls i with
  | .casMerged key operand prev =>
    if carries (s.rows key) operand.version then
      if operand.opType = .casPut then
        s.setCall i (.casWon key operand (reclaimReplacedValue prev))
      else s.setCall i (.reclaiming (reclaimReplacedValue prev))
    else s.setCall i (.reclaiming (reclaimable (some operand)))
  | _ => s

/-- `finishWonCASPut`. The bookkeeping batch may fail without consequences. -/
def casFinish (ok : Bool) : State :=
  match s.calls i with
  | .casWon key operand replaced =>
    if ok then (s.indexRaw cfg key operand).setCall i (.reclaiming replaced)
    else s.setCall i (.reclaiming replaced)
  | _ => s

/-- `purgeDanglingRawFile`: some `Get` found the raw file of a row missing, possibly long ago. -/
def purge (key path : String) : State :=
  if path ≠ "" then s.setRow key (some (mergeRow (s.rows key) [purgeOperand path])) else s

/-! ## Sweeps and evictions -/

/-- What the scan of `cleanupExpiredKeys` makes of a row. `retained` says that the stamp is younger
than the retention horizon; a tombstone with such a stamp is a fence and is kept. -/
def candidateOf (key : String) (now : Int64) (retained : Bool) (vm : ValueMessage) :
    Option ExpiryCandidate :=
  let version := if vm.expiry = tombstoneExpiry then vm.version else 0
  if expired now vm ∧ ¬(version ≠ 0 ∧ retained) then some ⟨key, vm.expiry, version⟩ else none

def sweepScan (key : String) (now : Int64) (retained : Bool) : State :=
  match (s.rows key).bind (candidateOf key now retained) with
  | some cand =>
    match s.calls i with
    | .idle => s.setCall i (.sweeping [cand] [])
    | .sweeping candidates batch => s.setCall i (.sweeping (candidates ++ [cand]) batch)
    | _ => s
  | none => s

/-- The candidate is still the row that the scan saw. -/
def ExpiryCandidate.stillThere (cand : ExpiryCandidate) (vm : ValueMessage) : Bool :=
  vm.expiry = cand.expiry ∧ (cand.expiry = tombstoneExpiry → vm.version = cand.version)

/-- The flush reads a candidate again before it stages the removal. -/
def sweepCheck (key : String) : State :=
  match s.calls i with
  | .sweeping candidates batch =>
    match candidates.find? (·.key = key), s.rows key with
    | some cand, some vm =>
      if cand.stillThere vm then s.setCall i (.sweeping candidates (batch ++ [(key, vm)])) else s
    | _, _ => s
  | _ => s

/-- `evictByIndex` stages the row of a key that its index names; expired rows are left to the TTL
sweep. -/
def evictStage (key : String) (now : Int64) : State :=
  match (s.rows key).filter (!expired now ·) with
  | some vm =>
    match s.calls i with
    | .idle => s.setCall i (.evicting [(key, vm)])
    | .evicting batch => s.setCall i (.evicting (batch ++ [(key, vm)]))
    | _ => s
  | none => s

/-- Both commit their deletes in one batch and queue raw files only if it succeeds. -/
def removeCommit (ok : Bool) : State :=
  match s.calls i with
  | .sweeping _ batch | .evicting batch =>
    if ok then
      { s with rows := removeKeys s.rows batch }.setCall i (.reclaiming (reclaimableBatch batch))
    else s.setCall i (.reclaiming [])
  | _ => s

/-! ## The deletion queue -/

def reclaim : State :=
  match s.calls i with
  | .reclaiming (path :: paths) => (s.queue path).setCall i (.reclaiming paths)
  | _ => s

/-- The deletion queue removes a file. -/
def unlink (path : String) : State :=
  if path ∈ s.queued then
    { s with queued := s.queued.filter (· ≠ path), unlinked := path :: s.unlinked }
  else s

end OCache.Store
