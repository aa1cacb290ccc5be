import OCache.Store.State

/-!
# Compaction and recompaction

The steps of `CompactFiles` and `recompactSegment`. A run of the compactor goes through the index
rows that its iterator saw at the start. When the segment is full it commits its batch, queues the
raw files of the batch and only then closes the segment; the batch of a failed commit is kept for
the next one. A pass of the recompactor closes its full segment without a commit and commits once,
at its end.

When a segment is full is left open: it may be closed before any copy.
-/

namespace OCache.Store

open Merge

variable (s : State) (m : Nat)

/-- `purgeDanglingMeta`: what it adds to the batch. -/
def purgeDanglingMeta (key path : String) : List (String × ValueMessage) :=
  if path ≠ "" ∧ (s.rows key).isSome then [(key, purgeOperand path)] else []

/-! ## Compaction -/

def compactStart (seg : String) : State :=
  match s.acquire seg with
  | some s' => s'.addMigration (.compacting ⟨seg, [], [], [], [], s.compactionIndex⟩)
  | none => s

/-- What becomes of an index row: `processCompactionEntry` and the checks of `CompactFiles` and
`compactEntry` on its result. -/
def processEntry (c : Compaction) (key path : String) : Migration :=
  let drop := { c with dropped := c.dropped ++ [(key, path)] }
  if s.hasFile path then
    match s.rows key with
    | none => .compacting { drop with ready := [path] }
    | some row =>
      if row.valueType = .segment then .compacting drop
      else if row.valueType ≠ .rawFile ∨ row.rawFilePath ≠ path then
        .compacting { drop with ready := [path] }
      else if (s.rawFiles path).map (Int64.ofNat ·.length) ≠ some row.valueLength then
        .compacting { drop with
          wb := c.wb ++ purgeDanglingMeta s key path, pending := c.pending ++ [path] }
      else .copying c key path row
  else .compacting { drop with wb := c.wb ++ purgeDanglingMeta s key path }

def compactNext : State :=
  match s.migrations[m]? with
  | some (.compacting ⟨seg, wb, dropped, pending, [], (key, path) :: entries⟩) =>
    s.setMigration m (processEntry s ⟨seg, wb, dropped, pending, [], entries⟩ key path)
  | _ => s

/-- The index row belongs to another worker. -/
def compactSkip : State :=
  match s.migrations[m]? with
  | some (.compacting ⟨seg, wb, dropped, pending, [], _ :: entries⟩) =>
    s.setMigration m (.compacting ⟨seg, wb, dropped, pending, [], entries⟩)
  | _ => s

/-- The rest of `compactEntry` once there is room. An entry whose file is gone or whose segment
cannot be written is left for a later run. -/
def compactCopy (offset : Int64) : State :=
  match s.migrations[m]? with
  | some (.copying c key path row) =>
    if s.freeAt c.seg offset then
      if s.hasFile path then
        match s.writeEntry c.seg ⟨key, offset, (s.rawFiles path).getD []⟩ with
        | some s' => s'.setMigration m (.compacting { c with
            wb := c.wb ++ [(key, compactionOperand row c.seg offset)]
            dropped := c.dropped ++ [(key, path)]
            pending := c.pending ++ [path] })
        | none => s.setMigration m (.compacting c)
      else s.setMigration m (.compacting c)
    else s
  | _ => s

/-- The commit of `ensureCapacity`. If it fails the entry is left for a later run. -/
def compactCommit (ok : Bool) : State :=
  match s.migrations[m]? with
  | some (.copying c key path row) =>
    if ok then
      (s.commitBatch c.wb c.dropped).setMigration m
        (.rolling ⟨c.seg, [], [], [], c.pending, c.entries⟩ key path row)
    else s.setMigration m (.compacting c)
  | _ => s

/-- The rest of `ensureCapacity`, once the files of the batch are queued. -/
def compactRoll (seg : String) : State :=
  match s.migrations[m]? with
  | some (.rolling ⟨full, wb, dropped, pending, [], entries⟩ key path row) =>
    match (s.finalizeSegment full).acquire seg with
    | some s' => s'.setMigration m (.copying ⟨seg, wb, dropped, pending, [], entries⟩ key path row)
    | none => s
  | _ => s

/-- The commit at the end of a run. -/
def compactFinish (ok : Bool) : State :=
  match s.migrations[m]? with
  | some (.compacting ⟨_, wb, dropped, pending, [], []⟩) =>
    if ok then (s.commitBatch wb dropped).setMigration m (.finishing pending)
    else s.setMigration m (.finishing [])
  | _ => s

/-! ## Recompaction -/

/-- Only closed segments are recompacted. -/
def recompactStart (old seg : String) : State :=
  match s.segments old with
  | some oldSeg =>
    if oldSeg.status = .closed then
      match s.acquire seg with
      | some s' => s'.addMigration (.recompacting ⟨old, seg, [], oldSeg.entries, false⟩)
      | none => s
    else s
  | none => s

/-- An entry is moved if the row of its key is at this place. -/
def recompactNext : State :=
  match s.migrations[m]? with
  | some (.recompacting ⟨old, seg, wb, entry :: entries, failed⟩) =>
    match s.rows entry.key with
    | some row =>
      if segmentPlace row = some (old, entry.offset) then
        s.setMigration m (.moving ⟨old, seg, wb, entries, failed⟩ entry row)
      else s.setMigration m (.recompacting ⟨old, seg, wb, entries, failed⟩)
    | none => s.setMigration m (.recompacting ⟨old, seg, wb, entries, failed⟩)
  | _ => s

/-- `copyEntry` closes a full segment and takes another one. -/
def recompactRoll (seg : String) : State :=
  match s.migrations[m]? with
  | some (.moving r entry row) =>
    match (s.finalizeSegment r.seg).acquire seg with
    | some s' => s'.setMigration m (.moving { r with seg := seg } entry row)
    | none => s
  | _ => s

/-- The rest of `copyEntry`. -/
def recompactCopy (offset : Int64) : State :=
  match s.migrations[m]? with
  | some (.moving r entry row) =>
    if s.freeAt r.seg offset then
      match s.writeEntry r.seg ⟨entry.key, offset, entry.data⟩ with
      | some s' => s'.setMigration m (.recompacting { r with
          wb := r.wb ++ [(entry.key, recompactionOperand row r.seg offset)] })
      | none => s.setMigration m (.recompacting { r with failed := true })
    else s
  | _ => s

/-- The commit at the end of a pass. An incomplete pass keeps the old segment. -/
def recompactCommit (ok : Bool) : State :=
  match s.migrations[m]? with
  | some (.recompacting ⟨old, _, wb, [], failed⟩) =>
    if ok then (s.commitBatch wb []).setMigration m (if failed then .finishing [] else .removing old)
    else s.setMigration m (.finishing [])
  | _ => s

def recompactRemove : State :=
  match s.migrations[m]? with
  | some (.removing old) => (s.removeSegment old).setMigration m (.finishing [old])
  | _ => s

/-! ## The deletion queue and cancellation -/

/-- `DeletionQueue.Add` for the next file that is ready. -/
def migrationQueue : State :=
  match s.migrations[m]? with
  | some (.compacting ⟨seg, wb, dropped, pending, path :: ready, entries⟩) =>
    (s.queue path).setMigration m (.compacting ⟨seg, wb, dropped, pending, ready, entries⟩)
  | some (.rolling ⟨seg, wb, dropped, pending, path :: ready, entries⟩ key file row) =>
    (s.queue path).setMigration m (.rolling ⟨seg, wb, dropped, pending, ready, entries⟩ key file row)
  | some (.finishing (path :: ready)) => (s.queue path).setMigration m (.finishing ready)
  | _ => s

/-- The context is cancelled: the batch is dropped. -/
def migrationCancel : State :=
  match s.migrations[m]? with
  | some (.compacting _) | some (.copying ..) | some (.recompacting _) | some (.moving ..) =>
    s.setMigration m (.finishing [])
  | _ => s

end OCache.Store
