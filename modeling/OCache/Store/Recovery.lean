import OCache.Files.Recovery
import OCache.Store.Step

/-!
# Restarts and startup recovery

A process can stop between any two durable writes. Rows, files, segments, the compaction index and
the deletion queue survive; calls and migrations do not. Before it serves again the process runs
`RecoverOnStartup`, which goes through the compaction index: workers validate the rows of the index,
and a collector deletes them in batches, together with files and metadata that turned out to be
useless. It deletes the index rows of valid files as well.
-/

/-- `processDeletionBatch` deletes the metadata row. -/
@[simp] def OCache.Files.ValidationStatus.deletesRow : OCache.Files.ValidationStatus → Bool
  | .corrupted | .missing => true
  | _ => false

namespace OCache.Store

open Files (ValidationStatus)

/-- Whether the row of an index row's key still references the file, and whether the file is
whole. -/
def validateEntry (s : State) (key path : String) : ValidationStatus :=
  match s.rows key with
  | none => .orphaned
  | some row =>
    if row.valueType ≠ .rawFile then .stale
    else if row.rawFilePath ≠ path then .stale
    else if s.hasFile path then
      if (s.rawFiles path).map (Int64.ofNat ·.length) ≠ some row.valueLength then .corrupted
      else .valid
    else .missing

structure ValidationResult where
  key : String
  path : String
  status : ValidationStatus
deriving DecidableEq

/-- A run of `RecoverOnStartup`. -/
structure Recovering where
  /-- The index rows that are not validated yet. -/
  entries : List (String × String)
  /-- The results that are not written yet. -/
  results : List ValidationResult

/-- The store and the process that runs it. -/
structure Process where
  store : State
  /-- The raw file that the row of a key referenced when the process started. -/
  atStart : String → Option String
  /-- Recovery, until the process serves. -/
  recovering : Option Recovering

namespace Process

/-- A process that has started on an empty store. -/
@[simp] def init : Process := ⟨State.init, fun _ => none, none⟩

variable (p : Process)

/-- The process stops, cleanly or not, and starts again. -/
@[simp] def restart : Process where
  store := { p.store with
    calls := fun _ => .idle
    migrations := [] }
  atStart key := (p.store.rows key).bind rawPath
  recovering := some ⟨p.store.compactionIndex, []⟩

/-- A worker validates an index row. -/
def validate (key path : String) : Process :=
  match p.recovering with
  | some r =>
    if (key, path) ∈ r.entries then
      let res : ValidationResult := ⟨key, path, validateEntry p.store key path⟩
      { p with recovering := some ⟨r.entries.erase (key, path), r.results ++ [res]⟩ }
    else p
  | none => p

/-- The collector removes the file of a result. -/
def removeFile (res : ValidationResult) : Process :=
  match p.recovering with
  | some r =>
    if res ∈ r.results ∧ res.status.removesFile then
      { p with store := { p.store with unlinked := res.path :: p.store.unlinked } }
    else p
  | none => p

/-- The write of `processDeletionBatch`: the index row of every result goes, whatever its status. -/
def deleteBatch (batch : List ValidationResult) : Process :=
  match p.recovering with
  | some r =>
    if batch ⊆ r.results then
      { p with
        store := { p.store with
          rows := fun key =>
            if batch.any fun res => res.key = key ∧ res.status.deletesRow then none
            else p.store.rows key
          compactionIndex := p.store.compactionIndex.filter fun e =>
            e ∉ batch.map fun res => (res.key, res.path) }
        recovering := some ⟨r.entries, r.results.filter (· ∉ batch)⟩ }
    else p
  | none => p

/-- Recovery is complete and the process serves. -/
def recovered : Process :=
  match p.recovering with
  | some ⟨[], []⟩ => { p with recovering := none }
  | _ => p

end Process

/-- A step of the process. -/
inductive ProcessEvent
  | serve (e : Event)
  | restart
  | validate (key path : String)
  | removeFile (res : ValidationResult)
  | deleteBatch (batch : List ValidationResult)
  | recovered

def processStep (cfg : Config) (p : Process) : ProcessEvent → Process
  | .serve e => if p.recovering.isNone then { p with store := step cfg p.store e } else p
  | .restart => p.restart
  | .validate key path => p.validate key path
  | .removeFile res => p.removeFile res
  | .deleteBatch batch => p.deleteBatch batch
  | .recovered => p.recovered

/-- Names are not reused, and the bookkeeping batch of a won `PutIfVersion` does not fail. -/
def steady (p : Process) : ProcessEvent → Bool
  | .serve (.casFinish _ ok) => ok
  | .serve e => freshNames p.store e
  | _ => true

end OCache.Store
