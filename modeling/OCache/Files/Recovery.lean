import OCache.Keys
import OCache.Lib.EventSystem
import OCache.Proto.ValueMessage

/-!
# Startup recovery with failing reads

`RecoverOnStartup` goes through the compaction index. Workers fetch the metadata row of every index
row and compare it with the file; a collector takes the results in batches, removes files and then
deletes index rows and metadata rows in one write. What the workers find depends on what was removed
by then.

A read of the database can fail, and so can a `stat`. `validateEntry` takes a failed read for a
corrupted file and every failed `stat` for a missing one. Rows and index rows are arbitrary bytes, a
file is its size. Writes of batches succeed, and a file that cannot be removed stays.
-/

namespace OCache.Files

open EventSystem

/-! ## Validation -/

/-- `compactionEntryInfo` -/
structure CompactionEntryInfo where
  key : List UInt8
  userKey : List UInt8
  filePath : List UInt8

/-- What `streamEntries` sends for an index row. -/
def streamEntry (row : List UInt8 × List UInt8) : Option CompactionEntryInfo :=
  (Keys.parseCompactionIndexRow row.1 row.2).map fun (userKey, filePath) => ⟨row.1, userKey, filePath⟩

/-- What `validateEntry` finds. -/
inductive ValidationStatus where
  | valid
  | corrupted
  | stale
  | orphaned
  | missing
deriving DecidableEq

/-- `processDeletionBatch` removes the file. -/
@[simp] def ValidationStatus.removesFile : ValidationStatus → Bool
  | .corrupted | .orphaned => true
  | _ => false

/-- `ValidationResult` -/
structure ValidationResult where
  /-- The index key. -/
  syncKey : List UInt8
  filePath : List UInt8
  status : ValidationStatus
  /-- The user key of the metadata row that is to be deleted. -/
  metadataKey : Option (List UInt8)
deriving DecidableEq

/-- What `GetMetadata` returns. -/
inductive Metadata where
  | notFound
  /-- The read failed, or the row does not decode. -/
  | error
  | found (vm : ValueMessage)
deriving DecidableEq

/-- `GetMetadata` -/
def getMetadata (row : Option (List UInt8)) (readFails : Bool) : Metadata :=
  if readFails then .error
  else
    match row with
    | none => .notFound
    | some data =>
      match ValueMessage.unmarshal data with
      | none => .error
      | some vm => .found vm

/-- The first half of `validateEntry`: a result, or a row whose file is to be looked at. -/
def checkMetadata (entry : CompactionEntryInfo) (metadata : Metadata) :
    ValidationResult ⊕ ValueMessage :=
  match metadata with
  | .notFound => .inl ⟨entry.key, entry.filePath, .orphaned, none⟩
  | .error => .inl ⟨entry.key, entry.filePath, .corrupted, none⟩
  | .found vm =>
    if vm.valueType ≠ .rawFile then .inl ⟨entry.key, entry.filePath, .stale, none⟩
    else if Keys.ofString vm.rawFilePath ≠ entry.filePath then
      .inl ⟨entry.key, entry.filePath, .stale, none⟩
    else .inr vm

/-- The second half of `validateEntry`. -/
def checkFile (entry : CompactionEntryInfo) (vm : ValueMessage) (size : Option Int64)
    (statFails : Bool) : ValidationResult :=
  match size with
  | none => ⟨entry.key, entry.filePath, .missing, some entry.userKey⟩
  | some size =>
    if statFails then ⟨entry.key, entry.filePath, .missing, some entry.userKey⟩
    else if size ≠ vm.valueLength then ⟨entry.key, entry.filePath, .corrupted, some entry.userKey⟩
    else ⟨entry.key, entry.filePath, .valid, none⟩

def ValidationResult.removesFile (r : ValidationResult) : Bool :=
  r.filePath ≠ [] ∧ r.status.removesFile

/-! ## Runs -/

/-- What the collector does. -/
inductive Collector where
  | collecting (batch : List ValidationResult)
  /-- In `processDeletionBatch`: the results whose files are dealt with, and the others. -/
  | processing (done todo : List ValidationResult)
deriving DecidableEq

structure State where
  /-- The metadata row of a user key. -/
  rows : List UInt8 → Option (List UInt8)
  index : List (List UInt8 × List UInt8)
  /-- The size of a file. -/
  files : List UInt8 → Option Int64
  /-- The entries that no worker has taken yet. -/
  entries : List CompactionEntryInfo
  /-- The entries whose row was read and references their file. -/
  checking : List (CompactionEntryInfo × ValueMessage)
  results : List ValidationResult
  collector : Collector

inductive Event where
  /-- The iterator of the index fails behind that many more entries. -/
  | iteratorError (streamed : Nat)
  /-- A worker takes an entry and fetches its metadata. -/
  | fetch (i : Nat) (readFails : Bool)
  /-- A worker looks at a file. -/
  | stat (i : Nat) (statFails : Bool)
  /-- The collector takes a result. -/
  | collect (i : Nat)
  /-- All results are taken: the last batch is processed. -/
  | close
  /-- The next result of the batch: `os.Remove`, if its file is to be removed. -/
  | remove (fails : Bool)
  | write

namespace State

variable (s : State)

/-- `os.Remove` -/
@[simp] def removeFile (path : List UInt8) : State :=
  { s with files := Function.update s.files path none }

/-- The write at the end of `processDeletionBatch`. -/
def deleteRows (batch : List ValidationResult) : State :=
  { s with
    index := s.index.filter fun row => row.1 ∉ batch.map ValidationResult.syncKey
    rows := fun key => if some key ∈ batch.map ValidationResult.metadataKey then none else s.rows key }

/-- All entries are dealt with. -/
def finished : Prop := s.entries = [] ∧ s.checking = [] ∧ s.results = [] ∧ s.collector = .collecting []

end State

/-- One step; `batchSize` results are processed together. -/
def step (batchSize : Nat) (s : State) : Event → State
  | .iteratorError streamed => { s with entries := s.entries.take streamed }
  | .fetch i readFails =>
    match s.entries[i]? with
    | none => s
    | some entry =>
      let s := { s with entries := s.entries.eraseIdx i }
      match checkMetadata entry (getMetadata (s.rows entry.userKey) readFails) with
      | .inl result => { s with results := s.results ++ [result] }
      | .inr vm => { s with checking := s.checking ++ [(entry, vm)] }
  | .stat i statFails =>
    match s.checking[i]? with
    | none => s
    | some (entry, vm) =>
      { s with
        checking := s.checking.eraseIdx i
        results := s.results ++ [checkFile entry vm (s.files entry.filePath) statFails] }
  | .collect i =>
    match s.collector, s.results[i]? with
    | .collecting batch, some result =>
      let batch := batch ++ [result]
      { s with
        results := s.results.eraseIdx i
        collector := if batchSize ≤ batch.length then .processing [] batch else .collecting batch }
    | _, _ => s
  | .close =>
    match s.collector, s.entries, s.checking, s.results with
    | .collecting (result :: batch), [], [], [] =>
      { s with collector := .processing [] (result :: batch) }
    | _, _, _, _ => s
  | .remove fails =>
    match s.collector with
    | .processing done (result :: todo) =>
      let s := { s with collector := .processing (done ++ [result]) todo }
      if result.removesFile ∧ !fails then s.removeFile result.filePath else s
    | _ => s
  | .write =>
    match s.collector with
    | .processing done [] => { s.deleteRows done with collector := .collecting [] }
    | _ => s

/-- Recovery is about to start. -/
def start (rows : List UInt8 → Option (List UInt8)) (index : List (List UInt8 × List UInt8))
    (files : List UInt8 → Option Int64) : State where
  rows := rows
  index := index
  files := files
  entries := index.filterMap streamEntry
  checking := []
  results := []
  collector := .collecting []

/-! ## References -/

/-- The row decodes and references the file. -/
def References (row : Option (List UInt8)) (vm : ValueMessage) (path : List UInt8) : Prop :=
  ∃ data, row = some data ∧ ValueMessage.unmarshal data = some vm ∧ vm.valueType = .rawFile ∧
    Keys.ofString vm.rawFilePath = path

/-- The row of an index row is missing, or cannot be read or decoded, only if no row references the
file; a file has the wrong size only if no other row references it; and a `stat` fails only for a
file that does not have the size in the row. -/
def harmless (s : State) : Event → Prop
  | .fetch i readFails =>
    ∀ entry, s.entries[i]? = some entry →
      (∀ vm, getMetadata (s.rows entry.userKey) readFails ≠ .found vm) →
      ∀ key vm, ¬References (s.rows key) vm entry.filePath
  | .stat i statFails =>
    ∀ entry vm, s.checking[i]? = some (entry, vm) →
      if statFails then s.files entry.filePath ≠ some vm.valueLength
      else ∀ size, s.files entry.filePath = some size → size ≠ vm.valueLength →
        ∀ key vm', References (s.rows key) vm' entry.filePath → key = entry.userKey
  | _ => True

variable {vm : ValueMessage}

lemma getMetadata_eq_found {row : Option (List UInt8)} {readFails : Bool}
    (h : getMetadata row readFails = .found vm) :
    ∃ data, row = some data ∧ ValueMessage.unmarshal data = some vm := by
  cases readFails with
  | true => simp [getMetadata] at h
  | false =>
    cases row with
    | none => simp [getMetadata] at h
    | some data =>
      cases hvm : ValueMessage.unmarshal data with
      | none => simp [getMetadata, hvm] at h
      | some vm' => exact ⟨data, rfl, by simpa [getMetadata, hvm] using h⟩

/-! ## The invariant -/

/-- The results in the hands of the collector. -/
@[simp] def Collector.held : Collector → List ValidationResult
  | .collecting batch => batch
  | .processing done todo => done ++ todo

/-- The results whose files are dealt with, while their rows are not yet deleted. -/
@[simp] def Collector.done : Collector → List ValidationResult
  | .collecting _ => []
  | .processing done _ => done

section Invariant

variable (rows₀ : List UInt8 → Option (List UInt8)) (files₀ : List UInt8 → Option Int64)

/-- The row references a file that was missing at the start or had another size. -/
def Broken (key : List UInt8) : Prop :=
  ∃ vm path, References (rows₀ key) vm path ∧ files₀ path ≠ some vm.valueLength

/-- What a result says is true: the row it wants to delete is broken, and no other row references
the file it wants to remove, unless it is deleted by now. -/
structure Justified (rows : List UInt8 → Option (List UInt8)) (r : ValidationResult) : Prop where
  row : ∀ key, r.metadataKey = some key → Broken rows₀ files₀ key
  file : r.removesFile = true → ∀ key vm, References (rows₀ key) vm r.filePath →
    rows key = none ∨ r.metadataKey = some key

structure Inv (s : State) : Prop where
  rows : ∀ key, s.rows key = none ∨ s.rows key = rows₀ key
  files : ∀ path, s.files path = none ∨ s.files path = files₀ path
  checking : ∀ entry vm, (entry, vm) ∈ s.checking →
    References (rows₀ entry.userKey) vm entry.filePath
  results : ∀ r, r ∈ s.results ∨ r ∈ s.collector.held → Justified rows₀ files₀ s.rows r
  removedFile : ∀ path, files₀ path ≠ none → s.files path = none →
    ∀ key vm, References (rows₀ key) vm path →
      s.rows key = none ∨ ∃ r ∈ s.collector.done, r.metadataKey = some key
  removedRow : ∀ key, rows₀ key ≠ none → s.rows key = none → Broken rows₀ files₀ key

variable {rows₀ files₀} {s : State}

lemma inv_start {index : List (List UInt8 × List UInt8)} :
    Inv rows₀ files₀ (start rows₀ index files₀) where
  rows _ := .inr rfl
  files _ := .inr rfl
  checking := by simp [start]
  results := by simp [start]
  removedFile _ hbefore hafter := absurd hafter hbefore
  removedRow _ hbefore hafter := absurd hafter hbefore

namespace Inv

variable (h : Inv rows₀ files₀ s)

include h

variable {key path : List UInt8} {vm : ValueMessage}

/-- A row that is there is as it was. -/
theorem references (href : References (s.rows key) vm path) : References (rows₀ key) vm path := by
  rcases h.rows key with hnone | hsame
  · obtain ⟨data, hdata, -⟩ := href
    simp [hnone] at hdata
  · rwa [hsame] at href

/-- A row whose file does not have the size in the row is broken, also if recovery has removed the
file. -/
theorem broken (href : References (rows₀ key) vm path)
    (hsize : s.files path ≠ some vm.valueLength) : Broken rows₀ files₀ key := by
  by_cases hremoved : files₀ path ≠ none ∧ s.files path = none
  · rcases h.removedFile path hremoved.1 hremoved.2 key vm href with hrow | ⟨r, hr, hkey⟩
    · refine h.removedRow key ?_ hrow
      obtain ⟨data, hdata, -⟩ := href
      simp [hdata]
    · refine (h.results r (.inr ?_)).row key hkey
      cases hc : s.collector with
      | collecting batch => simp [hc] at hr
      | processing done todo =>
        rw [hc] at hr
        exact List.mem_append_left _ hr
  · refine ⟨vm, path, href, ?_⟩
    rcases h.files path with hnone | hsame
    · intro hfile
      exact hremoved ⟨by simp [hfile], hnone⟩
    · rwa [← hsame]

/-- The results and the collector change, and what was waiting shrinks. -/
theorem update {s' : State} (hrows : s'.rows = s.rows) (hfiles : s'.files = s.files)
    (hchecking : ∀ entry vm, (entry, vm) ∈ s'.checking → (entry, vm) ∈ s.checking ∨
      References (rows₀ entry.userKey) vm entry.filePath)
    (hresults : ∀ r, r ∈ s'.results ∨ r ∈ s'.collector.held →
      (r ∈ s.results ∨ r ∈ s.collector.held) ∨ Justified rows₀ files₀ s.rows r)
    (hdone : ∀ r ∈ s.collector.done, r ∈ s'.collector.done) : Inv rows₀ files₀ s' where
  rows := hrows ▸ h.rows
  files := hfiles ▸ h.files
  checking entry vm he := (hchecking entry vm he).elim (h.checking entry vm) id
  results r hr := by
    rw [hrows]
    exact (hresults r hr).elim (h.results r) id
  removedFile path hbefore hafter key vm href := by
    rw [hfiles] at hafter
    rw [hrows]
    refine (h.removedFile path hbefore hafter key vm href).imp_right ?_
    rintro ⟨r, hr, hkey⟩
    exact ⟨r, hdone r hr, hkey⟩
  removedRow := hrows ▸ h.removedRow

/-- A row that does not reference its file any more is deleted. -/
theorem rows_eq_none (href : References (rows₀ key) vm path)
    (hnot : ¬References (s.rows key) vm path) : s.rows key = none :=
  (h.rows key).resolve_right fun hsame => hnot (hsame ▸ href)

variable {entry : CompactionEntryInfo}

/-- A worker has fetched the row of an entry. -/
theorem fetch {readFails : Bool}
    (hharmless : (∀ vm, getMetadata (s.rows entry.userKey) readFails ≠ .found vm) →
      ∀ key vm, ¬References (s.rows key) vm entry.filePath) :
    match checkMetadata entry (getMetadata (s.rows entry.userKey) readFails) with
    | .inl r => Justified rows₀ files₀ s.rows r
    | .inr vm => References (rows₀ entry.userKey) vm entry.filePath := by
  -- A file is removed only if no row references it.
  have hremoves : (∀ vm, getMetadata (s.rows entry.userKey) readFails ≠ .found vm) → ∀ status,
      Justified rows₀ files₀ s.rows ⟨entry.key, entry.filePath, status, none⟩ := fun hnot status =>
    ⟨nofun, fun _ key vm href => .inl (h.rows_eq_none href (hharmless hnot key vm))⟩
  have hstale : Justified rows₀ files₀ s.rows ⟨entry.key, entry.filePath, .stale, none⟩ :=
    ⟨nofun, by simp [ValidationResult.removesFile]⟩
  cases hm : getMetadata (s.rows entry.userKey) readFails with
  | notFound | error => exact hremoves (by simp [hm]) _
  | found vm =>
    obtain ⟨data, hrow, hvm⟩ := getMetadata_eq_found hm
    by_cases htype : vm.valueType ≠ .rawFile
    · simpa [checkMetadata, htype] using hstale
    · by_cases hpath : Keys.ofString vm.rawFilePath ≠ entry.filePath
      · simpa [checkMetadata, htype, hpath] using hstale
      · have href : References (s.rows entry.userKey) vm entry.filePath :=
          ⟨data, hrow, hvm, not_not.mp htype, not_not.mp hpath⟩
        simpa [checkMetadata, htype, hpath] using h.references href

/-- A worker has looked at the file of an entry. -/
theorem stat (href : References (rows₀ entry.userKey) vm entry.filePath) {statFails : Bool}
    (hharmless : if statFails then s.files entry.filePath ≠ some vm.valueLength
      else ∀ size, s.files entry.filePath = some size → size ≠ vm.valueLength →
        ∀ key vm', References (s.rows key) vm' entry.filePath → key = entry.userKey) :
    Justified rows₀ files₀ s.rows (checkFile entry vm (s.files entry.filePath) statFails) := by
  -- A row is deleted only if it is broken.
  have hbroken : s.files entry.filePath ≠ some vm.valueLength →
      ∀ key, some entry.userKey = some key → Broken rows₀ files₀ key := by
    rintro hsize key ⟨⟩
    exact h.broken href hsize
  have hmissing : s.files entry.filePath ≠ some vm.valueLength → Justified rows₀ files₀ s.rows
      ⟨entry.key, entry.filePath, .missing, some entry.userKey⟩ := fun hsize =>
    ⟨hbroken hsize, by simp [ValidationResult.removesFile]⟩
  unfold checkFile
  split
  · rename_i hnone
    exact hmissing (by simp [hnone])
  · rename_i size hsize
    split
    · rename_i hfails
      exact hmissing (by simpa [hfails] using hharmless)
    · rename_i hfails
      rw [if_neg hfails] at hharmless
      split
      · -- The file goes with the row, and no other row needs it.
        rename_i hne
        refine ⟨hbroken (by simpa [hsize] using hne), fun _ key vm' href' => ?_⟩
        by_cases hstill : References (s.rows key) vm' entry.filePath
        · exact .inr (congrArg some (hharmless size hsize hne key vm' hstill).symm)
        · exact .inl (h.rows_eq_none href' hstill)
      · exact ⟨nofun, by simp [ValidationResult.removesFile]⟩

/-- The collector has removed a file. -/
theorem removeFile {r : ValidationResult} (hr : r ∈ s.collector.done)
    (hjustified : Justified rows₀ files₀ s.rows r) (hremoves : r.removesFile = true) :
    Inv rows₀ files₀ (s.removeFile r.filePath) :=
  { h with
    files := fun path => by
      by_cases hpath : path = r.filePath
      · exact .inl (by simp [hpath])
      · simpa [hpath] using h.files path
    removedFile := fun path hbefore hafter key vm href => by
      by_cases hpath : path = r.filePath
      · subst hpath
        exact (hjustified.file hremoves key vm href).imp_right fun hkey => ⟨r, hr, hkey⟩
      · refine h.removedFile path hbefore ?_ key vm href
        simpa [hpath] using hafter }

/-- The rows of a batch are deleted. -/
theorem write {done : List ValidationResult} (hc : s.collector = .processing done []) :
    Inv rows₀ files₀ { s.deleteRows done with collector := .collecting [] } := by
  have hrows : ∀ key, s.rows key = none → (s.deleteRows done).rows key = none := by
    intro key hnone
    simp [State.deleteRows, hnone]
  refine ⟨fun key => ?_, h.files, h.checking, fun r hr => ?_,
    fun path hbefore hafter key vm href => ?_, fun key hbefore hafter => ?_⟩
  · simp only [State.deleteRows]
    split
    · exact .inl rfl
    · exact h.rows key
  · have hr : r ∈ s.results := by simpa [State.deleteRows] using hr
    have hjustified := h.results r (.inl hr)
    exact ⟨hjustified.row, fun hremoves key vm href =>
      (hjustified.file hremoves key vm href).imp_left (hrows key)⟩
  · -- What the batch had yet to delete is deleted now.
    rcases h.removedFile path hbefore hafter key vm href with hnone | ⟨r, hr, hkey⟩
    · exact .inl (hrows key hnone)
    · rw [hc] at hr
      refine .inl ?_
      simp only [State.deleteRows]
      rw [if_pos (hkey ▸ List.mem_map_of_mem hr)]
  · simp only [State.deleteRows] at hafter
    split at hafter
    · rename_i hmem
      obtain ⟨r, hr, hkey⟩ := List.mem_map.mp hmem
      exact (h.results r (.inr (by simp [hc, hr]))).row key hkey
    · exact h.removedRow key hbefore hafter

end Inv

section Steps

variable {batchSize : Nat} {s : State}

variable {i : Nat}

variable (h : Inv rows₀ files₀ s)

include h

/-- A worker has fetched the row of an index row: it has a result, or goes on to the file. -/
theorem inv_fetch {readFails : Bool} (hok : harmless s (.fetch i readFails)) :
    Inv rows₀ files₀ (step batchSize s (.fetch i readFails)) := by
  simp only [step]
  split
  · exact h
  · rename_i entry hentry
    have hfetch := h.fetch (hok entry hentry)
    split
    · rename_i r hr
      rw [hr] at hfetch
      refine h.update rfl rfl (fun _ _ => .inl) ?_ (fun _ => id)
      rintro r' (hr' | hr')
      · rcases List.mem_append.mp hr' with hr' | hr'
        · exact .inl (.inl hr')
        · rw [List.mem_singleton.mp hr']
          exact .inr hfetch
      · exact .inl (.inr hr')
    · -- The row has the file: the worker goes on to look at the file itself.
      rename_i vm hvm
      rw [hvm] at hfetch
      refine h.update rfl rfl (fun entry' vm' hin => ?_) (fun _ => .inl) (fun _ => id)
      rcases List.mem_append.mp hin with hin | hin
      · exact .inl hin
      · obtain ⟨rfl, rfl⟩ := Prod.mk.inj (List.mem_singleton.mp hin)
        exact .inr hfetch

lemma inv_stat {statFails : Bool} (hok : harmless s (.stat i statFails)) :
    Inv rows₀ files₀ (step batchSize s (.stat i statFails)) := by
  simp only [step]
  split
  · exact h
  · rename_i entry vm hentry
    have hstat := h.stat (h.checking entry vm (List.mem_of_getElem? hentry)) (hok entry vm hentry)
    refine h.update rfl rfl (fun _ _ he => .inl (List.mem_of_mem_eraseIdx he)) ?_ (fun _ => id)
    rintro r (hr | hr)
    · rcases List.mem_append.mp hr with hr | hr
      · exact .inl (.inl hr)
      · rw [List.mem_singleton.mp hr]
        exact .inr hstat
    · exact .inl (.inr hr)

lemma inv_collect : Inv rows₀ files₀ (step batchSize s (.collect i)) := by
  simp only [step]
  split
  · rename_i batch result hc hresult
    refine h.update rfl rfl (fun _ _ => .inl) ?_ (by simp [hc])
    rintro r (hr | hr)
    · exact .inl (.inl (List.mem_of_mem_eraseIdx hr))
    · have hr : r ∈ batch ∨ r = result := by
        split at hr <;> simpa using hr
      rcases hr with hr | rfl
      · exact .inl (.inr (by rwa [hc]))
      · exact .inl (.inl (List.mem_of_getElem? hresult))
  · exact h

lemma inv_close : Inv rows₀ files₀ (step batchSize s .close) := by
  simp only [step]
  split
  · rename_i result batch hc hentries hchecking hresults
    refine h.update rfl rfl (fun _ _ => .inl) ?_ (by simp [hc])
    rintro r (hr | hr)
    · exact .inl (.inl hr)
    · exact .inl (.inr (by rwa [hc]))
  · exact h

/-- The collector takes the next result of its batch and removes its file if the result says so. -/
theorem inv_remove {fails : Bool} : Inv rows₀ files₀ (step batchSize s (.remove fails)) := by
  simp only [step]
  split
  · rename_i done result todo hc
    have hresult : Justified rows₀ files₀ s.rows result :=
      h.results result (.inr (by simp [hc]))
    have hnext : Inv rows₀ files₀
        { s with collector := .processing (done ++ [result]) todo } := by
      refine h.update rfl rfl (fun _ _ => .inl) ?_ ?_
      · rintro r (hr | hr)
        · exact .inl (.inl hr)
        · exact .inl (.inr (by simpa [hc] using hr))
      · intro r hr
        rw [hc] at hr
        exact List.mem_append_left _ hr
    split
    · rename_i hremoves
      exact hnext.removeFile (by simp) hresult hremoves.1
    · exact hnext
  · exact h

lemma inv_write : Inv rows₀ files₀ (step batchSize s .write) := by
  simp only [step]
  split
  · exact h.write ‹_›
  · exact h

end Steps

lemma inv_step (batchSize : Nat) (s : State) (e : Event) (h : Inv rows₀ files₀ s)
    (hok : harmless s e) : Inv rows₀ files₀ (step batchSize s e) := by
  cases e with
  | iteratorError streamed =>
    exact h.update rfl rfl (fun _ _ => .inl) (fun _ => .inl) (fun _ => id)
  | fetch i readFails => exact inv_fetch h hok
  | stat i statFails => exact inv_stat h hok
  | collect i => exact inv_collect h
  | close => exact inv_close h
  | remove fails => exact inv_remove h
  | write => exact inv_write h

end Invariant

/-- Recovery on any database and any files, in any order of the workers and for any size of the
batches: a file that it has removed is referenced by no row that is left, and every row that it has
removed referenced a file that was missing or had another size. -/
theorem recoverOnStartup_safe (rows : List UInt8 → Option (List UInt8))
    (index : List (List UInt8 × List UInt8)) (files : List UInt8 → Option Int64) (batchSize : Nat)
    (es : List Event) (hharmless : RunOk (step batchSize) harmless (start rows index files) es) :
    let s := run (step batchSize) (start rows index files) es
    (s.finished → ∀ path, files path ≠ none → s.files path = none →
      ∀ key vm, ¬References (s.rows key) vm path) ∧
      ∀ key, rows key ≠ none → s.rows key = none → Broken rows files key := by
  have h : Inv rows files (run (step batchSize) (start rows index files) es) :=
    invariant_run (inv_step batchSize) inv_start hharmless
  refine ⟨fun hfinished path hbefore hafter key vm href => ?_, h.removedRow⟩
  rcases h.removedFile path hbefore hafter key vm (h.references href) with hnone | ⟨r, hr, -⟩
  · obtain ⟨data, hdata, -⟩ := href
    simp [hnone] at hdata
  · simp [hfinished.2.2.2] at hr

/-! ## One row -/

/-- The row of key `k`, with a file of five bytes at `p`. -/
def oneMessage : ValueMessage := { valueType := .rawFile, rawFilePath := "p", valueLength := 5 }

def oneRow (key : List UInt8) : Option (List UInt8) :=
  if key = Keys.ofString "k" then some oneMessage.marshal else none

/-- A file of that size at `p`. -/
def oneFile (size : Int64) (path : List UInt8) : Option Int64 :=
  if path = Keys.ofString "p" then some size else none

/-- The index row of a key, with the file at `p`. -/
def indexRow (key : String) : List (List UInt8 × List UInt8) :=
  [(Keys.ofString "!compact/1|" ++ Keys.ofString key, Keys.ofString "p")]

/-- The only row references `p`. -/
theorem path_of_references {key path : List UInt8} (h : References (oneRow key) vm path) :
    path = Keys.ofString "p" := by
  obtain ⟨data, hdata, hvm, -, rfl⟩ := h
  unfold oneRow at hdata
  split at hdata
  · obtain rfl := Option.some.inj hdata
    have hmessage : ValueMessage.unmarshal oneMessage.marshal = some oneMessage := by decide +kernel
    rw [← Option.some.inj (hmessage.symm.trans hvm)]
    rfl
  · simp at hdata

/-- The collector goes through a last batch of one result. -/
def lastBatch : List Event := [.collect 0, .close, .remove false, .write]

/-- The state after a run in which the entry is validated and then the last batch written. -/
def recovered (indexKey : String) (size : Int64) (validation : List Event) : State :=
  run (step 100) (start oneRow (indexRow indexKey) (oneFile size)) (validation ++ lastBatch)

/-- The index row of `k`, and one of another key with a file that no row references. -/
def twoIndexRows : List (List UInt8 × List UInt8) :=
  indexRow "k" ++ [(Keys.ofString "!compact/2|j", Keys.ofString "q")]

/-- The file at `p` is too short. -/
def twoFiles (path : List UInt8) : Option Int64 :=
  if path = Keys.ofString "q" then some 7 else oneFile 4 path

/-- The read of the other row fails, and the `stat` of the file that is too short. -/
def failingReads : List Event :=
  [.fetch 0 false, .fetch 0 true, .stat 0 true, .collect 0, .collect 0, .close, .remove false,
    .remove false, .write]

lemma harmless_failingReads :
    RunOk (step 100) harmless (start oneRow twoIndexRows twoFiles) failingReads := by
  refine ⟨fun entry hentry hnot => ?_, fun entry hentry _ key vm href => ?_,
    fun entry vm hentry => ?_, trivial, trivial, trivial, trivial, trivial, trivial, trivial⟩
  · have hkey : ((start oneRow twoIndexRows twoFiles).entries[0]?).map (·.userKey) =
        some (Keys.ofString "k") := by decide +kernel
    rw [hentry] at hkey
    have hkey : entry.userKey = Keys.ofString "k" := Option.some.inj hkey
    refine absurd ?_ (hnot oneMessage)
    rw [hkey]
    decide +kernel
  · have hpath : ((step 100 (start oneRow twoIndexRows twoFiles) (.fetch 0 false)).entries[0]?).map
        (·.filePath) = some (Keys.ofString "q") := by decide +kernel
    rw [hentry] at hpath
    exact absurd ((Option.some.inj hpath).symm.trans (path_of_references href)) (by decide +kernel)
  · have hsize : ((step 100 (step 100 (start oneRow twoIndexRows twoFiles) (.fetch 0 false))
        (.fetch 0 true)).checking[0]?).map (fun c => (twoFiles c.1.filePath, c.2.valueLength)) =
        some (some 4, 5) := by decide +kernel
    rw [hentry] at hsize
    obtain ⟨hfile, hlength⟩ := Prod.mk.inj (Option.some.inj hsize)
    exact fun hsame => absurd (hfile.symm.trans (hsame.trans (congrArg some hlength))) (by decide)

/-- The unreferenced file is removed, and the row whose file is too short. -/
theorem recoverOnStartup_safe_failingReads :
    let s := run (step 100) (start oneRow twoIndexRows twoFiles) failingReads
    s.rows (Keys.ofString "k") = none ∧ s.files (Keys.ofString "q") = none ∧
      (s.finished → ∀ path, twoFiles path ≠ none → s.files path = none →
        ∀ key vm, ¬References (s.rows key) vm path) ∧
      ∀ key, oneRow key ≠ none → s.rows key = none → Broken oneRow twoFiles key :=
  ⟨by decide +kernel, by decide +kernel,
    recoverOnStartup_safe oneRow twoIndexRows twoFiles 100 failingReads harmless_failingReads⟩

/-- The file is removed and the row stays. -/
def LosesFile (s : State) : Prop :=
  s.finished ∧ s.files (Keys.ofString "p") = none ∧
    References (s.rows (Keys.ofString "k")) oneMessage (Keys.ofString "p")

/-- The row is removed and the file stays. -/
def LosesRow (s : State) : Prop :=
  s.finished ∧ s.rows (Keys.ofString "k") = none ∧
    s.files (Keys.ofString "p") = some oneMessage.valueLength

/-- Three runs on an intact row and its intact file. The read of the row fails, or the `stat`, or
nothing fails but an index row of another key, whose metadata is gone, names the file. -/
theorem recoverOnStartup_destroys :
    LosesFile (recovered "k" 5 [.fetch 0 true]) ∧
      LosesRow (recovered "k" 5 [.fetch 0 false, .stat 0 true]) ∧
      LosesFile (recovered "j" 5 [.fetch 0 false]) := by
  refine ⟨⟨?_, by decide +kernel, ?_⟩, ⟨?_, by decide +kernel, by decide +kernel⟩,
    ⟨?_, by decide +kernel, ?_⟩⟩
  · exact ⟨by decide +kernel, by decide +kernel, by decide +kernel, by decide +kernel⟩
  · exact ⟨oneMessage.marshal, by decide +kernel, by decide +kernel, rfl, rfl⟩
  · exact ⟨by decide +kernel, by decide +kernel, by decide +kernel, by decide +kernel⟩
  · exact ⟨by decide +kernel, by decide +kernel, by decide +kernel, by decide +kernel⟩
  · exact ⟨oneMessage.marshal, by decide +kernel, by decide +kernel, rfl, rfl⟩

end OCache.Files
