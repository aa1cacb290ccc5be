import OCache.Keys
import OCache.Lib.EventSystem

/-!
# The deletion queue

A file that nothing references any more is queued, a row for each request, and removed later. A row
is the only record that the file has to go, so it may be dropped only when the file is gone.
`ProcessBatch` takes the oldest rows that are due, one for each path, and tries to remove the files;
a row whose file is still there is replaced by one under a later time. `pruneOldEntries` drops old
rows of files that no longer exist.

Any number of both may run at a time. Removals, lock attempts and batch writes may fail, the clock
is arbitrary, and a crash loses everything but rows and files. Raw files have unique names and are
queued after they were written, so a file may as well be there from the start: none is created here.
-/

namespace OCache.DeletionQueue

open Keys EventSystem

/-- A path, as bytes. -/
abbrev Path := List UInt8

/-- A row of the queue; its value carries nothing. -/
abbrev Row := List UInt8

/-! ## Batches -/

/-- What `ProcessBatch` and `pruneOldEntries` put into their write batch for one row: the row is
deleted and, if the file is still there, queued again. -/
structure Staged where
  queueKey : Row
  requeued : Option Row

/-- The rows after one of them is deleted and possibly queued again. -/
def Staged.apply (rows : List Row) (op : Staged) : List Row :=
  op.requeued.toList ++ rows.filter (· ≠ op.queueKey)

/-- The rows after a batch is written. -/
def applyBatch (rows : List Row) (batch : List Staged) : List Row := batch.foldl Staged.apply rows

/-- The scan of `ProcessBatch` over the rows in key order: the first `batchSize` paths that are due,
each with its earliest row. It ends at the first row that is not due. -/
def collect (batchSize : Nat) (now : Int64) : List Row → List (Path × Row) → List (Path × Row)
  | [], seen => seen
  | row :: rows, seen =>
    if batchSize ≤ seen.length then seen
    else
      match parseDeletionQueueKey row with
      | none => collect batchSize now rows seen
      | some (timestamp, path) =>
        if now < timestamp then seen
        else if path ∈ seen.map Prod.fst then collect batchSize now rows seen
        else collect batchSize now rows (seen ++ [(path, row)])

/-! ## The system -/

/-- What comes of an attempt to remove a file. -/
inductive Attempt where
  /-- The file is locked by a reader. -/
  | locked
  /-- The file was removed, or was not there. -/
  | removed
  /-- Any other error. -/
  | failed

/-- Where a run of `ProcessBatch` or `pruneOldEntries` stands. -/
inductive Worker where
  /-- `ProcessBatch` has the paths of `seen` left. -/
  | processing (seen : List (Path × Row)) (batch : List Staged)
  /-- `pruneOldEntries` has rows left to look at. -/
  | pruning (cutoff : Int64) (rows : List Row) (batch : List Staged)
  | stopped

structure State where
  /-- The rows of the queue. -/
  rows : List Row
  /-- The files on disk. -/
  files : List Path
  /-- The paths for which `Add` returned success. -/
  added : List Path
  workers : List Worker

/-- An empty queue, with the given files on disk. -/
def init (files : List Path) : State := ⟨[], files, [], []⟩

def State.setWorker (s : State) (w : Nat) (x : Worker) : State :=
  { s with workers := s.workers.set w x }

/-- The write of a batch, which fails as a whole. -/
def State.write (s : State) (batch : List Staged) (ok : Bool) : State :=
  if ok then { s with rows := applyBatch s.rows batch } else s

/-- The rows in the order of an iterator. -/
def State.sorted (s : State) : List Row := s.rows.insertionSort (· ≤ ·)

/-- `Queue.Add`. -/
def add (s : State) (filepath : Path) (now : Int64) (ok : Bool) : State :=
  if filepath ≠ [] ∧ ok then
    { s with rows := makeDeletionQueueKey now filepath :: s.rows, added := filepath :: s.added }
  else s

/-- The scan of `ProcessBatch`. -/
def processBatch (s : State) (batchSize : Nat) (now : Int64) : State :=
  { s with workers := s.workers ++ [.processing (collect batchSize now s.sorted []) []] }

/-- `tryDelete` for one of the paths that are left, in any order. After a failure the row is queued
again under the time `retryAt`. -/
def tryDelete (s : State) (w i : Nat) (attempt : Attempt) (retryAt : Int64) : State :=
  match s.workers[w]? with
  | some (.processing seen batch) =>
    match seen[i]? with
    | some (path, queueKey) =>
      match attempt with
      | .removed =>
        { s with files := s.files.filter (· ≠ path) }.setWorker w
          (.processing (seen.eraseIdx i) (batch ++ [Staged.mk queueKey none]))
      | .locked | .failed =>
        s.setWorker w (.processing (seen.eraseIdx i)
          (batch ++ [Staged.mk queueKey (some (makeDeletionQueueKey retryAt path))]))
    | none => s
  | _ => s

/-- The write at the end of `ProcessBatch`. -/
def commit (s : State) (w : Nat) (ok : Bool) : State :=
  match s.workers[w]? with
  | some (.processing [] batch) => (s.write batch ok).setWorker w .stopped
  | _ => s

def pruneOldEntries (s : State) (cutoff : Int64) : State :=
  { s with workers := s.workers ++ [.pruning cutoff s.sorted []] }

/-- What `pruneOldEntries` makes of a row: an old one is dropped if `Stat` says that the file does
not exist. -/
def pruneRow (files : List Path) (cutoff : Int64) (statFails : Bool) (row : Row) : List Staged :=
  match parseDeletionQueueKey row with
  | some (timestamp, path) =>
    if 0 < timestamp ∧ timestamp < cutoff ∧ ¬statFails ∧ path ∉ files then [⟨row, none⟩] else []
  | none => []

/-- `pruneOldEntries` looks at its next row. A batch of a hundred rows is written. -/
def pruneNext (s : State) (w : Nat) (statFails ok : Bool) : State :=
  match s.workers[w]? with
  | some (.pruning cutoff (row :: rows) batch) =>
    let batch := batch ++ pruneRow s.files cutoff statFails row
    if 100 ≤ batch.length then (s.write batch ok).setWorker w (.pruning cutoff rows [])
    else s.setWorker w (.pruning cutoff rows batch)
  | _ => s

/-- The last write of `pruneOldEntries`. -/
def pruneEnd (s : State) (w : Nat) (ok : Bool) : State :=
  match s.workers[w]? with
  | some (.pruning _ [] batch) => (s.write batch ok).setWorker w .stopped
  | _ => s

/-- A step of the queue. -/
inductive Event where
  | add (filepath : Path) (now : Int64) (ok : Bool)
  | processBatch (batchSize : Nat) (now : Int64)
  | tryDelete (w i : Nat) (attempt : Attempt) (retryAt : Int64)
  | commit (w : Nat) (ok : Bool)
  | pruneOldEntries (cutoff : Int64)
  | pruneNext (w : Nat) (statFails ok : Bool)
  | pruneEnd (w : Nat) (ok : Bool)
  /-- The queue is stopped in the middle of its work. -/
  | crash

def step (s : State) : Event → State
  | .add filepath now ok => add s filepath now ok
  | .processBatch batchSize now => processBatch s batchSize now
  | .tryDelete w i attempt retryAt => tryDelete s w i attempt retryAt
  | .commit w ok => commit s w ok
  | .pruneOldEntries cutoff => pruneOldEntries s cutoff
  | .pruneNext w statFails ok => pruneNext s w statFails ok
  | .pruneEnd w ok => pruneEnd s w ok
  | .crash => { s with workers := [] }

/-! ## The invariant -/

/-- The row asks for the removal of the path. -/
def Names (row : Row) (path : Path) : Prop :=
  ∃ timestamp, parseDeletionQueueKey row = some (timestamp, path)

lemma names_make (timestamp : Int64) (path : Path) :
    Names (makeDeletionQueueKey timestamp path) path :=
  ⟨timestamp, parseDeletionQueueKey_make timestamp path⟩

lemma Names.unique {row : Row} {p q : Path} (hp : Names row p) (hq : Names row q) : p = q := by
  obtain ⟨_, hp⟩ := hp
  obtain ⟨_, hq⟩ := hq
  rw [hp] at hq
  simp only [Option.some.injEq, Prod.mk.injEq] at hq
  exact hq.2

/-- A row is dropped only if its file is gone, and replaced only by a row for the same path. -/
structure Safe (files : List Path) (op : Staged) : Prop where
  gone : op.requeued = none → ∀ path, Names op.queueKey path → path ∉ files
  again : ∀ row, op.requeued = some row → ∀ path, Names op.queueKey path → Names row path

/-- The batch of a worker is safe to write, and `ProcessBatch` pairs rows with their paths. -/
def Worker.Safe (files : List Path) : Worker → Prop
  | processing seen batch =>
    (∀ path row, (path, row) ∈ seen → Names row path) ∧
      ∀ op ∈ batch, DeletionQueue.Safe files op
  | pruning _ _ batch => ∀ op ∈ batch, DeletionQueue.Safe files op
  | stopped => True

/-- The path has a row. -/
def Queued (rows : List Row) (path : Path) : Prop := ∃ row ∈ rows, Names row path

structure Inv (s : State) : Prop where
  added : ∀ path ∈ s.added, path ∈ s.files → Queued s.rows path
  workers : ∀ x ∈ s.workers, x.Safe s.files

section Batches

variable {files : List Path}

variable {files' : List Path} {op : Staged} {path : Path} {rows : List Row}

/-- What is safe stays safe when more files are gone. -/
theorem Safe.mono (h : Safe files op) (hfiles : ∀ p ∈ files', p ∈ files) : Safe files' op :=
  ⟨fun hnone path hpath hmem => h.gone hnone path hpath (hfiles path hmem), h.again⟩

lemma Worker.Safe.mono {x : Worker} (h : x.Safe files) (hfiles : ∀ p ∈ files', p ∈ files) :
    x.Safe files' := by
  cases x with
  | processing seen batch => exact ⟨h.1, fun op hop => (h.2 op hop).mono hfiles⟩
  | pruning cutoff rows batch => exact fun op hop => (h op hop).mono hfiles
  | stopped => trivial

/-- One deletion leaves a row for every file that exists. -/
theorem queued_apply (hop : Safe files op) (hpath : path ∈ files) (h : Queued rows path) :
    Queued (op.apply rows) path := by
  obtain ⟨row, hrow, hnames⟩ := h
  by_cases hkey : row = op.queueKey
  · subst hkey
    cases hagain : op.requeued with
    | none => exact absurd hpath (hop.gone hagain path hnames)
    | some new =>
      exact ⟨new, by simp [Staged.apply, hagain], hop.again new hagain path hnames⟩
  · exact ⟨row, by simp [Staged.apply, hrow, hkey], hnames⟩

lemma queued_applyBatch {batch : List Staged} (hbatch : ∀ op ∈ batch, Safe files op)
    (hpath : path ∈ files) (h : Queued rows path) : Queued (applyBatch rows batch) path := by
  induction batch generalizing rows with
  | nil => exact h
  | cons op batch ih =>
    exact ih (fun op' h' => hbatch op' (List.mem_cons_of_mem _ h'))
      (queued_apply (hbatch op List.mem_cons_self) hpath h)

/-- The scan pairs a row with the path it asks for. -/
theorem names_of_mem_collect {batchSize : Nat} {now : Int64} {seen : List (Path × Row)}
    (hseen : ∀ path row, (path, row) ∈ seen → Names row path) (path : Path) (row : Row)
    (h : (path, row) ∈ collect batchSize now rows seen) : Names row path := by
  induction rows generalizing seen with
  | nil => exact hseen path row h
  | cons r rows ih =>
    unfold collect at h
    split at h
    · exact hseen path row h
    · split at h
      · exact ih hseen h
      · rename_i timestamp p hparse
        split at h
        · exact hseen path row h
        · split at h
          · exact ih hseen h
          · refine ih (fun p' r' h' => ?_) h
            rcases List.mem_append.mp h' with hold | hnew
            · exact hseen p' r' hold
            · simp only [List.mem_singleton, Prod.mk.injEq] at hnew
              obtain ⟨rfl, rfl⟩ := hnew
              exact ⟨timestamp, hparse⟩

lemma safe_of_mem_pruneRow {cutoff : Int64} {statFails : Bool} {row : Row}
    (h : op ∈ pruneRow files cutoff statFails row) : Safe files op := by
  unfold pruneRow at h
  split at h
  · rename_i timestamp path hparse
    split at h
    · rename_i hold
      rw [List.mem_singleton.mp h]
      refine ⟨fun _ p hp => ?_, by simp⟩
      rw [hp.unique ⟨timestamp, hparse⟩]
      exact hold.2.2.2
    · simp at h
  · simp at h

end Batches

/-! ## Steps -/

namespace Inv

variable {s : State} {w : Nat}

variable {x : Worker} {ok : Bool}

variable (h : Inv s)

include h

lemma setWorker (hx : x.Safe s.files) : Inv (s.setWorker w x) := by
  refine ⟨h.added, fun y hy => ?_⟩
  rcases List.mem_or_eq_of_mem_set hy with hold | rfl
  · exact h.workers y hold
  · exact hx

lemma addWorker (hx : x.Safe s.files) : Inv { s with workers := s.workers ++ [x] } := by
  refine ⟨h.added, fun y hy => ?_⟩
  rcases List.mem_append.mp hy with hold | hnew
  · exact h.workers y hold
  · exact List.mem_singleton.mp hnew ▸ hx

lemma write {batch : List Staged} (hbatch : ∀ op ∈ batch, Safe s.files op) (ok : Bool) :
    Inv (s.write batch ok) := by
  unfold State.write
  split
  · exact ⟨fun path hp hf => queued_applyBatch hbatch hf (h.added path hp hf), h.workers⟩
  · exact h

lemma worker (hx : s.workers[w]? = some x) : x.Safe s.files :=
  h.workers x (List.mem_of_getElem? hx)

lemma add {filepath : Path} {now : Int64} : Inv (DeletionQueue.add s filepath now ok) := by
  unfold DeletionQueue.add
  split
  · refine ⟨fun path hp hf => ?_, h.workers⟩
    rcases List.mem_cons.mp hp with rfl | hold
    · exact ⟨_, List.mem_cons_self, names_make now _⟩
    · obtain ⟨row, hrow, hnames⟩ := h.added path hold hf
      exact ⟨row, List.mem_cons_of_mem _ hrow, hnames⟩
  · exact h

lemma tryDelete {i : Nat} {attempt : Attempt} {retryAt : Int64} :
    Inv (DeletionQueue.tryDelete s w i attempt retryAt) := by
  unfold DeletionQueue.tryDelete
  split
  · rename_i seen batch hw
    obtain ⟨hseen, hbatch⟩ := h.worker hw
    split
    · rename_i path queueKey hi
      have hnames : Names queueKey path := hseen path queueKey (List.mem_of_getElem? hi)
      have hrest : ∀ p r, (p, r) ∈ seen.eraseIdx i → Names r p :=
        fun p r hmem => hseen p r (List.mem_of_mem_eraseIdx hmem)
      have hrequeue : Inv (s.setWorker w (.processing (seen.eraseIdx i)
          (batch ++ [Staged.mk queueKey (some (makeDeletionQueueKey retryAt path))]))) := by
        refine h.setWorker ⟨hrest, fun op hop => ?_⟩
        rcases List.mem_append.mp hop with hold | hnew
        · exact hbatch op hold
        · rw [List.mem_singleton.mp hnew]
          refine ⟨by simp, fun row hrow p hp => ?_⟩
          obtain rfl := Option.some.inj hrow
          exact hnames.unique hp ▸ names_make retryAt path
      split
      · -- The file is gone from now on.
        have hfiles : ∀ p ∈ s.files.filter (· ≠ path), p ∈ s.files :=
          fun p hp => List.mem_of_mem_filter hp
        have hgone : Inv { s with files := s.files.filter (· ≠ path) } :=
          ⟨fun p hp hf => h.added p hp (hfiles p hf), fun x hx => (h.workers x hx).mono hfiles⟩
        refine hgone.setWorker ⟨hrest, fun op hop => ?_⟩
        rcases List.mem_append.mp hop with hold | hnew
        · exact (hbatch op hold).mono hfiles
        · rw [List.mem_singleton.mp hnew]
          refine ⟨fun _ p hp => ?_, by simp⟩
          rw [hp.unique hnames]
          simp
      all_goals exact hrequeue
    · exact h
  · exact h

lemma commit : Inv (DeletionQueue.commit s w ok) := by
  unfold DeletionQueue.commit
  split
  · rename_i batch hw
    exact (h.write (h.worker hw).2 ok).setWorker trivial
  · exact h

lemma pruneNext {statFails : Bool} : Inv (DeletionQueue.pruneNext s w statFails ok) := by
  unfold DeletionQueue.pruneNext
  split
  · rename_i cutoff row rows batch hw
    have hsafe : ∀ op ∈ batch ++ pruneRow s.files cutoff statFails row, Safe s.files op := by
      intro op hop
      rcases List.mem_append.mp hop with hold | hnew
      · exact h.worker hw op hold
      · exact safe_of_mem_pruneRow hnew
    dsimp only
    split
    · exact (h.write hsafe ok).setWorker (by simp [Worker.Safe])
    · exact h.setWorker hsafe
  · exact h

lemma pruneEnd : Inv (DeletionQueue.pruneEnd s w ok) := by
  unfold DeletionQueue.pruneEnd
  split
  · rename_i hw
    exact (h.write (h.worker hw) ok).setWorker trivial
  · exact h

end Inv

/-! ## Runs -/

lemma inv_init (files : List Path) : Inv (init files) := by
  constructor <;> simp [init]

lemma inv_step {s : State} {e : Event} (h : Inv s) : Inv (step s e) := by
  cases e with
  | add filepath now ok => exact h.add
  | processBatch batchSize now =>
    refine h.addWorker ⟨fun path row hmem => ?_, by simp⟩
    exact names_of_mem_collect (by simp) path row hmem
  | tryDelete w i attempt retryAt => exact h.tryDelete
  | commit w ok => exact h.commit
  | pruneOldEntries cutoff => exact h.addWorker (by simp [Worker.Safe])
  | pruneNext w statFails ok => exact h.pruneNext
  | pruneEnd w ok => exact h.pruneEnd
  | crash => exact ⟨h.added, by simp [step]⟩

/-- In every run, every path that was added and whose file exists has a row in the queue. -/
theorem row_of_added (files : List Path) (es : List Event) (path : Path)
    (hadded : path ∈ (run step (init files) es).added)
    (hexists : path ∈ (run step (init files) es).files) :
    ∃ row ∈ (run step (init files) es).rows, ∃ timestamp,
      parseDeletionQueueKey row = some (timestamp, path) := by
  have hI : Inv (run step (init files) es) :=
    invariant_run_of_forall (I := Inv) (fun _ _ hI => inv_step hI) (inv_init files) es
  exact hI.added path hadded hexists

/-- A path is added twice, its removal fails, the row that is queued again waits and the queue
crashes. -/
def retriedRun : List Event :=
  [.add [97] 5 true, .add [97] 7 true, .processBatch 10 8, .tryDelete 0 0 .locked 20, .commit 0 true,
    .processBatch 10 9, .tryDelete 1 0 .failed 20, .commit 1 true, .pruneOldEntries 100,
    .pruneNext 2 false true, .crash]

theorem row_of_added_retriedRun :
    ∃ row ∈ (run step (init [[97]]) retriedRun).rows, ∃ timestamp,
      parseDeletionQueueKey row = some (timestamp, [97]) :=
  row_of_added [[97]] retriedRun [97] (by decide +kernel) (by decide +kernel)

end OCache.DeletionQueue
