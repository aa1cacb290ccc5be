import OCache.Lib.EventSystem
import OCache.Merge.Operands
import OCache.SegmentFile.Format

/-!
# A pass of the recompactor, with every failure

`recompactSegment` goes over the entries of a closed segment and copies those that a row still
points at into an open one. One batch of merges at the end moves the rows. Any operation can fail:
some failures end the pass, the others are counted, and a pass that has counted one keeps the old
segment. Writers change rows at any point.

The segment that entries are copied to is a pointer. When it is full, `copyEntry` finalizes it and
puts what the manager hands out in its place, and that is no segment if the manager fails. The
manager itself is the subject of `Compaction.Capacity`; here it hands out any open segment.
-/

namespace OCache.Compaction.Recompact

open EventSystem SegmentFile Merge

/-! ## The pass -/

/-- The row points into the segment. -/
def InSegment (path : String) (row : ValueMessage) : Prop :=
  row.valueType = .segment ∧ row.segmentPath = path

/-- The row points at the entry of the segment. -/
def LiveAt (path : String) (entry : EntryInfo) (row : ValueMessage) : Prop :=
  InSegment path row ∧ row.segmentOffset = .ofNat entry.offset

instance (path : String) (row : ValueMessage) : Decidable (InSegment path row) :=
  inferInstanceAs (Decidable (_ ∧ _))

instance (path : String) (entry : EntryInfo) (row : ValueMessage) :
    Decidable (LiveAt path entry row) :=
  inferInstanceAs (Decidable (_ ∧ _))

/-- A segment that the manager hands out. It is open, so it is not the old one. -/
structure NewSegment (old : String) where
  path : String
  /-- The bytes written so far. -/
  size : Nat
  path_ne : path ≠ old

/-- How the pass ended. -/
inductive Return where
  | error
  /-- Some entry was not copied, the old segment is kept. -/
  | incomplete
  | removed
  /-- A `nil` segment was dereferenced. -/
  | panicked
deriving DecidableEq

/-- The next operation of the pass. -/
inductive Pc where
  | opening
  | acquiring
  | creatingIterator
  /-- The top of the loop. -/
  | reading
  | lookup (entry : EntryInfo)
  /-- `copyEntry` asks for the space that remains. -/
  | copying (entry : EntryInfo) (row : ValueMessage)
  | finalizing (entry : EntryInfo) (row : ValueMessage)
  | reacquiring (entry : EntryInfo) (row : ValueMessage)
  | writing (entry : EntryInfo) (row : ValueMessage)
  /-- The entry was written; its merge is marshalled. -/
  | marshalling (entry : EntryInfo) (row : ValueMessage) (path : String) (offset : Nat)
  /-- Behind the loop. -/
  | ending
  | syncing
  | committing
  | finishing
  | returned (r : Return)
deriving DecidableEq

/-- The rows, and what the pass has in its variables. -/
structure State (old : String) where
  rows : List UInt8 → Option ValueMessage
  pc : Pc
  newSeg : Option (NewSegment old)
  /-- The merges of the write batch. -/
  wb : List (List UInt8 × ValueMessage)
  failedEntries : Nat
  /-- The position of the iterator. -/
  currentPos : Nat

/-- A row of a `Put` or of a delete that leaves a tombstone. -/
structure Plain where
  row : ValueMessage
  valueType : row.valueType ≠ .segment
  opType : row.opType = .none

/-- The operand of a compare-and-swap call. -/
structure CasOperand where
  op : ValueMessage
  valueType : op.valueType ≠ .segment
  isCas : isCas op = true

/-- What writers do with a row. -/
inductive Write where
  | put (row : Plain)
  | delete
  | cas (op : CasOperand)

/-- What the environment decides in a step of the pass. -/
structure Outcome (old : String) where
  /-- The operation fails. -/
  fails : Bool := false
  /-- A failed `Finalize` had counted the footer. -/
  footer : Bool := false
  /-- `ctx.Err() != nil` -/
  cancelled : Bool := false
  /-- What the manager hands out, if it does. -/
  acquired : Option (NewSegment old) := none

inductive Event (old : String) where
  | write (key : List UInt8) (w : Write)
  | pass (o : Outcome old)

/-- The row after a write. -/
def Write.apply : Write → Option ValueMessage → Option ValueMessage
  | .put row, _ => some row.row
  | .delete, _ => none
  | .cas op, row => some (mergeRow row [op.op])

/-- The rows after the merges of a batch. -/
def mergeBatch (rows : List UInt8 → Option ValueMessage) :
    List (List UInt8 × ValueMessage) → List UInt8 → Option ValueMessage
  | [] => rows
  | (key, op) :: wb => mergeBatch (Function.update rows key (some (mergeRow (rows key) [op]))) wb

namespace State

variable {old : String} (s : State old)

/-- An entry that was not copied. -/
def fail : State old := { s with pc := .reading, failedEntries := s.failedEntries + 1 }

@[simp] def goto (pc : Pc) : State old := { s with pc := pc }

end State

section Steps

variable {old : String} (bytes : List UInt8) (segmentSize : Nat)

/-- The space an entry takes, `totalNeeded`. -/
def totalNeeded (entry : EntryInfo) : Nat := entry.headerSize + entry.valueLength

/-- One operation of `recompactSegment` or `copyEntry`, on the file of the old segment. -/
def advance (s : State old) (o : Outcome old) : State old :=
  match s.pc with
  | .opening => s.goto (if o.fails then .returned .error else .acquiring)
  | .acquiring =>
    match o.acquired with
    | none => s.goto (.returned .error)
    | some seg => { s with newSeg := some seg, pc := .creatingIterator }
  | .creatingIterator => s.goto (if o.fails then .returned .error else .reading)
  | .reading =>
    if o.cancelled then s.goto (.returned .error)
    -- A read error hides the rest of the segment.
    else if o.fails then { s.fail with pc := .ending }
    else
      match next bytes s.currentPos with
      | .error .eof => s.goto .ending
      | .error _ => { s.fail with pc := .ending }
      | .ok (entry, pos) => { s with currentPos := pos, pc := .lookup entry }
  | .lookup entry =>
    if o.fails then s.fail
    else
      match s.rows entry.key with
      | none => s.goto .reading
      | some row => s.goto (if LiveAt old entry row then .copying entry row else .reading)
  | .copying entry row =>
    match s.newSeg with
    | none => s.goto (.returned .panicked)
    | some seg =>
      s.goto (if (segmentSize : Int) - seg.size < totalNeeded entry then .finalizing entry row
        else .writing entry row)
  | .finalizing entry row =>
    if o.fails then
      { s.fail with
        newSeg := s.newSeg.map fun seg =>
          if o.footer then { seg with size := seg.size + segmentFooterSize } else seg }
    else s.goto (.reacquiring entry row)
  | .reacquiring entry row =>
    match o.acquired with
    -- `*newSeg, err = …` has set the pointer to nil.
    | none => { s.fail with newSeg := none }
    | some seg => { s with newSeg := some seg, pc := .writing entry row }
  | .writing entry row =>
    match s.newSeg with
    | none => s.goto (.returned .panicked)
    | some seg =>
      if o.fails then s.fail
      else
        { s with
          newSeg := some { seg with size := seg.size + totalNeeded entry }
          pc := .marshalling entry row seg.path seg.size }
  | .marshalling entry row path offset =>
    if o.fails then s.fail
    else
      { s with
        wb := s.wb ++ [(entry.key, recompactionOperand row path (.ofNat offset))]
        pc := .reading }
  | .ending => s.goto (if s.wb = [] then .finishing else .syncing)
  | .syncing =>
    match s.newSeg with
    | none => s.goto (.returned .panicked)
    | some _ => s.goto (if o.fails then .returned .error else .committing)
  | .committing =>
    if o.fails then s.goto (.returned .error)
    else { s with rows := mergeBatch s.rows s.wb, pc := .finishing }
  | .finishing => s.goto (.returned (if 0 < s.failedEntries then .incomplete else .removed))
  | .returned _ => s

/-- A write of a row, or an operation of the pass. -/
def step (s : State old) : Event old → State old
  | .write key w => { s with rows := Function.update s.rows key (w.apply (s.rows key)) }
  | .pass o => advance bytes segmentSize s o

end Steps

/-- A pass that is about to start. -/
def start (old : String) (rows : List UInt8 → Option ValueMessage) : State old where
  rows := rows
  pc := .opening
  newSeg := none
  wb := []
  failedEntries := 0
  currentPos := 0

/-- The file of a closed segment is as it was written, and the rows are as the store writes them:
those that point into the segment point at an entry of their key. -/
structure Intact (old : String) (bytes : List UInt8) (entries : List Written)
    (rows : List UInt8 → Option ValueMessage) : Prop where
  path : old ≠ ""
  file : ∃ version count dataBytes,
    bytes = encodeAll entries ++ buildSegmentFooterWithVersion version count dataBytes
  placed : Placed 0 entries
  opType : ∀ key row, rows key = some row → row.opType = .none
  points : ∀ key row, rows key = some row → InSegment old row →
    ∃ w ∈ entries, w.key = key ∧ LiveAt old w.info row

/-! ## Rows -/

section Rows

variable {old : String} {rows : List UInt8 → Option ValueMessage} {row : ValueMessage}

variable {base : Option ValueMessage}

/-- A write leaves rows in a segment only where they were. -/
theorem Write.apply_inSegment (w : Write) (h : w.apply base = some row) (hin : InSegment old row) :
    base = some row := by
  cases w with
  | put p =>
    obtain rfl := Option.some.inj h
    exact absurd hin.1 p.valueType
  | delete => simp [Write.apply] at h
  | cas c =>
    obtain rfl := Option.some.inj h
    rw [mergeRow_cas c.isCas] at hin ⊢
    split at hin
    · have htype : (casResult c.op).valueType ≠ .segment := by
        unfold casResult
        split
        · exact c.valueType
        · simp [tombstone]
      exact absurd hin.1 htype
    · rename_i happ
      rw [if_neg happ]
      cases hbase : baseOf base with
      | none =>
        rw [hbase] at hin
        simp [InSegment, tombstone] at hin
      | some b => exact eq_some_of_baseOf hbase

lemma Write.apply_opType (w : Write) (hbase : ∀ b, base = some b → b.opType = .none)
    (h : w.apply base = some row) : row.opType = .none := by
  cases w with
  | put p =>
    obtain rfl := Option.some.inj h
    exact p.opType
  | delete => simp [Write.apply] at h
  | cas c =>
    obtain rfl := Option.some.inj h
    rw [mergeRow_cas c.isCas]
    split
    · exact casResult_opType
    · cases hb : baseOf base with
      | none => rfl
      | some b => exact hbase b (eq_some_of_baseOf hb)

/-- A merge of the pass: it takes a row out of the old segment. -/
structure Moves (old : String) (op : ValueMessage) : Prop where
  background : Background op
  valueType : op.valueType = .segment
  source : op.rawFilePath = old
  target : op.segmentPath ≠ old

lemma moves_recompactionOperand {path : String} {offset : Int64} (hold : old ≠ "")
    (hin : InSegment old row) (hop : row.opType = .none) (hpath : path ≠ old) :
    Moves old (recompactionOperand row path offset) :=
  ⟨⟨hop, by simpa [recompactionOperand, hin.2] using hold, .inl hin.1⟩, hin.1, hin.2, hpath⟩

/-- After a merge of the pass the row is not in the old segment. -/
theorem Moves.not_inSegment {op : ValueMessage} (h : Moves old op) (base : Option ValueMessage) :
    ¬InSegment old (mergeRow base [op]) := by
  intro hin
  rcases mergeRow_background h.background base with htomb | hkept | ⟨-, b, -, -, hmoved⟩
  · rw [htomb] at hin
    simp [InSegment, tombstone] at hin
  · -- A row that stays is not at the old path, or it would have been moved.
    have hmatch : pathMatches (mergeRow base [op]) op = true := by
      simp [pathMatches, hin.1, hin.2, h.source]
    have hmoved := mergeRow_of_pathMatches h.background h.valueType hmatch
    rw [← hkept] at hmoved
    rw [hmoved] at hin
    exact h.target hin.2
  · rw [hmoved] at hin
    exact h.target hin.2

/-- The rows that are still in the old segment after a batch are those without a merge in it. -/
theorem mergeBatch_inSegment {wb : List (List UInt8 × ValueMessage)}
    (hwb : ∀ key op, (key, op) ∈ wb → Moves old op) {key : List UInt8}
    (h : mergeBatch rows wb key = some row) (hin : InSegment old row) :
    rows key = some row ∧ ∀ op, (key, op) ∉ wb := by
  induction wb generalizing rows with
  | nil => exact ⟨h, fun op => List.not_mem_nil⟩
  | cons e wb ih =>
    obtain ⟨k, op⟩ := e
    obtain ⟨hrow, hnot⟩ := ih (fun key op hmem => hwb key op (List.mem_cons_of_mem _ hmem)) h
    have hk : key ≠ k := by
      rintro rfl
      rw [Function.update_self] at hrow
      rw [← Option.some.inj hrow] at hin
      exact (hwb _ _ List.mem_cons_self).not_inSegment _ hin
    rw [Function.update_of_ne hk] at hrow
    refine ⟨hrow, fun op' hmem => ?_⟩
    rcases List.mem_cons.mp hmem with heq | hlater
    · exact hk (Prod.mk.inj heq).1
    · exact hnot op' hlater

end Rows

/-! ## The invariant -/

namespace Pc

/-- The entry that is worked on. -/
@[simp] def current : Pc → Option EntryInfo
  | lookup entry | copying entry _ | finalizing entry _ | reacquiring entry _ | writing entry _
  | marshalling entry .. => some entry
  | _ => none

/-- The row that points at the entry. -/
@[simp] def row : Pc → Option ValueMessage
  | copying _ row | finalizing _ row | reacquiring _ row | writing _ row | marshalling _ row .. =>
    some row
  | _ => none

/-- The segment that the entry was copied to. -/
@[simp] def target : Pc → Option String
  | marshalling _ _ path _ => some path
  | _ => none

/-- The batch is not committed yet. -/
@[simp] def scanning : Pc → Bool
  | finishing | returned _ => false
  | _ => true

/-- The loop is over. -/
@[simp] def past : Pc → Bool
  | ending | syncing | committing => true
  | _ => false

end Pc

/-- The entries from a position of the file on. -/
def Ahead (entries : List Written) (pos : Nat) (rest : List Written) : Prop :=
  ∃ before, entries = before ++ rest ∧ pos = (encodeAll before).length

/-- Every row in the old segment is at an entry ahead or at the current one, or has a merge in the
batch. -/
def Covered {old : String} (s : State old) (rest : List Written) : Prop :=
  ∀ key row, s.rows key = some row → InSegment old row →
    (∃ w ∈ rest, w.key = key ∧ LiveAt old w.info row) ∨
      (∃ entry, s.pc.current = some entry ∧ entry.key = key ∧ LiveAt old entry row) ∨
        ∃ op, (key, op) ∈ s.wb

/-- No row points into the old segment. -/
def Emptied {old : String} (s : State old) : Prop :=
  ∀ key row, s.rows key = some row → ¬InSegment old row

structure Inv {old : String} (entries : List Written) (s : State old) : Prop where
  wb : ∀ key op, (key, op) ∈ s.wb → Moves old op
  opType : s.pc.scanning = true → ∀ key row, s.rows key = some row → row.opType = .none
  row : ∀ row, s.pc.row = some row → InSegment old row ∧ row.opType = .none
  target : ∀ path, s.pc.target = some path → path ≠ old
  covered : s.pc.scanning = true → s.failedEntries = 0 →
    ∃ rest, Ahead entries s.currentPos rest ∧ (s.pc.past = true → rest = []) ∧ Covered s rest
  emptied : (s.pc = .finishing ∧ s.failedEntries = 0) ∨ s.pc = .returned .removed → Emptied s

section Invariant

variable {old : String} {bytes : List UInt8} {entries : List Written} {segmentSize : Nat}
  {rows : List UInt8 → Option ValueMessage} {s : State old} {pc : Pc}

lemma Intact.inv (h : Intact old bytes entries rows) : Inv entries (start old rows) where
  wb := by simp [start]
  opType _ := h.opType
  row := by simp [start]
  target := by simp [start]
  covered _ _ := ⟨entries, ⟨[], rfl, rfl⟩, by simp [start], fun key row hrow hin =>
    .inl (h.points key row hrow hin)⟩
  emptied := by simp [start]

/-- The iterator yields the first of the entries ahead, and nothing behind the last. -/
theorem Ahead.next_cases {rest : List Written} {pos : Nat} (h : Ahead entries pos rest)
    (hintact : Intact old bytes entries rows) :
    (rest = [] ∧ ∃ e, next bytes pos = .error e) ∨
      ∃ w rest', rest = w :: rest' ∧ next bytes pos = .ok (w.info, pos + w.encode.length) ∧
        Ahead entries (pos + w.encode.length) rest' := by
  obtain ⟨before, rfl, rfl⟩ := h
  obtain ⟨version, count, dataBytes, rfl⟩ := hintact.file
  cases rest with
  | nil =>
    rw [List.append_nil]
    exact .inl ⟨rfl, next_of_unread (encodeAll before)
      (.inl (length_buildSegmentFooter version count dataBytes).le)⟩
  | cons w rest =>
    have hoffset : w.offset = (encodeAll before).length := by
      simpa using (placed_append.mp hintact.placed).2.1
    have hyield := next_encode (encodeAll before)
      (encodeAll rest ++ buildSegmentFooterWithVersion version count dataBytes) w hoffset
    rw [encodeAll_append, encodeAll_cons, List.append_assoc, List.append_assoc]
    exact .inr ⟨w, rest, rfl, hyield, before ++ [w], by simp, by simp⟩

/-- An operation of the pass that does not change what the invariant is about. -/
structure Follows (pc pc' : Pc) : Prop where
  before : pc.scanning = true
  after : pc'.scanning = true
  current : pc'.current = pc.current
  row : pc'.row = pc.row
  past : pc'.past = true → pc.past = true

/-- How many operations there are at most between here and the next reading, or the end. -/
@[simp] def Pc.rank : Pc → Nat
  | lookup _ => 11
  | copying .. => 10
  | finalizing .. => 9
  | reacquiring .. => 8
  | opening => 8
  | writing .. => 7
  | acquiring => 7
  | marshalling .. => 6
  | creatingIterator => 6
  | reading => 5
  | ending => 4
  | syncing => 3
  | committing => 2
  | finishing => 1
  | returned _ => 0

/-- The operations that have a segment. -/
@[simp] def Pc.holds : Pc → Bool
  | copying .. | finalizing .. | reacquiring .. | writing .. | marshalling .. | syncing
  | committing => true
  | _ => false

/-- What an operation of the pass can do. -/
inductive Moved (bytes : List UInt8) (o : Outcome old) (s : State old) : State old → Prop
  /-- The pass returns and keeps the old segment. It panics where a segment is needed and
  missing. -/
  | returned (r : Return) (hr : r ≠ .removed) (hrank : s.pc.rank ≠ 0)
      (hpanic : r = .panicked → s.pc.holds = true ∧ s.newSeg = none) :
      Moved bytes o s (s.goto (.returned r))
  /-- It goes on with the same entry, or with none if there was none. -/
  | goes (pc : Pc) (seg : Option (NewSegment old)) (hfollows : Follows s.pc pc)
      (htarget : ∀ path, pc.target = some path → path ≠ old) (hrank : pc.rank < s.pc.rank)
      (hseg : seg = none → s.newSeg = none)
      (hholds : pc.holds = true → seg = none → s.pc.holds = true ∨ s.wb ≠ []) :
      Moved bytes o s { s with pc := pc, newSeg := seg }
  | failed (pc : Pc) (seg : Option (NewSegment old)) (hscan : s.pc.scanning = true)
      (hpc : pc = .reading ∨ pc = .ending) (hrank : pc.rank < s.pc.rank)
      (hseg : seg = none → s.newSeg = none) :
      Moved bytes o s { s.fail with pc := pc, newSeg := seg }
  /-- The manager has not handed out another segment. -/
  | lost (entry : EntryInfo) (row : ValueMessage) (hpc : s.pc = .reacquiring entry row)
      (hacquired : o.acquired = none) : Moved bytes o s { s.fail with newSeg := none }
  | read (entry : EntryInfo) (pos : Nat) (hpc : s.pc = .reading)
      (hnext : next bytes s.currentPos = .ok (entry, pos)) :
      Moved bytes o s { s with currentPos := pos, pc := .lookup entry }
  | eof (e : HeaderError) (hpc : s.pc = .reading) (hnext : next bytes s.currentPos = .error e) :
      Moved bytes o s (s.goto .ending)
  | skip (entry : EntryInfo) (hpc : s.pc = .lookup entry)
      (hdead : ∀ row, s.rows entry.key = some row → ¬LiveAt old entry row) :
      Moved bytes o s (s.goto .reading)
  | live (entry : EntryInfo) (row : ValueMessage) (hpc : s.pc = .lookup entry) (hok : o.fails = false)
      (hrow : s.rows entry.key = some row) (hlive : LiveAt old entry row) :
      Moved bytes o s (s.goto (.copying entry row))
  | staged (entry : EntryInfo) (row : ValueMessage) (path : String) (offset : Nat)
      (hpc : s.pc = .marshalling entry row path offset) :
      Moved bytes o s { s with
        wb := s.wb ++ [(entry.key, recompactionOperand row path (.ofNat offset))], pc := .reading }
  /-- The batch is empty or committed. -/
  | finishing (rows : List UInt8 → Option ValueMessage)
      (hpc : (s.pc = .ending ∧ s.wb = [] ∧ rows = s.rows) ∨
        (s.pc = .committing ∧ rows = mergeBatch s.rows s.wb)) :
      Moved bytes o s { s with rows := rows, pc := .finishing }
  | removed (hpc : s.pc = .finishing) (hzero : s.failedEntries = 0) :
      Moved bytes o s (s.goto (.returned .removed))
  | idle (r : Return) (hpc : s.pc = .returned r) : Moved bytes o s s

section Moved

variable {o : Outcome old}

lemma Moved.goto (hpc : s.pc = pc) (pc' : Pc) (hfollows : Follows pc pc')
    (htarget : pc'.target = none) (hrank : pc'.rank < pc.rank)
    (hholds : pc'.holds = true → pc.holds = true ∨ s.wb ≠ []) : Moved bytes o s (s.goto pc') := by
  subst hpc
  exact .goes pc' s.newSeg hfollows (by rw [htarget]; simp) hrank id fun h _ => hholds h

lemma Moved.fail (hpc : s.pc = pc) (hscan : pc.scanning = true) (hrank : 5 < pc.rank) :
    Moved bytes o s s.fail :=
  .failed .reading s.newSeg (hpc ▸ hscan) (.inl rfl) (hpc ▸ hrank) id

lemma Moved.error (hpc : s.pc = pc) (hrank : pc.rank ≠ 0) :
    Moved bytes o s (s.goto (.returned .error)) :=
  .returned .error (by simp) (hpc ▸ hrank) (by simp)

/-- The pass needs a segment and has none. -/
theorem Moved.panics (hpc : s.pc = pc) (hholds : pc.holds = true) (hnone : s.newSeg = none) :
    Moved bytes o s (s.goto (.returned .panicked)) := by
  subst hpc
  refine .returned .panicked (by simp) (fun hrank => ?_) fun _ => ⟨hholds, hnone⟩
  cases h : s.pc <;> simp [h] at hholds hrank

/-- Every operation in this state is among those of `Moved`. -/
def Moving (bytes : List UInt8) (segmentSize : Nat) (s : State old) : Prop :=
  ∀ o, Moved bytes o s (advance bytes segmentSize s o)

/-! What is done before the loop. -/

lemma moving_opening (hpc : s.pc = .opening) : Moving bytes segmentSize s := by
  intro o
  simp only [advance, hpc]
  split
  · exact .error hpc (by simp)
  · exact .goto hpc _ ⟨rfl, rfl, rfl, rfl, by simp⟩ rfl (by simp) (by simp)

lemma moving_acquiring (hpc : s.pc = .acquiring) : Moving bytes segmentSize s := by
  intro o
  simp only [advance, hpc]
  split
  · exact .error hpc (by simp)
  · exact .goes _ _ (hpc ▸ ⟨rfl, rfl, rfl, rfl, by simp⟩) (by simp) (by simp [hpc]) (by simp) (by simp)

lemma moving_creatingIterator (hpc : s.pc = .creatingIterator) : Moving bytes segmentSize s := by
  intro o
  simp only [advance, hpc]
  split
  · exact .error hpc (by simp)
  · exact .goto hpc _ ⟨rfl, rfl, rfl, rfl, by simp⟩ rfl (by simp) (by simp)

/-! The loop, with `copyEntry`. -/

lemma moving_reading (hpc : s.pc = .reading) : Moving bytes segmentSize s := by
  intro o
  have hending : Moved bytes o s { s.fail with pc := .ending } :=
    .failed .ending s.newSeg (by simp [hpc]) (.inr rfl) (by simp [hpc]) id
  simp only [advance, hpc]
  split
  · exact .error hpc (by simp)
  · split
    · exact hending
    · split
      · exact .eof _ hpc ‹_›
      · exact hending
      · exact .read _ _ hpc ‹_›

variable {entry : EntryInfo} {row : ValueMessage}

lemma moving_lookup (hpc : s.pc = .lookup entry) : Moving bytes segmentSize s := by
  intro o
  simp only [advance, hpc]
  split
  · exact .fail hpc rfl (by simp)
  · rename_i hok
    split
    · rename_i hnone
      exact .skip entry hpc (by simp [hnone])
    · rename_i row hrow
      split
      · exact .live entry row hpc (by simpa using hok) hrow ‹_›
      · rename_i hdead
        exact .skip entry hpc (by simpa [hrow] using hdead)

lemma moving_copying (hpc : s.pc = .copying entry row) : Moving bytes segmentSize s := by
  intro o
  simp only [advance, hpc]
  split
  · exact .panics hpc rfl ‹_›
  · split
    all_goals exact .goto hpc _ ⟨rfl, rfl, rfl, rfl, by simp⟩ rfl (by simp) fun _ => .inl rfl

lemma moving_finalizing (hpc : s.pc = .finalizing entry row) : Moving bytes segmentSize s := by
  intro o
  simp only [advance, hpc]
  split
  · exact .failed .reading _ (by simp [hpc]) (.inl rfl) (by simp [hpc]) Option.map_eq_none_iff.mp
  · exact .goto hpc _ ⟨rfl, rfl, rfl, rfl, by simp⟩ rfl (by simp) fun _ => .inl rfl

lemma moving_reacquiring (hpc : s.pc = .reacquiring entry row) : Moving bytes segmentSize s := by
  intro o
  simp only [advance, hpc]
  split
  · exact .lost entry row hpc ‹_›
  · exact .goes _ _ (hpc ▸ ⟨rfl, rfl, rfl, rfl, by simp⟩) (by simp) (by simp [hpc]) (by simp) (by simp)

lemma moving_writing (hpc : s.pc = .writing entry row) : Moving bytes segmentSize s := by
  intro o
  simp only [advance, hpc]
  split
  · exact .panics hpc rfl ‹_›
  · rename_i seg hseg
    split
    · exact .fail hpc rfl (by simp)
    · refine .goes _ _ (hpc ▸ ⟨rfl, rfl, rfl, rfl, by simp⟩) (fun path htarget => ?_)
        (by simp [hpc]) (by simp) (by simp)
      rw [← Option.some.inj htarget]
      exact seg.path_ne

lemma moving_marshalling {path : String} {offset : Nat}
    (hpc : s.pc = .marshalling entry row path offset) : Moving bytes segmentSize s := by
  intro o
  simp only [advance, hpc]
  split
  · exact .fail hpc rfl (by simp)
  · exact .staged entry row path offset hpc

/-! What is done behind the loop. -/

lemma moving_ending (hpc : s.pc = .ending) : Moving bytes segmentSize s := by
  intro o
  simp only [advance, hpc]
  split
  · exact .finishing s.rows (.inl ⟨hpc, ‹_›, rfl⟩)
  · exact .goto hpc _ ⟨rfl, rfl, rfl, rfl, fun _ => rfl⟩ rfl (by simp) fun _ => .inr ‹_›

lemma moving_syncing (hpc : s.pc = .syncing) : Moving bytes segmentSize s := by
  intro o
  simp only [advance, hpc]
  split
  · exact .panics hpc rfl ‹_›
  · split
    · exact .error hpc (by simp)
    · exact .goto hpc _ ⟨rfl, rfl, rfl, rfl, fun _ => rfl⟩ rfl (by simp) fun _ => .inl rfl

lemma moving_committing (hpc : s.pc = .committing) : Moving bytes segmentSize s := by
  intro o
  simp only [advance, hpc]
  split
  · exact .error hpc (by simp)
  · exact .finishing _ (.inr ⟨hpc, rfl⟩)

lemma moving_finishing (hpc : s.pc = .finishing) : Moving bytes segmentSize s := by
  intro o
  simp only [advance, hpc]
  split
  · exact .returned .incomplete (by simp) (by simp [hpc]) (by simp)
  · rename_i hzero
    exact .removed hpc (Nat.eq_zero_of_not_pos hzero)

/-- What an operation of the pass does is among the cases of `Moved`. -/
theorem moved_advance (s : State old) (o : Outcome old) :
    Moved bytes o s (advance bytes segmentSize s o) := by
  cases hpc : s.pc with
  | opening => exact moving_opening hpc o
  | acquiring => exact moving_acquiring hpc o
  | creatingIterator => exact moving_creatingIterator hpc o
  | reading => exact moving_reading hpc o
  | lookup entry => exact moving_lookup hpc o
  | copying entry row => exact moving_copying hpc o
  | finalizing entry row => exact moving_finalizing hpc o
  | reacquiring entry row => exact moving_reacquiring hpc o
  | writing entry row => exact moving_writing hpc o
  | marshalling entry row path offset => exact moving_marshalling hpc o
  | ending => exact moving_ending hpc o
  | syncing => exact moving_syncing hpc o
  | committing => exact moving_committing hpc o
  | finishing => exact moving_finishing hpc o
  | returned r =>
    simp only [advance, hpc]
    exact .idle r hpc

end Moved

namespace Inv

variable (h : Inv entries s)

include h

/-- A write takes rows out of the old segment and brings none in. -/
theorem write (key : List UInt8) (w : Write) :
    Inv entries { s with rows := Function.update s.rows key (w.apply (s.rows key)) } := by
  have hrows : ∀ k row, Function.update s.rows key (w.apply (s.rows key)) k = some row →
      InSegment old row → s.rows k = some row := by
    intro k row hrow hin
    by_cases hk : k = key
    · subst hk
      rw [Function.update_self] at hrow
      exact w.apply_inSegment hrow hin
    · rwa [Function.update_of_ne hk] at hrow
  refine ⟨h.wb, ?_, h.row, h.target, ?_, ?_⟩
  · intro hscan k row hrow
    dsimp only at hrow
    by_cases hk : k = key
    · subst hk
      rw [Function.update_self] at hrow
      exact w.apply_opType (h.opType hscan k) hrow
    · exact h.opType hscan k row (by rwa [Function.update_of_ne hk] at hrow)
  · intro hscan hfailed
    obtain ⟨rest, hahead, hpast, hcovered⟩ := h.covered hscan hfailed
    exact ⟨rest, hahead, hpast, fun k row hrow hin => hcovered k row (hrows k row hrow hin) hin⟩
  · intro hpc k row hrow hin
    exact h.emptied hpc k row (hrows k row hrow hin) hin

/-- The pass goes on with the same entry, or with none if there was none. -/
theorem goes (seg : Option (NewSegment old)) (hfollows : Follows s.pc pc)
    (htarget : ∀ path, pc.target = some path → path ≠ old) :
    Inv entries { s with pc := pc, newSeg := seg } where
  wb := h.wb
  opType _ := h.opType hfollows.before
  row := hfollows.row ▸ h.row
  target := htarget
  covered _ hzero := by
    obtain ⟨rest, hahead, hrest, hcovered⟩ := h.covered hfollows.before hzero
    refine ⟨rest, hahead, fun hpast => hrest (hfollows.past hpast), ?_⟩
    simpa only [Covered, hfollows.current] using hcovered
  emptied hpc := by
    have hscan := hfollows.after
    rcases hpc with ⟨rfl, -⟩ | rfl <;> simp at hscan

/-- A failure was counted, so the pass will not remove the segment. -/
theorem failed (seg : Option (NewSegment old)) (hscan : s.pc.scanning = true)
    (hpc : pc = .reading ∨ pc = .ending) : Inv entries { s.fail with pc := pc, newSeg := seg } := by
  rcases hpc with rfl | rfl
  all_goals
    exact ⟨h.wb, fun _ => h.opType hscan, by simp, by simp, by simp [State.fail], by simp⟩

/-- The pass returns without removing the segment. -/
theorem returned {r : Return} (hr : r ≠ .removed) : Inv entries (s.goto (.returned r)) where
  wb := h.wb
  opType hscan := by simp at hscan
  row := by simp
  target := by simp
  covered hscan := by simp at hscan
  emptied hpc := by simp [hr] at hpc

variable {entry : EntryInfo} {row : ValueMessage}

/-- The entry was read and is in none of the rows any more. -/
theorem skip (hpc : s.pc = .lookup entry)
    (hdead : ∀ row, s.rows entry.key = some row → ¬LiveAt old entry row) :
    Inv entries (s.goto .reading) where
  wb := h.wb
  opType _ := h.opType (by simp [hpc])
  row := by simp
  target := by simp
  covered _ hzero := by
    obtain ⟨rest, hahead, -, hcovered⟩ := h.covered (by simp [hpc]) hzero
    refine ⟨rest, hahead, by simp, fun key row hrow hin => ?_⟩
    rcases hcovered key row hrow hin with hrest | ⟨e, he, rfl, hlive⟩ | hstaged
    · exact .inl hrest
    · rw [hpc, Pc.current, Option.some.injEq] at he
      subst he
      exact absurd hlive (hdead row hrow)
    · exact .inr (.inr hstaged)
  emptied := by simp

/-- The row points at the entry. -/
theorem live (hpc : s.pc = .lookup entry) (hrow : s.rows entry.key = some row)
    (hlive : LiveAt old entry row) : Inv entries (s.goto (.copying entry row)) where
  wb := h.wb
  opType _ := h.opType (by simp [hpc])
  row r hr := by
    obtain rfl : row = r := by simpa using hr
    exact ⟨hlive.1, h.opType (by simp [hpc]) _ _ hrow⟩
  target := by simp
  covered _ hzero := by
    obtain ⟨rest, hahead, -, hcovered⟩ := h.covered (by simp [hpc]) hzero
    refine ⟨rest, hahead, by simp, ?_⟩
    simpa only [Covered, hpc, State.goto, Pc.current] using hcovered
  emptied := by simp

/-- The entry was copied and its merge is in the batch. -/
theorem staged (hold : old ≠ "") {path : String} {offset : Nat}
    (hpc : s.pc = .marshalling entry row path offset) :
    Inv entries { s with
      wb := s.wb ++ [(entry.key, recompactionOperand row path (.ofNat offset))]
      pc := .reading } := by
  obtain ⟨hin, hop⟩ := h.row row (by rw [hpc, Pc.row])
  have hpath : path ≠ old := h.target path (by rw [hpc, Pc.target])
  refine ⟨?_, fun _ => h.opType (by simp [hpc]), by simp, by simp,
    fun _ hzero => ?_, by simp⟩
  · intro key op hmem
    rcases List.mem_append.mp hmem with hbefore | hlast
    · exact h.wb key op hbefore
    · obtain ⟨-, rfl⟩ := Prod.mk.inj (List.mem_singleton.mp hlast)
      exact moves_recompactionOperand hold hin hop hpath
  · obtain ⟨rest, hahead, -, hcovered⟩ := h.covered (by simp [hpc]) hzero
    refine ⟨rest, hahead, by simp, fun key row' hrow' hin' => ?_⟩
    -- The rows of the entry at hand are now covered by the batch.
    rcases hcovered key row' hrow' hin' with hrest | ⟨e, he, rfl, -⟩ | ⟨op, hmem⟩
    · exact .inl hrest
    · rw [hpc, Pc.current, Option.some.injEq] at he
      subst he
      exact .inr (.inr ⟨_, List.mem_append_right _ (List.mem_singleton.mpr rfl)⟩)
    · exact .inr (.inr ⟨op, List.mem_append_left _ hmem⟩)

/-- The next entry was read. -/
theorem read (hintact : Intact old bytes entries rows) (hpc : s.pc = .reading) {pos : Nat}
    (hnext : next bytes s.currentPos = .ok (entry, pos)) :
    Inv entries { s with currentPos := pos, pc := .lookup entry } where
  wb := h.wb
  opType _ := h.opType (by simp [hpc])
  row := by simp
  target := by simp
  covered _ hzero := by
    obtain ⟨rest, hahead, -, hcovered⟩ := h.covered (by simp [hpc]) hzero
    obtain ⟨-, e, he⟩ | ⟨w, rest, rfl, hyield, hahead⟩ := hahead.next_cases hintact
    · rw [he] at hnext
      cases hnext
    rw [hyield] at hnext
    obtain ⟨rfl, rfl⟩ := Prod.mk.inj (Except.ok.inj hnext)
    refine ⟨rest, hahead, by simp, fun key row hrow hin => ?_⟩
    -- The first entry that was ahead is the one at hand now.
    rcases hcovered key row hrow hin with ⟨w', hmem, hkey, hlive⟩ | ⟨e, he, -⟩ | hstaged
    · rcases List.mem_cons.mp hmem with rfl | hlater
      · exact .inr (.inl ⟨_, rfl, hkey, hlive⟩)
      · exact .inl ⟨w', hlater, hkey, hlive⟩
    · simp [hpc] at he
    · exact .inr (.inr hstaged)
  emptied := by simp

/-- The iterator has reached the end of the file. -/
theorem eof (hintact : Intact old bytes entries rows) (hpc : s.pc = .reading) {e : HeaderError}
    (hnext : next bytes s.currentPos = .error e) : Inv entries (s.goto .ending) where
  wb := h.wb
  opType _ := h.opType (by simp [hpc])
  row := by simp
  target := by simp
  covered _ hzero := by
    obtain ⟨rest, hahead, -, hcovered⟩ := h.covered (by simp [hpc]) hzero
    obtain ⟨rfl, -⟩ | ⟨w, rest, rfl, hyield, -⟩ := hahead.next_cases hintact
    · refine ⟨[], hahead, fun _ => rfl, ?_⟩
      simpa only [Covered, hpc, State.goto, Pc.current] using hcovered
    · rw [hyield] at hnext
      cases hnext
  emptied := by simp

/-- At the end of the loop every row in the old segment has a merge in the batch. -/
theorem staged_of_past (hpast : s.pc.past = true) (hzero : s.failedEntries = 0) {key : List UInt8}
    (hrow : s.rows key = some row) (hin : InSegment old row) : ∃ op, (key, op) ∈ s.wb := by
  have hscan : s.pc.scanning = true ∧ s.pc.current = none := by
    cases hpc : s.pc <;> simp_all
  obtain ⟨rest, -, hrest, hcovered⟩ := h.covered hscan.1 hzero
  obtain rfl := hrest hpast
  rcases hcovered key row hrow hin with ⟨w, hmem, -⟩ | ⟨e, he, -⟩ | hstaged
  · simp at hmem
  · cases hscan.2.symm.trans he
  · exact hstaged

/-- The rows are moved, or there were none to move. -/
theorem finishing {rows' : List UInt8 → Option ValueMessage}
    (hempty : s.failedEntries = 0 → ∀ key row, rows' key = some row → ¬InSegment old row) :
    Inv entries { s with rows := rows', pc := .finishing } where
  wb := h.wb
  opType hscan := by simp at hscan
  row := by simp
  target := by simp
  covered hscan := by simp at hscan
  emptied hpc := hempty (by simpa using hpc)

lemma removed (hpc : s.pc = .finishing) (hzero : s.failedEntries = 0) :
    Inv entries (s.goto (.returned .removed)) where
  wb := h.wb
  opType hscan := by simp at hscan
  row := by simp
  target := by simp
  covered hscan := by simp at hscan
  emptied _ := h.emptied (.inl ⟨hpc, hzero⟩)

end Inv

/-- An operation of the pass keeps the invariant. -/
theorem inv_advance (h : Inv entries s) (hintact : Intact old bytes entries rows) (o : Outcome old) :
    Inv entries (advance bytes segmentSize s o) := by
  have hmoved : Moved bytes o s (advance bytes segmentSize s o) := moved_advance s o
  generalize advance bytes segmentSize s o = s' at hmoved ⊢
  cases hmoved with
  | returned r hr => exact h.returned hr
  | goes pc seg hfollows htarget => exact h.goes seg hfollows htarget
  | failed pc seg hscan hpc => exact h.failed seg hscan hpc
  | lost entry row hpc => exact h.failed none (by simp [hpc]) (.inl rfl)
  | read entry pos hpc hnext => exact h.read hintact hpc hnext
  | eof e hpc hnext => exact h.eof hintact hpc hnext
  | skip entry hpc hdead => exact h.skip hpc hdead
  | live entry row hpc _ hrow hlive => exact h.live hpc hrow hlive
  | staged entry row path offset hpc => exact h.staged hintact.path hpc
  | finishing rows hpc =>
    refine h.finishing fun hzero key row hrow hin => ?_
    rcases hpc with ⟨hpc, hwb, rfl⟩ | ⟨hpc, rfl⟩
    · obtain ⟨op, hmem⟩ := h.staged_of_past (by simp [hpc]) hzero hrow hin
      rw [hwb] at hmem
      exact List.not_mem_nil hmem
    · obtain ⟨hbefore, hnot⟩ := mergeBatch_inSegment h.wb hrow hin
      obtain ⟨op, hmem⟩ := h.staged_of_past (by simp [hpc]) hzero hbefore hin
      exact hnot op hmem
  | removed hpc hzero => exact h.removed hpc hzero
  | idle r hpc => exact h

lemma inv_step (hintact : Intact old bytes entries rows) (s : State old) (e : Event old)
    (h : Inv entries s) : Inv entries (step bytes segmentSize s e) := by
  cases e with
  | write key w => exact h.write key w
  | pass o => exact inv_advance h hintact o

/-- No row points into a segment that was removed, then and later. -/
theorem emptied_of_removed (hintact : Intact old bytes entries rows) (es : List (Event old))
    (hremoved : (run (step bytes segmentSize) (start old rows) es).pc = .returned .removed) :
    Emptied (run (step bytes segmentSize) (start old rows) es) :=
  (invariant_run_of_forall (inv_step hintact) hintact.inv es).emptied (.inr hremoved)

end Invariant

/-! ## The pass returns -/

section Returns

variable {old : String} {bytes : List UInt8} {segmentSize : Nat}

/-- A bound on the operations that are left. -/
def State.bound (bytes : List UInt8) (s : State old) : Nat :=
  12 * (bytes.length - s.currentPos) + s.pc.rank

variable (s : State old)

/-- The pass gets further with every operation. -/
theorem bound_advance (o : Outcome old) (hpc : s.pc.rank ≠ 0) :
    (advance bytes segmentSize s o).bound bytes < s.bound bytes := by
  -- All operations but the reading of an entry leave the position alone.
  have hlower : ∀ s' : State old, s'.currentPos = s.currentPos → s'.pc.rank < s.pc.rank →
      s'.bound bytes < s.bound bytes := by
    intro s' hpos hrank
    rw [State.bound, State.bound, hpos]
    exact Nat.add_lt_add_left hrank _
  have hmoved : Moved bytes o s (advance bytes segmentSize s o) := moved_advance s o
  generalize advance bytes segmentSize s o = s' at hmoved ⊢
  cases hmoved with
  | returned r => exact hlower _ rfl (Nat.pos_of_ne_zero hpc)
  | goes pc seg _ _ hrank | failed pc seg _ _ hrank => exact hlower _ rfl hrank
  | lost entry row hpc' => exact hlower _ rfl (by simp [hpc', State.fail])
  | read entry pos hpc' hnext =>
    -- An entry takes at least one byte.
    obtain ⟨hy, rfl⟩ := next_eq_ok hnext
    have hstart := hy.start
    have htotal := hy.total_pos
    simp only [State.bound, hpc', Pc.rank]
    omega
  | eof e hpc' => exact hlower _ rfl (by simp [hpc'])
  | skip entry hpc' => exact hlower _ rfl (by simp [hpc'])
  | live entry row hpc' | staged entry row path offset hpc' => exact hlower _ rfl (by simp [hpc'])
  | finishing rows hpc' =>
    refine hlower _ rfl ?_
    rcases hpc' with ⟨hpc', -⟩ | ⟨hpc', -⟩
    all_goals simp [hpc']
  | removed hpc' => exact hlower _ rfl (by simp [hpc'])
  | idle r hpc' => simp [hpc'] at hpc

/-- An operation of the pass, not of a writer. -/
def Event.isPass : Event old → Bool
  | .pass _ => true
  | .write .. => false

lemma eq_returned_of_rank {pc : Pc} (h : pc.rank = 0) : ∃ r, pc = .returned r := by
  cases pc <;> simp_all

/-- A pass that has returned does nothing more. -/
theorem rank_step (e : Event old) (h : s.pc.rank = 0) :
    (step bytes segmentSize s e).pc.rank = 0 := by
  cases e with
  | write key w => exact h
  | pass o =>
    obtain ⟨r, hr⟩ := eq_returned_of_rank h
    simp [step, advance, hr]

/-- The pass has returned, or every operation has brought it further. -/
theorem bound_run (es : List (Event old)) :
    (run (step bytes segmentSize) s es).pc.rank = 0 ∨
      (run (step bytes segmentSize) s es).bound bytes + es.countP Event.isPass ≤ s.bound bytes := by
  induction es generalizing s with
  | nil => exact .inr le_rfl
  | cons e es ih =>
    rcases ih (step bytes segmentSize s e) with hreturned | hbound
    · exact .inl hreturned
    · cases e with
      | write key w => exact .inr hbound
      | pass o =>
        by_cases hpc : s.pc.rank = 0
        · exact .inl (invariant_run_of_forall rank_step hpc (.pass o :: es))
        · have hless : (step bytes segmentSize s (.pass o)).bound bytes < s.bound bytes :=
            bound_advance s o hpc
          refine .inr ?_
          rw [run_cons, List.countP_cons_of_pos rfl]
          omega

/-- A pass returns within a number of operations that depends on the length of the file. -/
theorem returned_of_passes (rows : List UInt8 → Option ValueMessage) (es : List (Event old))
    (h : 12 * bytes.length + 9 ≤ es.countP Event.isPass) :
    ∃ r, (run (step bytes segmentSize) (start old rows) es).pc = .returned r := by
  refine eq_returned_of_rank ((bound_run (start old rows) es).resolve_right fun hbound => ?_)
  simp only [State.bound, start, Pc.rank] at hbound
  omega

end Returns

/-! ## Missing segments -/

section Panics

variable {old : String} {bytes : List UInt8} {segmentSize : Nat}

/-- A pass that was left without a segment has copied nothing so far, and finds no other live
entry. -/
def spared (s : State old) : Event old → Bool
  | .write .. => true
  | .pass o =>
    match s.pc with
    | .reacquiring .. => o.acquired.isSome || s.wb.isEmpty
    | .lookup entry =>
      s.newSeg.isSome || o.fails || (s.rows entry.key).all fun row => !decide (LiveAt old entry row)
    | _ => true

/-- A segment is there where one is needed. -/
structure Held (s : State old) : Prop where
  empty : s.newSeg = none → s.wb = []
  holds : s.pc.holds = true → s.newSeg ≠ none
  not_panicked : s.pc ≠ .returned .panicked

lemma held_advance {s : State old} {o : Outcome old} (h : Held s)
    (hok : spared s (.pass o) = true) : Held (advance bytes segmentSize s o) := by
  have hmoved : Moved bytes o s (advance bytes segmentSize s o) := moved_advance s o
  generalize advance bytes segmentSize s o = s' at hmoved ⊢
  cases hmoved with
  | returned r _ _ hpanic =>
    refine ⟨h.empty, nofun, fun heq => ?_⟩
    obtain ⟨hpc, hnone⟩ := hpanic (by simpa using heq)
    exact h.holds hpc hnone
  | goes pc seg hfollows _ _ hseg hholds =>
    refine ⟨fun hnone => h.empty (hseg hnone), fun hpc hnone => ?_, fun heq => ?_⟩
    · rcases hholds hpc hnone with hbefore | hwb
      · exact h.holds hbefore (hseg hnone)
      · exact hwb (h.empty (hseg hnone))
    · have hscan := hfollows.after
      simp [show pc = .returned .panicked from heq] at hscan
  | failed pc seg _ hpc _ hseg =>
    refine ⟨fun hnone => h.empty (hseg hnone), ?_, ?_⟩
    all_goals rcases hpc with rfl | rfl <;> nofun
  | lost entry row hpc hacquired =>
    refine ⟨fun _ => ?_, nofun, nofun⟩
    simpa [spared, hpc, hacquired, State.fail] using hok
  | live entry row hpc hfails hrow hlive =>
    refine ⟨h.empty, fun _ (hnone : s.newSeg = none) => ?_, nofun⟩
    simp [spared, hpc, hnone, hfails, hrow, hlive] at hok
  | staged entry row path offset hpc =>
    exact ⟨fun hnone => absurd hnone (h.holds (by simp [hpc])), nofun, nofun⟩
  | read | eof | skip | finishing | removed => exact ⟨h.empty, nofun, nofun⟩
  | idle => exact h

lemma held_step (s : State old) (e : Event old) (h : Held s) (hok : spared s e = true) :
    Held (step bytes segmentSize s e) := by
  cases e with
  | write key w => exact ⟨h.empty, h.holds, h.not_panicked⟩
  | pass o => exact held_advance h hok

lemma held_start (rows : List UInt8 → Option ValueMessage) : Held (start old rows) :=
  ⟨fun _ => rfl, nofun, nofun⟩

end Panics

/-- A pass over an intact segment returns, in any interleaving with writers and with any failures.
It does not panic if it is spared, and no row points into the old segment if that is removed. -/
theorem recompactSegment_safe (old : String) (bytes : List UInt8) (entries : List Written)
    (rows : List UInt8 → Option ValueMessage) (segmentSize : Nat)
    (hintact : Intact old bytes entries rows) (es : List (Event old))
    (hspared : RunOk (step bytes segmentSize) (fun s e => spared s e = true) (start old rows) es) :
    let s := run (step bytes segmentSize) (start old rows) es
    (12 * bytes.length + 9 ≤ es.countP Event.isPass → ∃ r, s.pc = .returned r) ∧
      s.pc ≠ .returned .panicked ∧ (s.pc = .returned .removed → Emptied s) :=
  ⟨returned_of_passes rows es, (invariant_run held_step (held_start rows) hspared).not_panicked,
    emptied_of_removed hintact es⟩

/-! ## A segment with two live entries -/

/-- Two entries of 21 bytes. -/
def twoEntries : List Written :=
  [⟨[1], [7, 7], 0, 0, by decide, by decide, by decide, by decide, .inl rfl⟩,
    ⟨[2], [8, 8], 0, 21, by decide, by decide, by decide, by decide, .inl rfl⟩]

/-- Their segment, with its footer. -/
def twoBytes : List UInt8 := encodeAll twoEntries ++ buildSegmentFooterWithVersion 1 2 4

/-- Rows that point at both of them. -/
def twoRows (key : List UInt8) : Option ValueMessage :=
  if key = [1] then some { valueType := .segment, segmentPath := "old", valueLength := 2 }
  else if key = [2] then
    some { valueType := .segment, segmentPath := "old", segmentOffset := 21, valueLength := 2 }
  else none

lemma twoRows_intact : Intact "old" twoBytes twoEntries twoRows where
  path := by decide
  file := ⟨1, 2, 4, rfl⟩
  placed := by simp [twoEntries, Placed, calculateValueHeaderSize, valueHeaderSize]
  opType key row hrow := by
    unfold twoRows at hrow
    split at hrow
    · exact Option.some.inj hrow ▸ rfl
    · split at hrow
      · exact Option.some.inj hrow ▸ rfl
      · cases hrow
  points key row hrow _ := by
    unfold twoRows at hrow
    split at hrow
    · rename_i hkey
      exact ⟨twoEntries.head (by decide), by decide, hkey.symm, by rw [← Option.some.inj hrow]; decide⟩
    · split at hrow
      · rename_i hkey
        exact ⟨twoEntries.getLast (by decide), by decide, hkey.symm,
          by rw [← Option.some.inj hrow]; decide⟩
      · cases hrow

/-- An operation that succeeds. -/
def succeeds : Event "old" := .pass {}

/-- The manager hands out an empty segment. -/
def acquires (path : String) (h : path ≠ "old") : Event "old" :=
  .pass { acquired := some ⟨path, 0, h⟩ }

/-- Both entries are copied, while a writer replaces the second row. -/
def completes : List (Event "old") :=
  [succeeds, acquires "new" (by decide)] ++ List.replicate 12 succeeds ++
    [.write [2] (.put ⟨{}, by decide, rfl⟩)] ++ List.replicate 5 succeeds

/-- The manager has no segment for the first entry, and the row of the second cannot be read. -/
def fails : List (Event "old") :=
  [succeeds, acquires "new" (by decide)] ++ List.replicate 7 succeeds ++ [.pass { fails := true }] ++
    List.replicate 3 succeeds

theorem recompactSegment_safe_completes_fails :
    let s := run (step twoBytes 64) (start "old" twoRows) completes
    let t := run (step twoBytes 20) (start "old" twoRows) fails
    (s.pc = .returned .removed ∧
      (12 * twoBytes.length + 9 ≤ completes.countP Event.isPass → ∃ r, s.pc = .returned r) ∧
      s.pc ≠ .returned .panicked ∧ (s.pc = .returned .removed → Emptied s)) ∧
    t.pc = .returned .incomplete ∧
      (12 * twoBytes.length + 9 ≤ fails.countP Event.isPass → ∃ r, t.pc = .returned r) ∧
      t.pc ≠ .returned .panicked ∧ (t.pc = .returned .removed → Emptied t) :=
  ⟨⟨by decide +kernel, recompactSegment_safe "old" twoBytes twoEntries twoRows 64 twoRows_intact
      completes (by decide +kernel)⟩,
    ⟨by decide +kernel, recompactSegment_safe "old" twoBytes twoEntries twoRows 20 twoRows_intact
      fails (by decide +kernel)⟩⟩

/-- The manager has no segment for the second entry: the batch is not empty, and there is nothing to
sync. Or it has none for the first, and the second is live. -/
theorem recompactSegment_panics :
    Intact "old" twoBytes twoEntries twoRows ∧
      (run (step twoBytes 40) (start "old" twoRows)
        ([succeeds, acquires "new" (by decide)] ++ List.replicate 14 succeeds)).pc =
          .returned .panicked ∧
      (run (step twoBytes 20) (start "old" twoRows)
        ([succeeds, acquires "new" (by decide)] ++ List.replicate 9 succeeds)).pc =
          .returned .panicked :=
  ⟨twoRows_intact, by decide +kernel, by decide +kernel⟩

end OCache.Compaction.Recompact
