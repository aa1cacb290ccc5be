import OCache.Lib.EventSystem
import OCache.SegmentFile.Format

/-!
# Writing, finalizing and reloading a segment file

One segment file and the process that writes it. `WriteEntry` appends a header and the bytes of a
reader at the cursor of the open descriptor and returns the size the segment had; if the write or
the reader fails it truncates the file to that size and moves the cursor back. `Finalize` appends a
footer, cuts the file off behind it and closes it. After a restart `loadSegments` closes a file that
ends in a footer; any other is scanned and cut off at the first entry that is not valid.

Every write, truncate, seek and sync may fail. Reads and closes do not. A restart sees the bytes
that were written, whether or not they were synced.
-/

namespace OCache.SegmentFile

open DiskFile

/-- The `Segment` of the process. -/
structure Segment where
  /-- Bytes written, the offset of the next entry. -/
  size : Nat
  numEntries : UInt32
  dataBytes : Int64
  version : Nat
  /-- The cursor of the open descriptor, `none` once the segment is closed. -/
  file : Option Nat
deriving DecidableEq

/-- What an operation returned, and the segment and the file after it. -/
structure Outcome (α : Type) where
  result : α
  seg : Segment
  bytes : List UInt8

/-! ## `WriteEntry` -/

/-- A reader: the bytes it delivers, and whether it then fails instead of ending. -/
structure Source where
  data : List UInt8
  fails : Bool := false

/-- A call of `WriteEntry`. Keys are not empty and values have at least two bytes. The checksum is
that of the value, or `0` if it was not computed; a reader that delivers something else than the
value is not bound by it. -/
structure Call where
  key : List UInt8
  source : Source
  vm : ValueMessage
  key_ne_nil : key ≠ [] := by decide
  length_key_lt : key.length < 2 ^ 32 := by decide
  two_le_length : 2 ≤ vm.valueLength.toInt := by decide
  checksum_ok : (source.data.length : Int) = vm.valueLength.toInt →
    vm.checksum = 0 ∨ vm.checksum = crc32 source.data := by decide

/-- The faults a call of `WriteEntry` meets. -/
structure WriteFaults where
  /-- The write of the header fails after that many bytes. -/
  header : Option Nat := none
  /-- The copy of the value fails after that many bytes. -/
  value : Option Nat := none
  /-- `Truncate` fails in the rollback. -/
  truncate : Bool := false
  /-- `Seek` fails in the rollback. -/
  seek : Bool := false

/-- The errors of `WriteEntry`. -/
inductive WriteError where
  | invalidValueType
  | segmentClosed
  | writeHeader
  | copyValue
  | wrongLength (wrote : Nat) (expected : Int64)
  | rollbackTruncate
  | rollbackSeek

/-- The rollback of a failed write: the error that is returned is its own if it fails. -/
def rollback (f : DiskFile) (startOffset : Nat) (faults : WriteFaults) (e : WriteError) :
    DiskFile × WriteError :=
  if faults.truncate then (f, .rollbackTruncate)
  else if faults.seek then (f.truncate startOffset, .rollbackSeek)
  else ((f.truncate startOffset).seek startOffset, e)

/-- `io.CopyBuffer` from the reader to the file: the file, the bytes written, and whether neither
side failed. -/
def copyBuffer (f : DiskFile) (r : Source) (fault : Option Nat) : DiskFile × Nat × Bool :=
  let (g, ok) := f.write r.data fault
  (g, g.cursor - f.cursor, ok && !r.fails)

namespace Segment

/-- A failed write: roll back and return the error. -/
def fail (s : Segment) (faults : WriteFaults) (f : DiskFile) (e : WriteError) :
    Outcome (Except WriteError Nat) :=
  let (g, e) := rollback f s.size faults e
  ⟨.error e, { s with file := some g.cursor }, g.bytes⟩

/-- `Segment.WriteEntry`: the offset of the entry. -/
def writeEntry (s : Segment) (bytes : List UInt8) (c : Call) (faults : WriteFaults) :
    Outcome (Except WriteError Nat) :=
  if c.vm.valueType ≠ .rawFile ∧ c.vm.valueType ≠ .segment then
    ⟨.error .invalidValueType, s, bytes⟩
  else
    let header := buildValueHeader c.key c.vm.valueLength c.vm.checksum currentValueHeaderVersion
    match s.file with
    | none => ⟨.error .segmentClosed, s, bytes⟩
    | some cursor =>
      -- `os.File.Write` returns an error with every short write.
      match DiskFile.write ⟨bytes, cursor⟩ header faults.header with
      | (f, false) => s.fail faults f .writeHeader
      | (f, true) =>
        match copyBuffer f c.source faults.value with
        | (g, _, false) => s.fail faults g .copyValue
        | (g, bytesWritten, true) =>
          if (bytesWritten : Int) ≠ c.vm.valueLength.toInt then
            s.fail faults g (.wrongLength bytesWritten c.vm.valueLength)
          else
            ⟨.ok s.size,
              { s with
                size := s.size + (calculateValueHeaderSize c.key + c.vm.valueLength.toInt.toNat)
                numEntries := s.numEntries + 1
                dataBytes := s.dataBytes + c.vm.valueLength
                file := some g.cursor },
              g.bytes⟩

/-! ## `Finalize` -/

end Segment

/-- The faults a call of `Finalize` meets. -/
structure FinalizeFaults where
  /-- The write of the footer fails after that many bytes. -/
  footer : Option Nat := none
  truncate : Bool := false
  sync : Bool := false

/-- The errors of `Finalize`. -/
inductive FinalizeError where
  | writeFooter
  | truncate
  | sync

namespace Segment

/-- The footer of the segment. -/
def footer (s : Segment) : List UInt8 :=
  buildSegmentFooterWithVersion s.version s.numEntries s.dataBytes

/-- `Segment.Finalize`. A failure leaves the segment open, with whatever was written. -/
def finalize (s : Segment) (bytes : List UInt8) (faults : FinalizeFaults) :
    Outcome (Except FinalizeError Unit) :=
  match s.file with
  | none => ⟨.ok (), s, bytes⟩
  | some cursor =>
    match DiskFile.write ⟨bytes, cursor⟩ s.footer faults.footer with
    | (f, false) => ⟨.error .writeFooter, { s with file := some f.cursor }, f.bytes⟩
    | (f, true) =>
      let size := s.size + s.footer.length
      if faults.truncate then
        ⟨.error .truncate, { s with size := size, file := some f.cursor }, f.bytes⟩
      else if faults.sync then
        ⟨.error .sync, { s with size := size, file := some f.cursor }, (f.truncate size).bytes⟩
      else
        ⟨.ok (), { s with size := size, file := none }, (f.truncate size).bytes⟩

end Segment

/-! ## `loadSegments` -/

/-- The scan of `validateOpenSegment`: where the valid entries end, how many there are and the bytes
of their values. Whatever ends the scan, the file is cut off at the position it stopped at. -/
def scanOpen (bytes : List UInt8) : Nat → Nat → UInt32 → Int64 → Nat × UInt32 × Int64
  | 0, currentPos, entries, dataBytes => (currentPos, entries, dataBytes)
  | fuel + 1, currentPos, entries, dataBytes =>
    match next bytes currentPos with
    | .error _ => (currentPos, entries, dataBytes)
    | .ok (entry, iterPos) =>
      let nextPos := currentPos + (entry.headerSize + entry.valueLength)
      if entry.valueLength = 0 ∨ entry.key = [] then (currentPos, entries, dataBytes)
      -- a partial entry
      else if bytes.length < nextPos then (currentPos, entries, dataBytes)
      -- a checksum of zero was not computed
      else if entry.checksum ≠ 0 ∧
          crc32 (readAt bytes (currentPos + entry.headerSize) entry.valueLength) ≠ entry.checksum then
        (currentPos, entries, dataBytes)
      else scanOpen bytes fuel iterPos (entries + 1) (dataBytes + .ofNat entry.valueLength)

/-- The faults a restart meets on this file. -/
structure LoadFaults where
  seekStart : Bool := false
  truncate : Bool := false
  seekEnd : Bool := false
  /-- Those of `Finalize`, if the segment is finalized. -/
  finalize : FinalizeFaults := {}

/-- `validateOpenSegment`: the segment, open for writing behind its last valid entry, unless a call
failed, and the file. -/
def validateOpenSegment (bytes : List UInt8) (faults : LoadFaults) : Option Segment × List UInt8 :=
  if faults.seekStart then (none, bytes)
  else
    let (lastValidPos, entries, dataBytes) := scanOpen bytes (bytes.length + 1) 0 0 0
    if faults.truncate then (none, bytes)
    else
      let f := DiskFile.truncate ⟨bytes, 0⟩ lastValidPos
      if faults.seekEnd then (none, f.bytes)
      else (some ⟨lastValidPos, entries, dataBytes, currentSegmentVersion, some lastValidPos⟩,
        f.bytes)

/-- `loadSegments`, for one file: the segment, unless loading failed and the process did not start,
and the file. All open segments but the newest are finalized, `older` says whether this is one. -/
def loadSegment (bytes : List UInt8) (older : Bool) (faults : LoadFaults) :
    Option Segment × List UInt8 :=
  match parseSegmentFooter (readAt bytes (bytes.length - segmentFooterSize) segmentFooterSize) with
  | some (version, entries, dataBytes) =>
    (some ⟨bytes.length - segmentFooterSize, entries, dataBytes, version, none⟩, bytes)
  | none =>
    match validateOpenSegment bytes faults with
    | (none, bytes) => (none, bytes)
    | (some seg, bytes) =>
      if older then
        match seg.finalize bytes faults.finalize with
        | ⟨.ok _, seg, bytes⟩ => (some seg, bytes)
        | ⟨.error _, _, bytes⟩ => (none, bytes)
      else (some seg, bytes)

/-! ## Runs -/

/-- The file and the process. -/
structure State where
  /-- The contents of the file. -/
  bytes : List UInt8
  /-- The segment of the running process, if there is one. -/
  seg : Option Segment
  /-- History: the entries whose `WriteEntry` returned success, oldest first. -/
  log : List Written
  /-- History: a rollback or a `Finalize` of this process has failed. -/
  torn : Bool

/-- One operation and the faults it meets. -/
inductive Event where
  | writeEntry (c : Call) (faults : WriteFaults)
  | finalize (faults : FinalizeFaults)
  | restart (older : Bool) (faults : LoadFaults)

/-- The entry a successful call has written. -/
def Call.written (c : Call) (offset : Nat)
    (h : (c.source.data.length : Int) = c.vm.valueLength.toInt) : Written where
  key := c.key
  value := c.source.data
  checksum := c.vm.checksum
  offset := offset
  key_ne_nil := c.key_ne_nil
  length_key_lt := c.length_key_lt
  two_le_length := by
    have := c.two_le_length
    omega
  length_value_lt := by
    have := c.vm.valueLength.toInt_lt
    omega
  checksum_ok := c.checksum_ok h

/-- What a call adds to the history: a call that returns success has copied the whole value. -/
def Call.record (c : Call) : Except WriteError Nat → List Written
  | .error _ => []
  | .ok offset =>
    if h : (c.source.data.length : Int) = c.vm.valueLength.toInt then [c.written offset h] else []

/-- The errors of `WriteEntry` that say that its rollback failed. -/
def rollbackFailed : Except WriteError Nat → Bool
  | .error .rollbackTruncate => true
  | .error .rollbackSeek => true
  | _ => false

/-- One operation. Without a process there is none but a restart. -/
def step (s : State) : Event → State
  | .writeEntry c faults =>
    match s.seg with
    | none => s
    | some seg =>
      let o := seg.writeEntry s.bytes c faults
      { bytes := o.bytes
        seg := some o.seg
        log := s.log ++ c.record o.result
        torn := s.torn || rollbackFailed o.result }
  | .finalize faults =>
    match s.seg with
    | none => s
    | some seg =>
      let o := seg.finalize s.bytes faults
      { s with
        bytes := o.bytes
        seg := some o.seg
        torn := s.torn || !o.result.isOk }
  | .restart older faults =>
    let (seg, bytes) := loadSegment s.bytes older faults
    { s with bytes := bytes, seg := seg, torn := false }

/-- A segment that was just created: preallocated, open and empty. -/
def init (segmentSize : Nat) : State where
  bytes := List.replicate segmentSize 0
  seg := some ⟨0, 0, 0, currentSegmentVersion, some 0⟩
  log := []
  torn := false

end OCache.SegmentFile
