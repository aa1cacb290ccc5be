import OCache.Lib.Protowire

/-!
# Stored values and their encoding

The metadata row of a user key is a protobuf `ValueMessage`; the dead-byte ledger of a segment is a
`DeleteIndexEntry`. Both are modelled with every field of the schema in `storage.proto`, open
enumerations and unknown fields included, and with the bytes `proto.Marshal` writes and
`proto.Unmarshal` accepts. The text fields are `String`, so a message that `proto.Marshal` refuses
for invalid UTF-8 cannot be built.
-/

namespace OCache

open Protowire Reader

/-! ## Enumerations -/

/-- Where the bytes of a value are stored. -/
inductive ValueType where
  | inline
  | rawFile
  | segment
  | unrecognized (n : {n : UInt32 // 3 ≤ n})
deriving DecidableEq

variable (n : UInt32)

/-- The value type with the given number. -/
def ValueType.ofUInt32 : ValueType :=
  if n = 0 then inline
  else if n = 1 then rawFile
  else if n = 2 then segment
  else if h : 3 ≤ n then unrecognized ⟨n, h⟩
  else inline

/-- The number of a value type. -/
def ValueType.toUInt32 : ValueType → UInt32
  | inline => 0
  | rawFile => 1
  | segment => 2
  | unrecognized n => n.1

/-- What a merge operand on a metadata key asks for. -/
inductive MetaOp where
  | none
  | casPut
  | casDelete
  | unrecognized (n : {n : UInt32 // 3 ≤ n})
deriving DecidableEq

/-- The operation with the given number. -/
def MetaOp.ofUInt32 : MetaOp :=
  if n = 0 then none
  else if n = 1 then casPut
  else if n = 2 then casDelete
  else if h : 3 ≤ n then unrecognized ⟨n, h⟩
  else none

/-- The number of an operation. -/
def MetaOp.toUInt32 : MetaOp → UInt32
  | none => 0
  | casPut => 1
  | casDelete => 2
  | unrecognized n => n.1

@[simp] lemma ValueType.ofUInt32_toUInt32 (t : ValueType) : ofUInt32 t.toUInt32 = t := by
  rcases t with _ | _ | _ | ⟨n, hn⟩
  · rfl
  · rfl
  · rfl
  · have h0 : n ≠ 0 := by rintro rfl; simp at hn
    have h1 : n ≠ 1 := by rintro rfl; simp at hn
    have h2 : n ≠ 2 := by rintro rfl; simp at hn
    simp [ofUInt32, toUInt32, h0, h1, h2, hn]

@[simp] lemma MetaOp.ofUInt32_toUInt32 (t : MetaOp) : ofUInt32 t.toUInt32 = t := by
  rcases t with _ | _ | _ | ⟨n, hn⟩
  · rfl
  · rfl
  · rfl
  · have h0 : n ≠ 0 := by rintro rfl; simp at hn
    have h1 : n ≠ 1 := by rintro rfl; simp at hn
    have h2 : n ≠ 2 := by rintro rfl; simp at hn
    simp [ofUInt32, toUInt32, h0, h1, h2, hn]

/-- Enumerations are signed 32-bit numbers and travel sign-extended. -/
def enumVarint : UInt64 := n.toInt32.toInt64.toUInt64

@[simp] lemma enumVarint_toUInt32 : (enumVarint n).toUInt32 = n := by
  apply UInt32.toBitVec_inj.mp
  simp only [enumVarint, UInt64.toBitVec_toUInt32, Int64.toBitVec_toUInt64,
    Int32.toBitVec_toInt64, UInt32.toBitVec_toInt32]
  ext i hi
  simp [BitVec.getElem_signExtend, hi, show i < 64 by omega]

lemma enumVarint_eq_zero_iff {n : UInt32} : enumVarint n = 0 ↔ n = 0 := by
  constructor
  · intro h
    rw [← enumVarint_toUInt32 n, h]
    rfl
  · rintro rfl
    rfl

/-! ## The metadata row -/

/-- The tags `ValueMessage` decodes: field number and wire type of `storage.proto`. -/
def ValueMessage.known (t : Tag maxValidNumber) : Bool :=
  match t.wtyp with
  | .varint => [1, 3, 6, 7, 8, 9, 10, 11].contains t.num
  | .bytes => [2, 4, 5].contains t.num
  | _ => false

/-- A stored value, or a merge operand on one. -/
@[ext]
structure ValueMessage where
  /-- Location of the value bytes. -/
  valueType : ValueType := .inline
  /-- The value itself, for an inline value. -/
  data : List UInt8 := []
  /-- Expiry timestamp in unix seconds, `0` if there is none. -/
  expiry : Int64 := 0
  /-- Raw file holding the value; on a migration operand, the path it expects in the row. -/
  rawFilePath : String := ""
  /-- Segment file holding the value. -/
  segmentPath : String := ""
  /-- Offset of the value in its segment. -/
  segmentOffset : Int64 := 0
  /-- Length of the value. -/
  valueLength : Int64 := 0
  /-- CRC32 of the value. -/
  checksum : UInt32 := 0
  /-- Version stamp, `0` for a plain write. -/
  version : UInt64 := 0
  /-- Kind of merge operand, `none` on stored values. -/
  opType : MetaOp := .none
  /-- The version a CAS operand expects. -/
  casExpectedVersion : UInt64 := 0
  /-- Fields of another schema version, kept as they came. -/
  unknownFields : List (UnknownField ValueMessage.known) := []
deriving DecidableEq

namespace ValueMessage

/-- `proto.Marshal`: the fields in the order of their numbers, then the unknown ones. -/
def marshal (m : ValueMessage) : List UInt8 :=
  varintField (varintTag 1) (enumVarint m.valueType.toUInt32) ++
  (bytesField (bytesTag 2) m.data ++
  (varintField (varintTag 3) m.expiry.toUInt64 ++
  (stringField (bytesTag 4) m.rawFilePath ++
  (stringField (bytesTag 5) m.segmentPath ++
  (varintField (varintTag 6) m.segmentOffset.toUInt64 ++
  (varintField (varintTag 7) m.valueLength.toUInt64 ++
  (varintField (varintTag 8) m.checksum.toUInt64 ++
  (varintField (varintTag 9) m.version ++
  (varintField (varintTag 10) (enumVarint m.opType.toUInt32) ++
  (varintField (varintTag 11) m.casExpectedVersion ++
  m.unknownFields.flatMap UnknownField.bytes))))))))))

/-! What decoding a payload stores, field by field. -/

def setValueType (m : ValueMessage) (v : UInt64) : ValueMessage :=
  { m with valueType := .ofUInt32 v.toUInt32 }

def setData (m : ValueMessage) (b : List UInt8) : ValueMessage :=
  { m with data := b }

def setExpiry (m : ValueMessage) (v : UInt64) : ValueMessage :=
  { m with expiry := v.toInt64 }

def setRawFilePath (m : ValueMessage) (s : String) : ValueMessage :=
  { m with rawFilePath := s }

def setSegmentPath (m : ValueMessage) (s : String) : ValueMessage :=
  { m with segmentPath := s }

def setSegmentOffset (m : ValueMessage) (v : UInt64) : ValueMessage :=
  { m with segmentOffset := v.toInt64 }

def setValueLength (m : ValueMessage) (v : UInt64) : ValueMessage :=
  { m with valueLength := v.toInt64 }

def setChecksum (m : ValueMessage) (v : UInt64) : ValueMessage :=
  { m with checksum := v.toUInt32 }

def setVersion (m : ValueMessage) (v : UInt64) : ValueMessage :=
  { m with version := v }

def setOpType (m : ValueMessage) (v : UInt64) : ValueMessage :=
  { m with opType := .ofUInt32 v.toUInt32 }

def setCasExpectedVersion (m : ValueMessage) (v : UInt64) : ValueMessage :=
  { m with casExpectedVersion := v }

/-- Decode the payload of a known field. -/
def decodeField (t : Tag maxValidNumber) (m : ValueMessage) : Reader ValueMessage :=
  match t.wtyp, t.num with
  | .varint, 1 => consumeVarint.map m.setValueType
  | .bytes, 2 => consumeBytes.map m.setData
  | .varint, 3 => consumeVarint.map m.setExpiry
  | .bytes, 4 => consumeString.map m.setRawFilePath
  | .bytes, 5 => consumeString.map m.setSegmentPath
  | .varint, 6 => consumeVarint.map m.setSegmentOffset
  | .varint, 7 => consumeVarint.map m.setValueLength
  | .varint, 8 => consumeVarint.map m.setChecksum
  | .varint, 9 => consumeVarint.map m.setVersion
  | .varint, 10 => consumeVarint.map m.setOpType
  | .varint, 11 => consumeVarint.map m.setCasExpectedVersion
  | _, _ => fail

/-- Keep a field of another schema version. -/
def keepUnknown (m : ValueMessage) (u : UnknownField known) : ValueMessage :=
  { m with unknownFields := m.unknownFields ++ [u] }

/-- The schema of `ValueMessage`. -/
def schema : Schema ValueMessage where
  known := known
  decode := decodeField
  keep := keepUnknown
  empty := {}

/-- `proto.Unmarshal` into a fresh message; `none` is an error. -/
def unmarshal (b : List UInt8) : Option ValueMessage := schema.unmarshal b

/-! ## Round trip -/

/-- Every length of the message can be written as a 64-bit prefix. -/
structure Sized (m : ValueMessage) : Prop where
  data : m.data.length < 2 ^ 64
  rawFilePath : m.rawFilePath.toUTF8.data.toList.length < 2 ^ 64
  segmentPath : m.segmentPath.toUTF8.data.toList.length < 2 ^ 64

lemma foldl_keepUnknown (us : List (UnknownField known)) (m : ValueMessage) :
    us.foldl keepUnknown m = { m with unknownFields := m.unknownFields ++ us } := by
  induction us generalizing m with
  | nil => simp
  | cons u us ih => simp [ih, keepUnknown]

/-- The unknown fields are read back in order. -/
theorem foldAll_unknownFields (us : List (UnknownField known)) (m : ValueMessage) :
    foldAll schema.field m (us.flatMap UnknownField.bytes) =
      some { m with unknownFields := m.unknownFields ++ us } :=
  (schema.foldAll_unknowns us m).trans (congrArg some (foldl_keepUnknown us m))

variable {m : ValueMessage}

/-- A message is read back from its encoding. -/
theorem unmarshal_marshal (h : m.Sized) : unmarshal m.marshal = some m := by
  rw [unmarshal, Schema.unmarshal, marshal,
    Schema.foldAll_varintField setValueType,
    Schema.foldAll_bytesField setData h.data,
    Schema.foldAll_varintField setExpiry,
    Schema.foldAll_stringField setRawFilePath h.rawFilePath,
    Schema.foldAll_stringField setSegmentPath h.segmentPath,
    Schema.foldAll_varintField setSegmentOffset,
    Schema.foldAll_varintField setValueLength,
    Schema.foldAll_varintField setChecksum,
    Schema.foldAll_varintField setVersion,
    Schema.foldAll_varintField setOpType,
    Schema.foldAll_varintField setCasExpectedVersion,
    foldAll_unknownFields]
  · simp [schema, setValueType, setData, setExpiry, setRawFilePath, setSegmentPath,
      setSegmentOffset, setValueLength, setChecksum, setVersion, setOpType,
      setCasExpectedVersion]
  -- What is left says of every field that it is known, decodes so and starts at its default.
  all_goals rfl

/-- What was decoded can be encoded again. -/
theorem sized_of_unmarshal {b : List UInt8} (h : unmarshal b = some m) : m.Sized := by
  refine foldAll_invariant (r := schema.field) (I := Sized) ?_ ?_ h
  · intro m b m' rest hm hrun
    rcases schema.field_run_cases hrun with ⟨u, rfl⟩ | ⟨t, mid, hdec⟩
    · exact ⟨hm.data, hm.rawFilePath, hm.segmentPath⟩
    · change (decodeField t m).run mid = _ at hdec
      unfold decodeField at hdec
      split at hdec
      case h_12 => simp at hdec
      all_goals
        obtain ⟨x, hx, rfl⟩ := exists_of_map_run hdec
        first
        | exact ⟨hm.data, hm.rawFilePath, hm.segmentPath⟩
        | exact ⟨length_lt_of_consumeBytes hx, hm.rawFilePath, hm.segmentPath⟩
        | exact ⟨hm.data, length_lt_of_consumeString hx, hm.segmentPath⟩
        | exact ⟨hm.data, hm.rawFilePath, length_lt_of_consumeString hx⟩
  · exact ⟨by simp [schema], by simp [schema], by simp [schema]⟩

/-! ## The empty encoding -/

/-- Only the message with all fields at their default encodes to no bytes at all. -/
theorem marshal_eq_nil_iff : m.marshal = [] ↔ m = {} := by
  constructor
  · intro h
    simp only [marshal, List.append_eq_nil_iff, varintField_eq_nil_iff, bytesField_eq_nil_iff,
      stringField_eq_nil_iff, enumVarint_eq_zero_iff, List.flatMap_eq_nil_iff] at h
    obtain ⟨h1, h2, h3, h4, h5, h6, h7, h8, h9, h10, h11, h12⟩ := h
    ext1
    · rw [← ValueType.ofUInt32_toUInt32 m.valueType, h1]
      rfl
    · exact h2
    · simpa using congrArg UInt64.toInt64 h3
    · exact h4
    · exact h5
    · simpa using congrArg UInt64.toInt64 h6
    · simpa using congrArg UInt64.toInt64 h7
    · simpa using congrArg UInt64.toUInt32 h8
    · exact h9
    · rw [← MetaOp.ofUInt32_toUInt32 m.opType, h10]
      rfl
    · exact h11
    · refine List.eq_nil_iff_forall_not_mem.mpr fun u hu => ?_
      have := h12 u hu
      simp [UnknownField.bytes, appendTag_ne_nil] at this
  · rintro rfl
    rfl

end ValueMessage

/-! ## The dead-byte ledger of a segment -/

/-- The tags `DeleteIndexEntry` decodes. -/
def DeleteIndexEntry.known (t : Tag maxValidNumber) : Bool :=
  match t.wtyp with
  | .varint => [1, 2].contains t.num
  | _ => false

/-- How much of a segment is dead. -/
structure DeleteIndexEntry where
  /-- Number of deleted entries. -/
  deletedEntries : Int64 := 0
  /-- Total bytes of deleted entries. -/
  deletedBytes : Int64 := 0
  /-- Fields of another schema version, kept as they came. -/
  unknownFields : List (UnknownField DeleteIndexEntry.known) := []

namespace DeleteIndexEntry

/-- `proto.Marshal`. -/
def marshal (e : DeleteIndexEntry) : List UInt8 :=
  varintField (varintTag 1) e.deletedEntries.toUInt64 ++
  (varintField (varintTag 2) e.deletedBytes.toUInt64 ++
  e.unknownFields.flatMap UnknownField.bytes)

/-- Decode the payload of a known field. -/
def decodeField (t : Tag maxValidNumber) (e : DeleteIndexEntry) : Reader DeleteIndexEntry :=
  match t.wtyp, t.num with
  | .varint, 1 => consumeVarint.map fun v => { e with deletedEntries := v.toInt64 }
  | .varint, 2 => consumeVarint.map fun v => { e with deletedBytes := v.toInt64 }
  | _, _ => fail

/-- The schema of `DeleteIndexEntry`. -/
def schema : Schema DeleteIndexEntry where
  known := known
  decode := decodeField
  keep e u := { e with unknownFields := e.unknownFields ++ [u] }
  empty := {}

/-- `proto.Unmarshal` into a fresh entry; `none` is an error. -/
def unmarshal (b : List UInt8) : Option DeleteIndexEntry := schema.unmarshal b

end DeleteIndexEntry

end OCache
