import OCache.Keys
import OCache.Proto.ValueMessage

/-!
# The merge operator

RocksDB resolves the merge operands of a key with `MultiplexOperator.FullMerge`. On metadata keys
the operands are conditional rewrites of the row: compare-and-swap puts and deletes guarded by a
version, purges and migrations guarded by a path. The operator keeps the row it has so far together
with a flag saying that there is one; here both are one `Option ValueMessage`.
-/

namespace OCache.Merge

/-! ## Row versions -/

/-- The encoding of the tombstone without a stamp. -/
def expiredSentinel : List UInt8 := [0x18, 0x01]

/-- The version reported for a live row that carries none. -/
def versionLegacy : UInt64 := 1

/-- The expiry that marks a row as a tombstone. -/
def tombstoneExpiry : Int64 := 1

/-- The version the API reports for a row: the fence of a tombstone, the stamp of a live row. -/
def effectiveRowVersion : Option ValueMessage → UInt64
  | none => 0
  | some vm =>
    if vm.expiry = tombstoneExpiry then vm.version
    else if vm.version = 0 then versionLegacy
    else vm.version

/-- A CAS operand may replace the tombstone: it observed the key no earlier than the delete, or it
declined to order itself. -/
def fenceAdmits (tombstone : ValueMessage) (expected : UInt64) : Bool :=
  expected = 0 ∨ tombstone.version ≤ expected

/-! ## Operands -/

/-- The tombstone a delete with the given stamp leaves. -/
def tombstone (version : UInt64) : ValueMessage :=
  { expiry := tombstoneExpiry, version := version }

/-- The row a CAS put leaves: the operand without its operand-only fields. -/
def adopt (op : ValueMessage) : ValueMessage where
  valueType := op.valueType
  data := op.data
  expiry := op.expiry
  rawFilePath := op.rawFilePath
  segmentPath := op.segmentPath
  segmentOffset := op.segmentOffset
  valueLength := op.valueLength
  checksum := op.checksum
  version := op.version

/-- The row a migration leaves: the operand's location under the version the row had. -/
def migrated (base op : ValueMessage) : ValueMessage where
  valueType := op.valueType
  data := op.data
  expiry := op.expiry
  segmentPath := op.segmentPath
  segmentOffset := op.segmentOffset
  valueLength := op.valueLength
  checksum := op.checksum
  version := base.version

/-- A CAS operand expecting `expected` matches the row: the fence rule on a tombstone, equality on
a live row. -/
def casMatches (base : ValueMessage) (expected : UInt64) : Bool :=
  if base.expiry = tombstoneExpiry then fenceAdmits base expected
  else effectiveRowVersion (some base) = expected

/-- Resolve a CAS put. -/
def applyCasPut (op : ValueMessage) : Option ValueMessage → Option ValueMessage
  | none => some (adopt op)
  | some base => if casMatches base op.casExpectedVersion then some (adopt op) else some base

/-- Resolve a CAS delete. On a missing row a guarded delete leaves an unstamped tombstone, so that
the caller does not find its own stamp. -/
def applyCasDelete (op : ValueMessage) : Option ValueMessage → Option ValueMessage
  | none => if op.casExpectedVersion = 0 then some (tombstone op.version) else some (tombstone 0)
  | some base =>
    if casMatches base op.casExpectedVersion then some (tombstone op.version) else some base

/-- The operand asks to tombstone a row whose raw file is gone. -/
def isPurge (op : ValueMessage) : Bool :=
  op.valueType = .rawFile ∧ op.rawFilePath ≠ ""

/-- Resolve a purge: it applies to the row that still names the same raw file. -/
def applyPurge (op : ValueMessage) : Option ValueMessage → Option ValueMessage
  | none => none
  | some base =>
    if base.valueType = .rawFile ∧ base.rawFilePath = op.rawFilePath then some (tombstone 0)
    else some base

/-- The row still names the path the migration started from. -/
def pathMatches (base op : ValueMessage) : Bool :=
  (base.valueType = .rawFile ∧ base.rawFilePath = op.rawFilePath) ∨
    (base.valueType = .segment ∧ base.segmentPath = op.rawFilePath)

/-- Resolve a migration. -/
def applyMigration (op : ValueMessage) : Option ValueMessage → Option ValueMessage
  | none => none
  | some base =>
    if op.valueType = .segment ∧ op.rawFilePath ≠ "" ∧ pathMatches base op then
      some (migrated base op)
    else some base

/-- Resolve one operand against the row so far; `none` is the absence of a base. -/
def applyOperand (base : Option ValueMessage) (op : ValueMessage) : Option ValueMessage :=
  match op.opType with
  | .casPut => applyCasPut op base
  | .casDelete => applyCasDelete op base
  | _ => if isPurge op then applyPurge op base else applyMigration op base

/-! ## The operator on bytes -/

/-- Resolve one encoded operand; a malformed one is skipped. -/
def applyOperandBytes (base : Option ValueMessage) (operand : List UInt8) : Option ValueMessage :=
  match ValueMessage.unmarshal operand with
  | none => base
  | some op => applyOperand base op

/-- What is stored for the row that is left after the last operand. -/
def encodeResult : Option ValueMessage → List UInt8
  | none => expiredSentinel
  | some base => base.marshal

variable (existingValue : List UInt8)

/-- The row an existing value stands for: no bytes are no base, and bytes that do not decode are
`none` altogether. -/
def decodeBase : Option (Option ValueMessage) :=
  if existingValue = [] then some none
  else (ValueMessage.unmarshal existingValue).map some

/-- The strategy of metadata keys. An undecodable base is kept verbatim. -/
def mergeMetadataCAS (operands : List (List UInt8)) : List UInt8 :=
  match decodeBase existingValue with
  | none => existingValue
  | some base => encodeResult (operands.foldl applyOperandBytes base)

/-- A little-endian 64-bit number. -/
def littleEndian (b : List UInt8) : UInt64 :=
  b.foldr (fun c acc => acc * 256 + c.toUInt64) 0

/-- Add one encoded increment to the ledger; an operand of another length is skipped. -/
def addDeleteIndexOperand (entry : DeleteIndexEntry) (operand : List UInt8) : DeleteIndexEntry :=
  if operand.length = 16 then
    { entry with
      deletedEntries := entry.deletedEntries + (littleEndian (operand.take 8)).toInt64
      deletedBytes := entry.deletedBytes + (littleEndian (operand.drop 8)).toInt64 }
  else entry

/-- The strategy of ledger keys. An undecodable entry is started afresh. -/
def mergeDeleteIndex (operands : List (List UInt8)) : List UInt8 :=
  let entry := if existingValue = [] then {} else
    (DeleteIndexEntry.unmarshal existingValue).getD {}
  (operands.foldl addDeleteIndexOperand entry).marshal

/-- `MultiplexOperator.FullMerge`. The flag it returns beside the bytes is false only when encoding
fails, which it cannot for the messages modelled here. -/
def fullMerge (key existingValue : List UInt8) (operands : List (List UInt8)) : List UInt8 :=
  if Keys.isDeleteIndexKey key then mergeDeleteIndex existingValue operands
  else if Keys.isMetadataKey key then mergeMetadataCAS existingValue operands
  else operands.getLast?.getD existingValue

lemma fullMerge_of_isMetadataKey {key : List UInt8} (h : Keys.isMetadataKey key = true)
    (existingValue : List UInt8) (operands : List (List UInt8)) :
    fullMerge key existingValue operands = mergeMetadataCAS existingValue operands := by
  simp [fullMerge, h, Keys.not_isDeleteIndexKey_of_isMetadataKey h]

/-! ## The operator on rows -/

/-- The base `FullMerge` works on for a stored row. The row with all fields at their default is
stored as no bytes at all, so the operator takes it for a missing one. -/
def baseOf (row : Option ValueMessage) : Option ValueMessage :=
  if row = some {} then none else row

/-- The row stored when `operands` are merged into `row`. -/
def mergeRow (row : Option ValueMessage) (operands : List ValueMessage) : ValueMessage :=
  (operands.foldl applyOperand (baseOf row)).getD (tombstone 0)

section Sized

variable {base : Option ValueMessage} {op : ValueMessage}

lemma sized_tombstone (version : UInt64) : (tombstone version).Sized :=
  ⟨by simp [tombstone], by simp [tombstone], by simp [tombstone]⟩

lemma sized_adopt (h : op.Sized) : (adopt op).Sized :=
  ⟨h.data, h.rawFilePath, h.segmentPath⟩

lemma sized_migrated (base : ValueMessage) (h : op.Sized) : (migrated base op).Sized :=
  ⟨h.data, by simp [migrated], h.segmentPath⟩

/-- Every operand leaves the base, a tombstone, or a row made of the operand's own fields. -/
theorem applyOperand_cases (base : Option ValueMessage) (op : ValueMessage) :
    applyOperand base op = base ∨ (∃ v, applyOperand base op = some (tombstone v)) ∨
      applyOperand base op = some (adopt op) ∨
      ∃ b, base = some b ∧ applyOperand base op = some (migrated b op) := by
  unfold applyOperand
  split
  · -- A CAS put is adopted or dropped.
    cases base with
    | none => exact .inr (.inr (.inl rfl))
    | some b =>
      simp only [applyCasPut]
      split
      · exact .inr (.inr (.inl rfl))
      · exact .inl rfl
  · -- A CAS delete leaves a tombstone or is dropped.
    cases base with
    | none =>
      simp only [applyCasDelete]
      split <;> exact .inr (.inl ⟨_, rfl⟩)
    | some b =>
      simp only [applyCasDelete]
      split
      · exact .inr (.inl ⟨_, rfl⟩)
      · exact .inl rfl
  · -- Purges and migrations never create a row.
    cases base with
    | none => exact .inl (by simp [applyPurge, applyMigration])
    | some b =>
      simp only [applyPurge, applyMigration]
      split
      · split
        · exact .inr (.inl ⟨_, rfl⟩)
        · exact .inl rfl
      · split
        · exact .inr (.inr (.inr ⟨b, rfl, rfl⟩))
        · exact .inl rfl

variable (hbase : ∀ b ∈ base, b.Sized)

include hbase

lemma sized_applyOperand (hop : op.Sized) : ∀ b ∈ applyOperand base op, b.Sized := by
  rcases applyOperand_cases base op with h | ⟨v, h⟩ | h | ⟨b, rfl, h⟩
  · rwa [h]
  · simpa [h] using sized_tombstone v
  · simpa [h] using sized_adopt hop
  · simpa [h] using sized_migrated b hop

lemma sized_applyOperandBytes (operand : List UInt8) :
    ∀ b ∈ applyOperandBytes base operand, b.Sized := by
  unfold applyOperandBytes
  split
  · exact hbase
  · rename_i op hop
    exact sized_applyOperand hbase (ValueMessage.sized_of_unmarshal hop)

lemma sized_foldl (operands : List (List UInt8)) :
    ∀ b ∈ operands.foldl applyOperandBytes base, b.Sized := by
  induction operands generalizing base with
  | nil => exact hbase
  | cons operand operands ih => exact ih (sized_applyOperandBytes hbase operand)

end Sized

lemma marshal_tombstone_zero : (tombstone 0).marshal = expiredSentinel := by decide

lemma encodeResult_eq_marshal (base : Option ValueMessage) :
    encodeResult base = (base.getD (tombstone 0)).marshal := by
  cases base with
  | none => exact marshal_tombstone_zero.symm
  | some b => rfl

lemma decodeBase_marshal {row : Option ValueMessage} (h : ∀ b ∈ row, b.Sized) :
    decodeBase ((row.map ValueMessage.marshal).getD []) = some (baseOf row) := by
  cases row with
  | none => rfl
  | some b =>
    have hb : b.Sized := h b rfl
    by_cases hempty : b = {}
    · subst hempty
      rfl
    · have hne : b.marshal ≠ [] := fun hnil => hempty (ValueMessage.marshal_eq_nil_iff.mp hnil)
      simp [decodeBase, baseOf, hne, hempty, ValueMessage.unmarshal_marshal hb]

lemma foldl_applyOperandBytes_marshal {operands : List ValueMessage}
    (h : ∀ op ∈ operands, op.Sized) (base : Option ValueMessage) :
    (operands.map ValueMessage.marshal).foldl applyOperandBytes base =
      operands.foldl applyOperand base := by
  induction operands generalizing base with
  | nil => rfl
  | cons op operands ih =>
    have hop : op.Sized := h op (by simp)
    rw [List.map_cons, List.foldl_cons, List.foldl_cons, ih fun o ho => h o (by simp [ho])]
    simp [applyOperandBytes, ValueMessage.unmarshal_marshal hop]

/-- The operator on bytes stores the encoding of what the operator on rows computes. -/
theorem fullMerge_marshal {key : List UInt8} (hkey : Keys.isMetadataKey key = true)
    {row : Option ValueMessage} {operands : List ValueMessage} (hrow : ∀ b ∈ row, b.Sized)
    (hops : ∀ op ∈ operands, op.Sized) :
    fullMerge key ((row.map ValueMessage.marshal).getD []) (operands.map ValueMessage.marshal) =
      (mergeRow row operands).marshal := by
  rw [fullMerge_of_isMetadataKey hkey, mergeMetadataCAS, decodeBase_marshal hrow, mergeRow,
    ← encodeResult_eq_marshal, ← foldl_applyOperandBytes_marshal hops]

theorem fullMerge_marshal_onePut :
    let row : ValueMessage := { version := 1 }
    let put : ValueMessage := { version := 2, opType := .casPut, casExpectedVersion := 1 }
    fullMerge (Keys.makeMetadataKey [107]) row.marshal [put.marshal] =
      (mergeRow (some row) [put]).marshal := by
  intro row put
  have hrow : row.Sized := by constructor <;> decide
  have hput : put.Sized := by constructor <;> decide
  exact @fullMerge_marshal _ (by decide) (some row) [put] (by simp [hrow]) (by simp [hput])

end OCache.Merge
