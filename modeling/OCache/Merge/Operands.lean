import OCache.Merge.Operator

/-!
# The operands the store builds

Every metadata operand comes from one of five places: `PutIfVersion` and `DeleteIfVersion`, which
stamp the row, the compactor, which moves a raw file into a segment, the recompactor, which moves an
entry from one segment to the next, and a purge of a row whose raw file is missing. Lemmas here say
what merging each of them leaves behind; the systems built on top use these and do not look into the
operator.
-/

namespace OCache.Merge

/-! ## Compare-and-swap -/

/-- Where the bytes of a CAS put went: into the row, or into a raw file of their own. -/
inductive Payload where
  | inline (data : List UInt8)
  | rawFile (path : String) (length : Int64) (checksum : UInt32)
deriving DecidableEq

/-- The operand of `PutIfVersion`. -/
def casPutOperand (payload : Payload) (expiry : Int64) (stamp expected : UInt64) : ValueMessage :=
  match payload with
  | .inline data =>
    { valueType := .inline, data := data, expiry := expiry, version := stamp
      valueLength := Int64.ofNat data.length, opType := .casPut, casExpectedVersion := expected }
  | .rawFile path length checksum =>
    { valueType := .rawFile, rawFilePath := path, expiry := expiry, version := stamp
      valueLength := length, checksum := checksum, opType := .casPut
      casExpectedVersion := expected }

/-- The operand of `DeleteIfVersion`. -/
def casDeleteOperand (stamp expected : UInt64) : ValueMessage :=
  { version := stamp, opType := .casDelete, casExpectedVersion := expected }

section Fields

variable (payload : Payload) (expiry : Int64) (stamp expected : UInt64)

@[simp] lemma casPutOperand_opType :
    (casPutOperand payload expiry stamp expected).opType = .casPut := by
  cases payload <;> rfl

@[simp] lemma casPutOperand_version :
    (casPutOperand payload expiry stamp expected).version = stamp := by
  cases payload <;> rfl

@[simp] lemma casPutOperand_expiry :
    (casPutOperand payload expiry stamp expected).expiry = expiry := by
  cases payload <;> rfl

@[simp] lemma casPutOperand_casExpectedVersion :
    (casPutOperand payload expiry stamp expected).casExpectedVersion = expected := by
  cases payload <;> rfl

@[simp] lemma casDeleteOperand_opType : (casDeleteOperand stamp expected).opType = .casDelete :=
  rfl

@[simp] lemma casDeleteOperand_version : (casDeleteOperand stamp expected).version = stamp := rfl

@[simp] lemma casDeleteOperand_casExpectedVersion :
    (casDeleteOperand stamp expected).casExpectedVersion = expected := rfl

end Fields

variable {base : ValueMessage}

lemma eq_some_of_baseOf {row : Option ValueMessage} (h : baseOf row = some base) :
    row = some base := by
  unfold baseOf at h
  split at h
  · simp at h
  · exact h

def isCas (op : ValueMessage) : Bool := op.opType = .casPut ∨ op.opType = .casDelete

/-- The CAS operand applies to the stored row: a put to any missing row, a delete to a missing row
only if it expects none, and both to a row that matches. -/
def applies (row : Option ValueMessage) (op : ValueMessage) : Bool :=
  match baseOf row with
  | none => op.opType = .casPut ∨ op.casExpectedVersion = 0
  | some base => casMatches base op.casExpectedVersion

/-- The row a CAS operand leaves when it applies. -/
def casResult (op : ValueMessage) : ValueMessage :=
  if op.opType = .casPut then adopt op else tombstone op.version

variable {op : ValueMessage}

/-- A CAS operand leaves its own row if it applies. Otherwise the base stays, and a missing one
becomes an unstamped tombstone. -/
theorem mergeRow_cas (hop : isCas op = true) (row : Option ValueMessage) :
    mergeRow row [op] =
      if applies row op then casResult op else (baseOf row).getD (tombstone 0) := by
  simp only [isCas, decide_eq_true_eq] at hop
  rcases hop with hput | hdel
  · cases hbase : baseOf row with
    | none => simp [mergeRow, hbase, applyOperand, hput, applyCasPut, applies, casResult]
    | some base =>
      by_cases hmatch : casMatches base op.casExpectedVersion = true
      · simp [mergeRow, hbase, applyOperand, hput, applyCasPut, applies, casResult, hmatch]
      · simp [mergeRow, hbase, applyOperand, hput, applyCasPut, applies, hmatch]
  · cases hbase : baseOf row with
    | none =>
      by_cases hexp : op.casExpectedVersion = 0
      · simp [mergeRow, hbase, applyOperand, hdel, applyCasDelete, applies, casResult, hexp]
      · simp [mergeRow, hbase, applyOperand, hdel, applyCasDelete, applies, hexp]
    | some base =>
      by_cases hmatch : casMatches base op.casExpectedVersion = true
      · simp [mergeRow, hbase, applyOperand, hdel, applyCasDelete, applies, casResult, hmatch]
      · simp [mergeRow, hbase, applyOperand, hdel, applyCasDelete, applies, hmatch]

@[simp] lemma casResult_version : (casResult op).version = op.version := by
  unfold casResult
  split <;> rfl

@[simp] lemma casResult_opType : (casResult op).opType = .none := by
  unfold casResult
  split <;> rfl

lemma casResult_expiry_of_casPut (h : op.opType = .casPut) : (casResult op).expiry = op.expiry := by
  simp [casResult, h, adopt]

lemma casResult_of_casDelete (h : op.opType = .casDelete) :
    casResult op = tombstone op.version := by
  simp [casResult, h]

/-! ## Migration -/

/-- The operand of the compactor: the row it read, at its new place in a segment. The raw file path
stays as the precondition. -/
def compactionOperand (row : ValueMessage) (segmentPath : String) (segmentOffset : Int64) :
    ValueMessage :=
  { row with
    valueType := .segment, segmentPath := segmentPath, segmentOffset := segmentOffset }

/-- The operand of the recompactor: the row it read, at its new place. The old segment is the
precondition. -/
def recompactionOperand (row : ValueMessage) (segmentPath : String) (segmentOffset : Int64) :
    ValueMessage :=
  { row with
    segmentPath := segmentPath, segmentOffset := segmentOffset, rawFilePath := row.segmentPath }

/-- The operand a migration builds from the row it read, if that row can be migrated. -/
def migrationOperand (row : ValueMessage) (segmentPath : String) (segmentOffset : Int64) :
    Option ValueMessage :=
  match row.valueType with
  | .rawFile => some (compactionOperand row segmentPath segmentOffset)
  | .segment => some (recompactionOperand row segmentPath segmentOffset)
  | _ => none

/-- Merging a migration leaves the row alone, or moves it under the version it had. -/
theorem mergeRow_migration (hop : op.opType = .none) (hsegment : op.valueType = .segment)
    (row : Option ValueMessage) :
    mergeRow row [op] = (baseOf row).getD (tombstone 0) ∨
      ∃ base, row = some base ∧ pathMatches base op = true ∧
        mergeRow row [op] = migrated base op := by
  have hpurge : isPurge op = false := by simp [isPurge, hsegment]
  cases hbase : baseOf row with
  | none => exact .inl (by simp [mergeRow, hbase, applyOperand, hop, hpurge, applyMigration])
  | some base =>
    have hrow := eq_some_of_baseOf hbase
    by_cases hmatch : op.rawFilePath ≠ "" ∧ pathMatches base op = true
    · refine .inr ⟨base, hrow, hmatch.2, ?_⟩
      simp [mergeRow, hbase, applyOperand, hop, hpurge, applyMigration, hsegment, hmatch]
    · refine .inl ?_
      simp only [mergeRow, hbase, List.foldl_cons, List.foldl_nil, applyOperand, hop, hpurge,
        applyMigration, hsegment, true_and]
      rw [if_neg (by simp), if_neg hmatch]

lemma migrationOperand_spec {row : ValueMessage} {segmentPath : String} {segmentOffset : Int64}
    (h : migrationOperand row segmentPath segmentOffset = some op) :
    row.valueType ≠ .inline ∧ op.valueType = .segment ∧ op.opType = row.opType ∧
      op.expiry = row.expiry := by
  unfold migrationOperand at h
  split at h
  · rename_i htype
    simp only [Option.some.injEq] at h
    exact h ▸ ⟨by simp [htype], rfl, rfl, rfl⟩
  · rename_i htype
    simp only [Option.some.injEq] at h
    exact h ▸ ⟨by simp [htype], htype, rfl, rfl⟩
  · simp at h

lemma valueType_of_pathMatches (h : pathMatches base op = true) : base.valueType ≠ .inline := by
  simp only [pathMatches, decide_eq_true_eq] at h
  rcases h with h | h <;> simp [h.1]

/-! ## Background operands -/

/-- `MakeRawFilePurgeOperand`. -/
def purgeOperand (path : String) : ValueMessage :=
  { valueType := .rawFile, rawFilePath := path }

/-- A migration or a purge. Its raw file path is the path that the row must still have. -/
structure Background (op : ValueMessage) : Prop where
  opType : op.opType = .none
  path : op.rawFilePath ≠ ""
  kind : op.valueType = .segment ∨ op.valueType = .rawFile

lemma background_purgeOperand {path : String} (h : path ≠ "") : Background (purgeOperand path) :=
  ⟨rfl, h, .inr rfl⟩

section Background

variable {op : ValueMessage}

lemma mergeRow_purge (hop : Background op) (hraw : op.valueType = .rawFile)
    (row : Option ValueMessage) :
    mergeRow row [op] =
      match baseOf row with
      | none => tombstone 0
      | some base =>
        if base.valueType = .rawFile ∧ base.rawFilePath = op.rawFilePath then tombstone 0
        else base := by
  have hpurge : isPurge op = true := by simp [isPurge, hraw, hop.path]
  cases hbase : baseOf row with
  | none => simp [mergeRow, hbase, applyOperand, hop.opType, hpurge, applyPurge]
  | some base =>
    by_cases hmatch : base.valueType = .rawFile ∧ base.rawFilePath = op.rawFilePath
    · simp [mergeRow, hbase, applyOperand, hop.opType, hpurge, applyPurge, hmatch]
    · simp [mergeRow, hbase, applyOperand, hop.opType, hpurge, applyPurge, if_neg hmatch]

/-- A background operand leaves an unstamped tombstone, the row as it was, or the row at its new
place. -/
theorem mergeRow_background (hop : Background op) (row : Option ValueMessage) :
    mergeRow row [op] = tombstone 0 ∨ row = some (mergeRow row [op]) ∨
      (op.valueType = .segment ∧ ∃ base, row = some base ∧ pathMatches base op = true ∧
        mergeRow row [op] = migrated base op) := by
  have hkept : mergeRow row [op] = (baseOf row).getD (tombstone 0) →
      mergeRow row [op] = tombstone 0 ∨ row = some (mergeRow row [op]) := by
    intro h
    cases hbase : baseOf row with
    | none => exact .inl (by rw [h, hbase]; rfl)
    | some base => exact .inr (by rw [h, hbase]; exact eq_some_of_baseOf hbase)
  rcases hop.kind with hsegment | hraw
  · rcases mergeRow_migration hop.opType hsegment row with h | ⟨base, hrow, hmatch, h⟩
    · exact (hkept h).imp_right .inl
    · exact .inr (.inr ⟨hsegment, base, hrow, hmatch, h⟩)
  · have h := mergeRow_purge hop hraw row
    cases hbase : baseOf row with
    | none =>
      rw [hbase] at h
      exact .inl h
    | some base =>
      rw [hbase] at h
      dsimp only at h
      split at h
      · exact .inl h
      · exact .inr (.inl (by rw [h]; exact eq_some_of_baseOf hbase))

variable {row : ValueMessage}

lemma baseOf_of_ne_inline (h : row.valueType ≠ .inline) : baseOf (some row) = some row := by
  unfold baseOf
  split
  · rename_i hdefault
    cases hdefault
    exact absurd rfl h
  · rfl

/-- A row that is still at the path a migration started from is moved. -/
theorem mergeRow_of_pathMatches (hop : Background op) (hsegment : op.valueType = .segment)
    (hmatch : pathMatches row op = true) : mergeRow (some row) [op] = migrated row op := by
  have hbase := baseOf_of_ne_inline (valueType_of_pathMatches hmatch)
  have hpurge : isPurge op = false := by simp [isPurge, hsegment]
  simp [mergeRow, hbase, applyOperand, hop.opType, hpurge, applyMigration, hsegment, hop.path,
    hmatch]

/-- A background operand takes the raw file it names off the row. -/
theorem mergeRow_valueType_of_rawFile (hop : Background op) (hraw : row.valueType = .rawFile)
    (hpath : row.rawFilePath = op.rawFilePath) :
    (mergeRow (some row) [op]).valueType ≠ .rawFile := by
  rcases hop.kind with hsegment | hpurge
  · rw [mergeRow_of_pathMatches hop hsegment (by simp [pathMatches, hraw, hpath])]
    simp [migrated, hsegment]
  · rw [mergeRow_purge hop hpurge, baseOf_of_ne_inline (by simp [hraw])]
    simp [hraw, hpath, tombstone]

end Background

/-! ## Compare-and-swap on stored bytes -/

/-- Every length of the payload can be written as a 64-bit prefix. -/
def Payload.Sized : Payload → Prop
  | .inline data => data.length < 2 ^ 64
  | .rawFile path _ _ => path.toUTF8.data.toList.length < 2 ^ 64

lemma sized_casPutOperand {payload : Payload} (h : payload.Sized) (expiry : Int64)
    (stamp expected : UInt64) : (casPutOperand payload expiry stamp expected).Sized := by
  cases payload with
  | inline data => exact ⟨h, by simp [casPutOperand], by simp [casPutOperand]⟩
  | rawFile path length checksum => exact ⟨by simp [casPutOperand], h, by simp [casPutOperand]⟩

lemma sized_casDeleteOperand (stamp expected : UInt64) : (casDeleteOperand stamp expected).Sized :=
  ⟨by simp [casDeleteOperand], by simp [casDeleteOperand], by simp [casDeleteOperand]⟩

/-- The CAS operand leaves a row of its own over the stored bytes. A missing row gets one in any
case, bytes that do not decode are kept. -/
def lands (existingValue : List UInt8) (op : ValueMessage) : Bool :=
  match decodeBase existingValue with
  | none => false
  | some none => true
  | some (some base) => casMatches base op.casExpectedVersion

section Bytes

variable {op : ValueMessage} {existingValue : List UInt8}

lemma unmarshal_of_decodeBase {base : ValueMessage}
    (h : decodeBase existingValue = some (some base)) :
    ValueMessage.unmarshal existingValue = some base := by
  unfold decodeBase at h
  split at h
  · simp at h
  · obtain ⟨m, hm, heq⟩ := Option.map_eq_some_iff.mp h
    rw [hm, Option.some_inj.mp heq]

variable {base : Option ValueMessage}

lemma mergeMetadataCAS_marshal (hsized : op.Sized) (h : decodeBase existingValue = some base) :
    mergeMetadataCAS existingValue [op.marshal] = encodeResult (applyOperand base op) := by
  simp [mergeMetadataCAS, h, applyOperandBytes, ValueMessage.unmarshal_marshal hsized]

/-- What is stored after an operand over a base that decodes decodes again. -/
theorem unmarshal_mergeMetadataCAS (hsized : op.Sized) (h : decodeBase existingValue = some base) :
    ValueMessage.unmarshal (mergeMetadataCAS existingValue [op.marshal]) =
      some ((applyOperand base op).getD (tombstone 0)) := by
  have hbase : ∀ b ∈ base, b.Sized := by
    rintro b rfl
    exact ValueMessage.sized_of_unmarshal (unmarshal_of_decodeBase h)
  rw [mergeMetadataCAS_marshal hsized h, encodeResult_eq_marshal]
  apply ValueMessage.unmarshal_marshal
  cases hrow : applyOperand base op with
  | none => exact sized_tombstone 0
  | some row => exact sized_applyOperand hbase hsized row hrow

/-- An operand that does not land leaves the message that was stored. -/
theorem unmarshal_mergeMetadataCAS_of_not_lands (hsized : op.Sized) (hcas : isCas op = true)
    (h : lands existingValue op = false) :
    ValueMessage.unmarshal (mergeMetadataCAS existingValue [op.marshal]) =
      ValueMessage.unmarshal existingValue := by
  unfold lands at h
  split at h
  · rename_i hbase
    simp [mergeMetadataCAS, hbase]
  · simp at h
  · rename_i base hbase
    have hrow := unmarshal_of_decodeBase hbase
    have hkept : applyOperand (some base) op = some base := by
      simp only [isCas, decide_eq_true_eq] at hcas
      rcases hcas with hput | hdelete
      · simp [applyOperand, hput, applyCasPut, h]
      · simp [applyOperand, hdelete, applyCasDelete, h]
    rw [unmarshal_mergeMetadataCAS hsized hbase, hkept, hrow]
    rfl

end Bytes

end OCache.Merge
