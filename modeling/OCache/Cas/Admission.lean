import OCache.Store.State

/-!
# Admission before the merge and in the merge

`PutIfVersion` and `DeleteIfVersion` read the row, decide whether the call can still win, and build
an operand. The merge operator decides again, on the stored bytes and without a clock. An expired
row is absent to the first and live to the second, so the calls replace the version they expect by
the one stored in such a row.

The two decide alike over every row but one: the message with all fields at their default is stored
as no bytes, and no bytes are no row to the operator. `Put` of the empty value without an expiry
leaves it.
-/

namespace OCache.Cas

open Merge

/-! ## The calls up to their merge -/

/-- The row as a call reads it: `none` if it does not decode, `some none` if there is none. -/
def readRowForCAS (stored : Option (List UInt8)) : Option (Option ValueMessage) :=
  match stored with
  | none => some none
  | some b => (ValueMessage.unmarshal b).map some

/-- How a call ends its check. -/
inductive Checked where
  | unreadable
  | mismatch (cur : UInt64)
  | proceeds (operand : ValueMessage)
deriving DecidableEq

/-- `PutIfVersion`, from the read before its merge to the operand. -/
def PutIfVersion.check (now : Int64) (stored : Option (List UInt8)) (expected : UInt64)
    (payload : Payload) (expiry : Int64) (stamp : UInt64) : Checked :=
  match readRowForCAS stored with
  | none => .unreadable
  | some prev =>
    if casAdmits (casClassify now prev).1 (casClassify now prev).2 expected then
      .proceeds (casPutOperand payload expiry stamp (carriedVersion now prev expected))
    else .mismatch (casClassify now prev).2

/-- `DeleteIfVersion`, from its read to the operand. -/
def DeleteIfVersion.check (now : Int64) (stored : Option (List UInt8)) (expected stamp : UInt64) :
    Checked :=
  match readRowForCAS stored with
  | none => .unreadable
  | some prev =>
    if deleteAdmits (casClassify now prev).1 (casClassify now prev).2 expected then
      .proceeds (casDeleteOperand stamp (carriedVersion now prev expected))
    else .mismatch (casClassify now prev).2

/-- `FullMerge` of one operand into the row of a user key. -/
def mergeStored (userKey : List UInt8) (stored : Option (List UInt8)) (operand : ValueMessage) :
    List UInt8 :=
  fullMerge (Keys.makeMetadataKey userKey) (stored.getD []) [operand.marshal]

/-- The two decisions about a row agree: a call that proceeds leaves its stamp on the row, and the
put that is rejected would leave the row as it is. -/
structure AdmissionAgrees (userKey : List UInt8) (now : Int64) (stored : Option (List UInt8))
    (expected : UInt64) (payload : Payload) (expiry : Int64) (stamp : UInt64) : Prop where
  put : ∀ operand, PutIfVersion.check now stored expected payload expiry stamp = .proceeds operand →
    (ValueMessage.unmarshal (mergeStored userKey stored operand)).map (·.version) = some stamp
  delete : ∀ operand, DeleteIfVersion.check now stored expected stamp = .proceeds operand →
    (ValueMessage.unmarshal (mergeStored userKey stored operand)).map (·.version) = some stamp
  rejected : ∀ cur, PutIfVersion.check now stored expected payload expiry stamp = .mismatch cur →
    ValueMessage.unmarshal
      (mergeStored userKey stored (casPutOperand payload expiry stamp expected)) =
      stored.bind ValueMessage.unmarshal

/-! ## Rows -/

section Rows

variable {now : Int64} {row : ValueMessage} {expected : UInt64}

/-- An operand that is admitted against a row fits it. -/
theorem casMatches_carriedVersion
    (h : casAdmits (casClassify now (some row)).1 (casClassify now (some row)).2 expected = true) :
    casMatches row (carriedVersion now (some row) expected) = true := by
  by_cases htomb : row.expiry = tombstoneExpiry
  · by_cases hzero : row.version = 0
    · simp [casMatches, carriedVersion, htomb, fenceAdmits, hzero]
    · have hfence : expected = 0 ∨ row.version ≤ expected := by
        simpa [casClassify, htomb, hzero, casAdmits] using h
      simpa [casMatches, carriedVersion, htomb, fenceAdmits] using hfence
  · by_cases hexpired : 0 < row.expiry ∧ row.expiry ≤ now
    · simp [casMatches, carriedVersion, casClassify, htomb, hexpired]
    · have hlive : effectiveRowVersion (some row) = expected := by
        simpa [casClassify, htomb, hexpired, casAdmits] using h
      simp [casMatches, carriedVersion, casClassify, htomb, hexpired, hlive]

/-- A version that is not admitted against a row does not fit it: only live rows and fences
reject. -/
theorem casMatches_eq_false
    (h : casAdmits (casClassify now (some row)).1 (casClassify now (some row)).2 expected = false) :
    casMatches row expected = false := by
  by_cases htomb : row.expiry = tombstoneExpiry
  · by_cases hzero : row.version = 0
    · simp [casClassify, htomb, hzero, casAdmits] at h
    · simpa [casClassify, htomb, hzero, casAdmits, casMatches, fenceAdmits] using h
  · by_cases hexpired : 0 < row.expiry ∧ row.expiry ≤ now
    · simp [casClassify, htomb, hexpired, casAdmits] at h
    · simpa [casClassify, htomb, hexpired, casAdmits, casMatches] using h

lemma casAdmits_of_deleteAdmits {state : RowState} {cur : UInt64}
    (h : deleteAdmits state cur expected = true) : casAdmits state cur expected = true := by
  cases state
  case absent => rfl
  all_goals exact h

end Rows

/-! ## Stored rows -/

section Stored

variable {userKey : List UInt8} {stored : Option (List UInt8)} {operand : ValueMessage}

lemma mergeStored_eq (userKey : List UInt8) (stored : Option (List UInt8))
    (operand : ValueMessage) :
    mergeStored userKey stored operand = mergeMetadataCAS (stored.getD []) [operand.marshal] :=
  fullMerge_of_isMetadataKey (Keys.isMetadataKey_iff.mpr ⟨userKey, rfl⟩) _ _

variable {prev : Option ValueMessage}

/-- A row that is stored as some bytes is the base that the operator works on. -/
theorem decodeBase_of_readRowForCAS (hne : stored ≠ some [])
    (h : readRowForCAS stored = some prev) : decodeBase (stored.getD []) = some prev := by
  cases stored with
  | none => exact h
  | some b =>
    have hb : b ≠ [] := by simpa using hne
    rw [Option.getD_some, decodeBase, if_neg hb]
    exact h

variable (userKey) in
/-- An operand leaves its stamp if it is a put over no row, a delete over no row that expects none,
or fits the row. -/
theorem version_mergeStored (hsized : operand.Sized) (hcas : isCas operand = true)
    (hbase : decodeBase (stored.getD []) = some prev)
    (habsent : prev = none → operand.opType = .casPut ∨ operand.casExpectedVersion = 0)
    (hmatch : ∀ row, prev = some row → casMatches row operand.casExpectedVersion = true) :
    (ValueMessage.unmarshal (mergeStored userKey stored operand)).map (·.version) =
      some operand.version := by
  rw [mergeStored_eq, unmarshal_mergeMetadataCAS hsized hbase]
  simp only [isCas, decide_eq_true_eq] at hcas
  cases prev with
  | none =>
    rcases hcas with hput | hdelete
    · simp [applyOperand, hput, applyCasPut, adopt]
    · have hzero : operand.casExpectedVersion = 0 := by simpa [hdelete] using habsent rfl
      simp [applyOperand, hdelete, applyCasDelete, hzero, tombstone]
  | some row =>
    have hrow := hmatch row rfl
    rcases hcas with hput | hdelete
    · simp [applyOperand, hput, applyCasPut, hrow, adopt]
    · simp [applyOperand, hdelete, applyCasDelete, hrow, tombstone]

/-! ## Agreement -/

variable {now : Int64} {expected stamp : UInt64} {payload : Payload} {expiry : Int64}

lemma put_of_ne (hsized : payload.Sized) (hne : stored ≠ some [])
    (h : PutIfVersion.check now stored expected payload expiry stamp = .proceeds operand) :
    (ValueMessage.unmarshal (mergeStored userKey stored operand)).map (·.version) = some stamp := by
  unfold PutIfVersion.check at h
  split at h
  · cases h
  · rename_i prev hread
    split at h
    · rename_i hadmits
      cases h
      have hversion := version_mergeStored userKey
        (sized_casPutOperand hsized expiry stamp (carriedVersion now prev expected))
        (by simp [isCas]) (decodeBase_of_readRowForCAS hne hread) (fun _ => .inl (by simp))
        (by
          rintro row rfl
          simpa using casMatches_carriedVersion hadmits)
      simpa using hversion
    · cases h

lemma delete_of_ne (hne : stored ≠ some [])
    (h : DeleteIfVersion.check now stored expected stamp = .proceeds operand) :
    (ValueMessage.unmarshal (mergeStored userKey stored operand)).map (·.version) = some stamp := by
  unfold DeleteIfVersion.check at h
  split at h
  · cases h
  · rename_i prev hread
    split at h
    · rename_i hadmits
      cases h
      refine version_mergeStored _ (sized_casDeleteOperand stamp _) (by simp [isCas])
        (decodeBase_of_readRowForCAS hne hread) ?_ ?_
      · -- Only a delete that expects no version proceeds without a row.
        rintro rfl
        exact .inr (by simpa [deleteAdmits, casClassify, carriedVersion] using hadmits)
      · rintro row rfl
        simpa using casMatches_carriedVersion (casAdmits_of_deleteAdmits hadmits)
    · cases h

lemma rejected_of_ne (hsized : payload.Sized) (hne : stored ≠ some []) {cur : UInt64}
    (h : PutIfVersion.check now stored expected payload expiry stamp = .mismatch cur) :
    ValueMessage.unmarshal
      (mergeStored userKey stored (casPutOperand payload expiry stamp expected)) =
      stored.bind ValueMessage.unmarshal := by
  unfold PutIfVersion.check at h
  split at h
  · cases h
  · rename_i prev hread
    split at h
    · cases h
    · rename_i hadmits
      cases stored with
      | none =>
        cases hread
        simp [casClassify, casAdmits] at hadmits
      | some b =>
        obtain ⟨row, hrow, rfl⟩ := Option.map_eq_some_iff.mp hread
        rw [mergeStored_eq, unmarshal_mergeMetadataCAS_of_not_lands
          (sized_casPutOperand hsized expiry stamp expected) (by simp [isCas])]
        · rfl
        · have hmatch := casMatches_eq_false (by simpa using hadmits)
          have hbase : decodeBase b = some (some row) := decodeBase_of_readRowForCAS hne hread
          simp [lands, hbase, hmatch]

/-- The row without bytes: the calls find a live row with the version of unversioned rows, the
operator finds no row. -/
theorem not_agrees_empty (hsized : payload.Sized) (hstamp : stamp ≠ 0) :
    ¬AdmissionAgrees userKey now (some []) expected payload expiry stamp := by
  intro h
  have hread : readRowForCAS (some []) = some (some {}) := rfl
  have hclassify : casClassify now (some {}) = (.live, versionLegacy) := by
    simp [casClassify, tombstoneExpiry, effectiveRowVersion]
  have hbase : decodeBase ((some [] : Option (List UInt8)).getD []) = some none := rfl
  by_cases hlegacy : versionLegacy = expected
  · -- The delete proceeds, and leaves the tombstone of a delete that did not apply.
    have hcheck : DeleteIfVersion.check now (some []) expected stamp =
        .proceeds (casDeleteOperand stamp expected) := by
      simp [DeleteIfVersion.check, hread, hclassify, deleteAdmits, casAdmits, hlegacy, carriedVersion]
    have hversion := h.delete _ hcheck
    rw [mergeStored_eq, unmarshal_mergeMetadataCAS (sized_casDeleteOperand stamp expected) hbase]
      at hversion
    have hne : expected ≠ 0 := by
      rw [← hlegacy]
      decide
    simp [applyOperand, applyCasDelete, hne, tombstone] at hversion
    exact hstamp hversion.symm
  · -- The put is rejected, and would be stored.
    have hcheck : PutIfVersion.check now (some []) expected payload expiry stamp =
        .mismatch versionLegacy := by
      simp [PutIfVersion.check, hread, hclassify, casAdmits, hlegacy]
    have hrow := h.rejected _ hcheck
    rw [mergeStored_eq,
      unmarshal_mergeMetadataCAS (sized_casPutOperand hsized expiry stamp expected) hbase] at hrow
    have hversion := congrArg (Option.map (·.version)) hrow
    simp [applyOperand, applyCasPut, adopt, ValueMessage.unmarshal, Protowire.Schema.unmarshal,
      ValueMessage.schema] at hversion
    exact hstamp hversion

end Stored

/-- For every stored row, time and expected version: the checks and the merge operator agree exactly
if the row is not the one without bytes. -/
theorem admissionAgrees_iff (userKey : List UInt8) (now : Int64) (stored : Option (List UInt8))
    (expected : UInt64) (payload : Payload) (expiry : Int64) (stamp : UInt64)
    (hsized : payload.Sized) (hstamp : stamp ≠ 0) :
    AdmissionAgrees userKey now stored expected payload expiry stamp ↔ stored ≠ some [] := by
  constructor
  · rintro h rfl
    exact not_agrees_empty hsized hstamp h
  · intro hne
    exact ⟨fun _ => put_of_ne hsized hne, fun _ => delete_of_ne hne, fun _ => rejected_of_ne hsized hne⟩

/-- A value that is expired and not swept yet. -/
def expiredRow : ValueMessage := { expiry := 50, version := 7, data := [1], valueLength := 1 }

theorem admissionAgrees_expiredRow :
    AdmissionAgrees [107] 100 (some expiredRow.marshal) 0 (.inline [2]) 0 9 :=
  (admissionAgrees_iff [107] 100 (some expiredRow.marshal) 0 (.inline [2]) 0 9
    (by simp [Payload.Sized]) (by decide)).mpr (by decide)

/-- The row that `Put` leaves for the empty value without an expiry has no bytes. A delete that
expects its version proceeds and leaves no stamp, and a put that is rejected would be stored. -/
theorem put_empty_disagrees :
    (Store.putRow (.inline []) 0).marshal = [] ∧
      DeleteIfVersion.check 100 (some []) 1 9 = .proceeds (casDeleteOperand 9 1) ∧
      mergeStored [107] (some []) (casDeleteOperand 9 1) = (tombstone 0).marshal ∧
      PutIfVersion.check 100 (some []) 5 (.inline [2]) 0 9 = .mismatch 1 ∧
      mergeStored [107] (some []) (casPutOperand (.inline [2]) 0 9 5) =
        (casResult (casPutOperand (.inline [2]) 0 9 5)).marshal ∧
      ¬AdmissionAgrees [107] 100 (some (Store.putRow (.inline []) 0).marshal) 5 (.inline [2]) 0 9 :=
  ⟨by decide, by decide, by decide, by decide, by decide,
    not_agrees_empty (by simp [Payload.Sized]) (by decide)⟩

end OCache.Cas
