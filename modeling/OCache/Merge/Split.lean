import OCache.Merge.Operands

/-!
# Grouping of merge operands

RocksDB may fold the operands of a key in any grouping: all at once when the key is read, or a first
part at compaction time and the rest on top of what was stored. The two agree when the row the
operator holds between the parts survives being stored and loaded again. Two rows do not. The
absence of a base is stored as the unstamped tombstone, and the row with all fields at their default
is stored as no bytes, which is loaded as the absence of a base.
-/

namespace OCache.Merge

open ValueMessage (unmarshal)

/-- The row stored for a metadata key when `operands` are resolved on a stored byte string, or on no
row. -/
def resolve (key : List UInt8) (row : Option (List UInt8)) (operands : List (List UInt8)) :
    List UInt8 :=
  fullMerge key (row.getD []) operands

/-- One call on `a ++ b` stores the row that a call on `a` and then a call on `b` store. -/
def SplitLaw (key : List UInt8) (row : Option (List UInt8)) (a b : List (List UInt8)) : Prop :=
  resolve key row (a ++ b) = resolve key (some (resolve key row a)) b

instance (key : List UInt8) (row : Option (List UInt8)) (a b : List (List UInt8)) :
    Decidable (SplitLaw key row a b) :=
  inferInstanceAs (Decidable (_ = _))

/-- The row the operator holds after `operands`, or `none` if the base does not decode. -/
def heldAfter (row : Option (List UInt8)) (operands : List (List UInt8)) :
    Option (Option ValueMessage) :=
  (decodeBase (row.getD [])).map (operands.foldl applyOperandBytes)

/-- The first operand that carries a version precondition. -/
def firstCas (operands : List (List UInt8)) : Option ValueMessage :=
  (operands.filterMap unmarshal).find? isCas

/-- The operand is a delete guarded by a version that would leave a stamp of its own. -/
def isGuardedDelete (op : ValueMessage) : Bool :=
  op.opType = .casDelete ∧ op.casExpectedVersion ≠ 0 ∧ op.version ≠ 0

/-- The operand resolves alike on the all-default row and on no row. -/
def overridesDefault (op : ValueMessage) : Bool :=
  (op.opType = .casPut ∧ (op.casExpectedVersion = versionLegacy ∨ adopt op = {})) ∨
    (op.opType = .casDelete ∧ op.casExpectedVersion = versionLegacy ∧ op.version = 0)

/-- `b` tells the held row apart from what storing and loading makes of it at no point. -/
def SplitSafe : Option (Option ValueMessage) → List (List UInt8) → Prop
  | none, _ => True
  | some none, b => ∀ op, firstCas b = some op → isGuardedDelete op = false
  | some (some held), b =>
    held = {} → ∃ op, b.head?.bind unmarshal = some op ∧ overridesDefault op = true

/-! ## Storing and loading the held row -/

/-- What the operator loads when the held row was stored. -/
def reload (held : Option ValueMessage) : Option ValueMessage :=
  baseOf (some (held.getD (tombstone 0)))

lemma reload_none : reload none = some (tombstone 0) := by decide

lemma reload_default : reload (some {}) = none := by decide

lemma reload_of_ne {held : ValueMessage} (h : held ≠ {}) : reload (some held) = some held := by
  simp [reload, baseOf, h]

variable {held : Option ValueMessage} {a : List (List UInt8)} {row : Option (List UInt8)}
  {op : ValueMessage}

lemma decodeBase_encodeResult (h : ∀ b ∈ held, b.Sized) :
    decodeBase (encodeResult held) = some (reload held) := by
  have hsized : ∀ b ∈ some (held.getD (tombstone 0)), b.Sized := by
    cases held with
    | none => simpa using sized_tombstone 0
    | some b => simpa using h b rfl
  rw [encodeResult_eq_marshal, reload, ← decodeBase_marshal hsized]
  rfl

lemma encodeResult_some_inj {x y : ValueMessage} (hx : x.Sized) (hy : y.Sized) :
    encodeResult (some x) = encodeResult (some y) ↔ x = y := by
  constructor
  · intro h
    have h' := congrArg unmarshal (show x.marshal = y.marshal from h)
    simpa [ValueMessage.unmarshal_marshal hx, ValueMessage.unmarshal_marshal hy] using h'
  · rintro rfl
    rfl

lemma sized_of_heldAfter (h : heldAfter row a = some held) : ∀ b ∈ held, b.Sized := by
  simp only [heldAfter, Option.map_eq_some_iff] at h
  obtain ⟨base, hbase, rfl⟩ := h
  refine sized_foldl (fun b hb => ?_) a
  rw [Option.mem_def] at hb
  subst hb
  unfold decodeBase at hbase
  split at hbase
  · simp at hbase
  · obtain ⟨m, hm, hmb⟩ := Option.map_eq_some_iff.mp hbase
    simp only [Option.some.injEq] at hmb
    exact hmb ▸ ValueMessage.sized_of_unmarshal hm

variable {key : List UInt8} {x y : Option ValueMessage}

/-- A base that does not decode is kept, whatever the grouping. -/
theorem splitLaw_of_heldAfter_none (hkey : Keys.isMetadataKey key = true)
    (h : heldAfter row a = none) (b : List (List UInt8)) : SplitLaw key row a b := by
  have hbase : decodeBase (row.getD []) = none := by simpa [heldAfter] using h
  simp [SplitLaw, resolve, fullMerge_of_isMetadataKey hkey, mergeMetadataCAS, hbase]

/-- The law compares the operands of `b` on the held row with the same operands on its reloaded
form. -/
theorem splitLaw_iff_reload (hkey : Keys.isMetadataKey key = true) (h : heldAfter row a = some held)
    (b : List (List UInt8)) :
    SplitLaw key row a b ↔ encodeResult (b.foldl applyOperandBytes held) =
      encodeResult (b.foldl applyOperandBytes (reload held)) := by
  have hsized := sized_of_heldAfter h
  simp only [heldAfter, Option.map_eq_some_iff] at h
  obtain ⟨base, hbase, rfl⟩ := h
  simp [SplitLaw, resolve, fullMerge_of_isMetadataKey hkey, mergeMetadataCAS, hbase,
    decodeBase_encodeResult hsized]

/-! ## Operands that tell two rows apart -/

/-- The two rows are stored alike after every initial part of `b`. -/
def Agree (x y : Option ValueMessage) (b : List (List UInt8)) : Prop :=
  ∀ b', b' <+: b →
    encodeResult (b'.foldl applyOperandBytes x) = encodeResult (b'.foldl applyOperandBytes y)

lemma agree_refl (x : Option ValueMessage) (b : List (List UInt8)) : Agree x x b :=
  fun _ _ => rfl

lemma agree_cons {operand : List UInt8} {b : List (List UInt8)} :
    Agree x y (operand :: b) ↔ encodeResult x = encodeResult y ∧
      Agree (applyOperandBytes x operand) (applyOperandBytes y operand) b := by
  constructor
  · intro h
    exact ⟨h [] List.nil_prefix,
      fun b' hb' => h (operand :: b') ((List.prefix_cons_inj operand).mpr hb')⟩
  · rintro ⟨h₀, h⟩ b' hb'
    rcases List.prefix_cons_iff.mp hb' with rfl | ⟨t, rfl, ht⟩
    · exact h₀
    · exact h t ht

lemma not_agree_of_ne (h : encodeResult x ≠ encodeResult y) (b : List (List UInt8)) :
    ¬ Agree x y b :=
  fun hagree => h (hagree [] List.nil_prefix)

lemma encodeResult_none : encodeResult none = encodeResult (some (tombstone 0)) :=
  marshal_tombstone_zero.symm

/-- Operands without a version precondition change neither the missing row nor an unstamped
tombstone. -/
theorem applyOperand_of_not_isCas (h : isCas op = false) :
    applyOperand none op = none ∧ applyOperand (some (tombstone 0)) op = some (tombstone 0) ∧
      applyOperand (some {}) op = some {} := by
  have hput : op.opType ≠ .casPut := fun hop => by simp [isCas, hop] at h
  have hdel : op.opType ≠ .casDelete := fun hop => by simp [isCas, hop] at h
  unfold applyOperand
  split
  · contradiction
  · contradiction
  · simp [applyPurge, applyMigration, tombstone, pathMatches]

lemma casMatches_tombstone_zero (expected : UInt64) : casMatches (tombstone 0) expected = true := by
  simp [casMatches, tombstone, fenceAdmits]

lemma casMatches_default {expected : UInt64} :
    casMatches {} expected = true ↔ expected = versionLegacy := by
  simp [casMatches, effectiveRowVersion, tombstoneExpiry, versionLegacy, eq_comm]

/-- The missing row and the tombstone stored in its place are told apart by the first guarded delete
and by nothing else. -/
theorem agree_none_iff (b : List (List UInt8)) :
    Agree none (some (tombstone 0)) b ↔ SplitSafe (some none) b := by
  induction b with
  | nil => simpa [SplitSafe, firstCas, Agree] using encodeResult_none
  | cons operand b ih =>
    rw [agree_cons]
    simp only [encodeResult_none, true_and, applyOperandBytes]
    cases hop : unmarshal operand with
    | none => simpa [SplitSafe, firstCas, hop] using ih
    | some op =>
      cases hcas : isCas op with
      | false =>
        obtain ⟨hnone, htomb, -⟩ := applyOperand_of_not_isCas hcas
        simpa [SplitSafe, firstCas, hop, hcas, hnone, htomb] using ih
      | true =>
        have hsafe : SplitSafe (some none) (operand :: b) ↔ isGuardedDelete op = false := by
          simp [SplitSafe, firstCas, hop, hcas]
        rw [hsafe]
        simp only [isCas, decide_eq_true_eq] at hcas
        rcases hcas with hput | hdel
        · -- Both rows admit every put, and the put leaves the same row.
          simpa [applyOperand, hput, applyCasPut, casMatches_tombstone_zero, isGuardedDelete]
            using agree_refl _ b
        · by_cases hguard : op.casExpectedVersion ≠ 0 ∧ op.version ≠ 0
          · have hne : encodeResult (some (tombstone 0)) ≠
                encodeResult (some (tombstone op.version)) := by
              rw [Ne, encodeResult_some_inj (sized_tombstone _) (sized_tombstone _)]
              intro h
              exact hguard.2 (congrArg ValueMessage.version h).symm
            simpa [applyOperand, hdel, applyCasDelete, casMatches_tombstone_zero,
              isGuardedDelete, hguard] using not_agree_of_ne hne b
          · have hsame : (if op.casExpectedVersion = 0 then some (tombstone op.version)
                else some (tombstone 0)) = some (tombstone op.version) := by
              split
              · rfl
              · rename_i h
                simp only [ne_eq, h, not_false_eq_true, true_and, not_not] at hguard
                rw [hguard]
            have hunguarded : isGuardedDelete op = false := by
              simp only [isGuardedDelete, hdel, true_and]
              simpa using hguard
            simpa [applyOperand, hdel, applyCasDelete, casMatches_tombstone_zero, hsame,
              hunguarded] using agree_refl _ b

lemma encodeResult_default_ne : encodeResult (some {}) ≠ encodeResult none := by decide

lemma sized_default : ({} : ValueMessage).Sized := ⟨by simp, by simp, by simp⟩

/-- An operand leaves the same row of the all-default row and of no row exactly if it overrides
both. -/
theorem applyOperand_default_eq_iff (op : ValueMessage) :
    applyOperand (some {}) op = applyOperand none op ↔ overridesDefault op = true := by
  cases hcas : isCas op with
  | false =>
    obtain ⟨hnone, -, hsame⟩ := applyOperand_of_not_isCas hcas
    have hput : op.opType ≠ .casPut := fun h => by simp [isCas, h] at hcas
    have hdel : op.opType ≠ .casDelete := fun h => by simp [isCas, h] at hcas
    simp [hnone, hsame, overridesDefault, hput, hdel]
  | true =>
    simp only [isCas, decide_eq_true_eq] at hcas
    rcases hcas with hput | hdel
    · by_cases hexp : op.casExpectedVersion = versionLegacy
      · simp [applyOperand, hput, applyCasPut, casMatches_default, hexp, overridesDefault]
      · have hcomm : ({} : ValueMessage) = adopt op ↔ adopt op = {} := eq_comm
        simp [applyOperand, hput, applyCasPut, casMatches_default, hexp, overridesDefault, hcomm]
    · by_cases hexp : op.casExpectedVersion = versionLegacy
      · have hne : versionLegacy ≠ 0 := by decide
        simp [applyOperand, hdel, applyCasDelete, casMatches_default, hexp, overridesDefault, hne,
          tombstone]
      · have hne : ∀ v, ({} : ValueMessage) ≠ tombstone v := fun v h => by
          simpa [tombstone, tombstoneExpiry] using congrArg ValueMessage.expiry h
        simp only [applyOperand, hdel, applyCasDelete, casMatches_default, hexp, if_false,
          overridesDefault]
        split <;> simp [hne]

lemma isSome_applyOperand_default (op : ValueMessage) : (applyOperand (some {}) op).isSome := by
  rcases applyOperand_cases (some {}) op with h | ⟨v, h⟩ | h | ⟨b, -, h⟩ <;> simp [h]

lemma isSome_applyOperand_none (h : isCas op = true) : (applyOperand none op).isSome := by
  simp only [isCas, decide_eq_true_eq] at h
  rcases h with h | h
  · simp [applyOperand, h, applyCasPut]
  · simp only [applyOperand, h, applyCasDelete]
    split <;> rfl

lemma encodeResult_applyOperand_default_iff (hop : op.Sized) :
    encodeResult (applyOperand (some {}) op) = encodeResult (applyOperand none op) ↔
      applyOperand (some {}) op = applyOperand none op := by
  cases hcas : isCas op with
  | false =>
    obtain ⟨hnone, -, hsame⟩ := applyOperand_of_not_isCas hcas
    simp [hnone, hsame, encodeResult_default_ne]
  | true =>
    obtain ⟨x, hx⟩ := Option.isSome_iff_exists.mp (isSome_applyOperand_default op)
    obtain ⟨y, hy⟩ := Option.isSome_iff_exists.mp (isSome_applyOperand_none hcas)
    have hbase : ∀ b ∈ some ({} : ValueMessage), b.Sized := by simpa using sized_default
    have hnone : ∀ b ∈ (none : Option ValueMessage), b.Sized := by simp
    have hxs : x.Sized := sized_applyOperand hbase hop x hx
    have hys : y.Sized := sized_applyOperand hnone hop y hy
    rw [hx, hy, encodeResult_some_inj hxs hys, Option.some.injEq]

/-- The all-default row and the missing row it is loaded as are told apart by every operand that
does not override both. -/
theorem agree_default_iff (operand : List UInt8) (b : List (List UInt8)) :
    Agree (applyOperandBytes (some {}) operand) (applyOperandBytes none operand) b ↔
      SplitSafe (some (some {})) (operand :: b) := by
  simp only [SplitSafe, forall_true_left, List.head?_cons, Option.bind_some, applyOperandBytes]
  cases hop : unmarshal operand with
  | none => simpa using not_agree_of_ne encodeResult_default_ne b
  | some op =>
    have hsized := ValueMessage.sized_of_unmarshal hop
    simp only [Option.some.injEq, exists_eq_left', ← applyOperand_default_eq_iff]
    constructor
    · intro h
      exact (encodeResult_applyOperand_default_iff hsized).mp (h [] List.nil_prefix)
    · intro h
      rw [h]
      exact agree_refl _ b

/-! ## The grouping law -/

lemma agree_reload_iff (held : Option ValueMessage) (operand : List UInt8) (b : List (List UInt8)) :
    Agree (applyOperandBytes held operand) (applyOperandBytes (reload held) operand) b ↔
      SplitSafe (some held) (operand :: b) := by
  cases held with
  | none =>
    rw [reload_none, ← agree_none_iff, agree_cons]
    simp [encodeResult_none]
  | some held =>
    by_cases hdefault : held = {}
    · rw [hdefault, reload_default]
      exact agree_default_iff operand b
    · rw [reload_of_ne hdefault]
      simpa [SplitSafe, hdefault] using agree_refl _ b

/-- The grouping law, for `b` and for every way to cut `b` short, holds exactly if `b` does not tell
the row held when it starts from what storing and loading makes of it. -/
theorem splitLaw_iff_splitSafe {key : List UInt8} (hkey : Keys.isMetadataKey key = true)
    (row : Option (List UInt8)) (a : List (List UInt8)) {b : List (List UInt8)} (hb : b ≠ []) :
    (∀ b', b' ≠ [] → b' <+: b → SplitLaw key row a b') ↔ SplitSafe (heldAfter row a) b := by
  cases hheld : heldAfter row a with
  | none => simpa [SplitSafe] using fun b' _ _ => splitLaw_of_heldAfter_none hkey hheld b'
  | some held =>
    obtain ⟨operand, b, rfl⟩ := List.exists_cons_of_ne_nil hb
    rw [← agree_reload_iff]
    simp only [splitLaw_iff_reload hkey hheld]
    constructor
    · intro h b' hb'
      exact h (operand :: b') (by simp) ((List.prefix_cons_inj operand).mpr hb')
    · intro h b' hne hb'
      rcases List.prefix_cons_iff.mp hb' with rfl | ⟨t, rfl, ht⟩
      · contradiction
      · exact h t ht

/-- The operand of a compaction that read the key before it was deleted. -/
def staleMigration : List UInt8 :=
  ValueMessage.marshal
    { valueType := .segment, rawFilePath := "r", segmentPath := "s", valueLength := 9 }

/-- A put-if-absent under a stamp. -/
def stampedPut (version : UInt64) : List UInt8 :=
  ValueMessage.marshal { data := [0x2a], valueLength := 1, version := version, opType := .casPut }

/-- A delete guarded by `expected`, under a stamp. -/
def guardedDelete (expected version : UInt64) : List UInt8 :=
  ValueMessage.marshal
    { version := version, opType := .casDelete, casExpectedVersion := expected }

/-- A put follows a migration of a deleted key, in two calls or in one. -/
theorem splitLaw_staleMigration_stampedPut :
    SplitLaw (Keys.makeMetadataKey [0x6b]) none [staleMigration] [stampedPut 7] := by
  refine (splitLaw_iff_splitSafe (by decide) none [staleMigration] (by decide)).mpr ?_ _
    (by decide) (List.prefix_refl _)
  have hheld : heldAfter none [staleMigration] = some none := by decide
  rw [hheld]
  intro op hop
  have hfirst : firstCas [stampedPut 7] =
      some { data := [0x2a], valueLength := 1, version := 7, opType := .casPut } := by decide
  rw [hfirst, Option.some.injEq] at hop
  rw [← hop]
  decide

/-- A guarded delete that follows the migration of a deleted key leaves an unstamped tombstone when
both are resolved together, and its own stamp when the migration was resolved before. -/
theorem not_splitLaw_staleMigration_guardedDelete :
    Keys.isMetadataKey (Keys.makeMetadataKey [0x6b]) = true ∧
      ¬ SplitLaw (Keys.makeMetadataKey [0x6b]) none [staleMigration] [guardedDelete 5 7] ∧
      resolve (Keys.makeMetadataKey [0x6b]) none ([staleMigration] ++ [guardedDelete 5 7]) =
        (tombstone 0).marshal ∧
      resolve (Keys.makeMetadataKey [0x6b])
          (some (resolve (Keys.makeMetadataKey [0x6b]) none [staleMigration]))
          [guardedDelete 5 7] =
        (tombstone 7).marshal := by
  decide

end OCache.Merge
