import OCache.Accounting.Operations

/-!
# What operations do to rows

A row is written by a put, by a CAS, or by a migration that moves it. Lemmas here say what each of
them leaves, in terms of any weight of rows that gives nothing to tombstones: the length of the
value, or the bytes in one segment. Every row keeps the shape `RowOk` in every run.
-/

namespace OCache.Accounting

open Merge Cas Total

/-- What every stored row satisfies. -/
structure RowOk (lastStamp : UInt64) (row : ValueMessage) : Prop where
  opType : row.opType = .none
  size_nonneg : 0 ≤ size row
  version_le : row.version ≤ lastStamp
  path_ne : row.valueType = .rawFile → row.rawFilePath ≠ ""

def RowsOk (s : State) : Prop := ∀ key row, s.rows.lookup key = some row → RowOk s.lastStamp row

variable {row op : ValueMessage} {stamp : UInt64} {s : State}

lemma RowOk.mono {stamp' : UInt64} (h : RowOk stamp row) (hle : stamp ≤ stamp') :
    RowOk stamp' row :=
  { h with version_le := UInt64.le_trans h.version_le hle }

lemma rowOk_tombstone {version : UInt64} (h : version ≤ stamp) : RowOk stamp (tombstone version) :=
  ⟨rfl, by simp [size, tombstone], h, by simp [tombstone]⟩

lemma rowsOk_init (policy : Policy) : RowsOk (init policy) := by
  intro key row h
  simp [init] at h

variable {s' : State} {key : String}

/-- Rows that were there before are as they were. -/
theorem RowsOk.of_subset (h : RowsOk s) (hstamp : s.lastStamp ≤ s'.lastStamp)
    (hrows : ∀ key row, s'.rows.lookup key = some row → s.rows.lookup key = some row) : RowsOk s' :=
  fun key row hrow => (h key row (hrows key row hrow)).mono hstamp

/-- One row changes. -/
theorem RowsOk.setRow (h : RowsOk s) (hrow : RowOk s'.lastStamp row)
    (hstamp : s.lastStamp ≤ s'.lastStamp) (hrows : s'.rows = s.rows.insert key row) :
    RowsOk s' := by
  intro k r hr
  rw [hrows] at hr
  by_cases hk : k = key
  · subst hk
    rw [AList.lookup_insert] at hr
    cases hr
    exact hrow
  · rw [AList.lookup_insert_ne hk] at hr
    exact (h k r hr).mono hstamp

/-! ## Puts -/

section Puts

variable (cfg : Settings) (u : Upload)

/-- A put stores as many bytes as it was given. -/
theorem toInt_length (v : Value) : (Int64.ofNat v.data.length).toInt = v.data.length :=
  Int64.toInt_ofNat_of_lt v.length_lt

lemma rowOk_putRow (stamp : UInt64) : RowOk stamp (Store.putRow (u.payload cfg) u.expiry) := by
  have hlength := toInt_length u.value
  unfold Upload.payload Store.Config.payload
  split
  · exact ⟨rfl, by simp [size, Store.putRow, hlength], UInt64.zero_le, by simp [Store.putRow]⟩
  · exact ⟨rfl, by simp [size, Store.putRow, hlength], UInt64.zero_le, fun _ => u.path_ne⟩

/-- The row that a CAS put leaves is its operand, up to fields that no weight reads. -/
theorem rowOk_adopt_casPutOperand (stamp expected : UInt64) :
    RowOk stamp (adopt (casPutOperand (u.payload cfg) u.expiry stamp expected)) := by
  have hlength := toInt_length u.value
  unfold Upload.payload Store.Config.payload
  split
  · exact ⟨rfl, by simp [size, casPutOperand, adopt, hlength], UInt64.le_refl _,
      by simp [casPutOperand, adopt]⟩
  · exact ⟨rfl, by simp [size, casPutOperand, adopt, hlength], UInt64.le_refl _, fun _ => u.path_ne⟩

end Puts

/-! ## Compare-and-swap -/

/-- A weight that gives nothing to rows without a value. -/
structure IsWeight (f : ValueMessage → ℤ) : Prop where
  default : f {} = 0
  tombstone : ∀ version, f (tombstone version) = 0

lemma isWeight_size : IsWeight size := ⟨rfl, fun _ => rfl⟩

/-- An operand that does not apply leaves what was there; a missing row becomes a tombstone. -/
theorem weight_baseOf {f : ValueMessage → ℤ} (hf : IsWeight f) (prev : Option ValueMessage) :
    f ((baseOf prev).getD (tombstone 0)) = weight f prev := by
  unfold baseOf
  split
  · rename_i hdefault
    subst hdefault
    simp [hf.default, hf.tombstone]
  · cases prev with
    | none => simp [hf.tombstone]
    | some row => rfl

/-- What a CAS operand leaves: it won and the row carries its stamp, or it left what was there. -/
theorem mergeRow_cas_outcome (h : RowsOk s) (hop : isCas op = true)
    (hstamp : s.lastStamp < op.version) :
    ((mergeRow (s.rows.lookup key) [op]).version = op.version ∧
        mergeRow (s.rows.lookup key) [op] = casResult op) ∨
      ((mergeRow (s.rows.lookup key) [op]).version ≠ op.version ∧
        mergeRow (s.rows.lookup key) [op] = (baseOf (s.rows.lookup key)).getD (tombstone 0)) := by
  rw [mergeRow_cas hop]
  split
  · exact .inl ⟨casResult_version, rfl⟩
  · refine .inr ⟨fun heq => ?_, rfl⟩
    -- Nothing that was there carries a stamp as new as this one.
    have hle : ((baseOf (s.rows.lookup key)).getD (tombstone 0)).version ≤ s.lastStamp := by
      cases hbase : baseOf (s.rows.lookup key) with
      | none => exact UInt64.zero_le
      | some row => exact (h key row (eq_some_of_baseOf hbase)).version_le
    rw [heq] at hle
    exact absurd hstamp (UInt64.not_lt.mpr hle)

/-- The row that a lost CAS leaves. -/
theorem rowOk_baseOf (h : RowsOk s) (key : String) :
    RowOk s.lastStamp ((baseOf (s.rows.lookup key)).getD (tombstone 0)) := by
  cases hbase : baseOf (s.rows.lookup key) with
  | none => exact rowOk_tombstone UInt64.zero_le
  | some row => exact h key row (eq_some_of_baseOf hbase)

/-- What a `PutIfVersion` leaves: nothing but a stamp, the row of a lost merge, or a won one. -/
inductive PutOutcome (cfg : Settings) (s : State) (u : Upload) (stamp : UInt64) (now : Nat)
    (bookOk creditOk : Bool) : State → Prop
  | kept {last : UInt64} (h : s.lastStamp ≤ last) :
    PutOutcome cfg s u stamp now bookOk creditOk { s with lastStamp := last }
  | lost (h : s.lastStamp < stamp) :
    PutOutcome cfg s u stamp now bookOk creditOk
      ({ s with lastStamp := stamp }.setRow u.key
        ((baseOf (s.rows.lookup u.key)).getD (tombstone 0)))
  | won (h : s.lastStamp < stamp) (expected : UInt64) :
    PutOutcome cfg s u stamp now bookOk creditOk
      (finishWonCASPut cfg
        ({ s with lastStamp := stamp }.setRow u.key
          (adopt (casPutOperand (u.payload cfg) u.expiry stamp expected)))
        u.key (casPutOperand (u.payload cfg) u.expiry stamp expected) (s.rows.lookup u.key) now
        bookOk creditOk)

lemma putOutcome_putIfVersion (cfg : Settings) (h : RowsOk s) (u : Upload)
    (expected stamp : UInt64) (first second : Int64) (now : Nat) (mergeOk bookOk creditOk : Bool) :
    PutOutcome cfg s u stamp now bookOk creditOk
      (putIfVersion cfg s u expected stamp first second now mergeOk bookOk creditOk) := by
  unfold putIfVersion
  dsimp only
  split
  · rename_i hfirst
    split
    · have hcas : isCas (casPutOperand (u.payload cfg) u.expiry stamp
          (carriedVersion second (s.rows.lookup u.key) expected)) = true := by simp [isCas]
      -- Only the operand itself has a stamp as new as its own.
      rcases mergeRow_cas_outcome h hcas (by simpa using hfirst.2) with ⟨hv, hwon⟩ | ⟨hv, hlost⟩
      · rw [if_pos (by simpa using hv), hwon, casResult, if_pos (by simp)]
        exact .won hfirst.2 _
      · rw [if_neg (by simpa using hv), hlost]
        exact .lost hfirst.2
    · exact .kept (UInt64.le_of_lt hfirst.2)
  · exact .kept (UInt64.le_refl _)

/-- The state after the merge of a won `DeleteIfVersion` and what it does then. -/
def wonDelete (s : State) (key : String) (stamp : UInt64) (cutoff : Nat) (creditOk dropOk : Bool) :
    State :=
  let dead := { s with lastStamp := stamp }.setRow key (tombstone stamp)
  let credited := if creditOk then dead.creditReplaced (s.rows.lookup key) else dead
  let counted := credited.updateSize (-weight size (s.rows.lookup key))
  if dropOk then
    counted.modifyIndex
      (dropDeadEvictionGeneration · key cutoff ((s.index s.policy).backref key))
  else counted

/-- What a `DeleteIfVersion` leaves. -/
inductive DeleteOutcome (s : State) (key : String) (stamp : UInt64) (cutoff : Nat)
    (creditOk dropOk : Bool) : State → Prop
  | kept {last : UInt64} (h : s.lastStamp ≤ last) :
    DeleteOutcome s key stamp cutoff creditOk dropOk { s with lastStamp := last }
  | lost (h : s.lastStamp < stamp) :
    DeleteOutcome s key stamp cutoff creditOk dropOk
      ({ s with lastStamp := stamp }.setRow key ((baseOf (s.rows.lookup key)).getD (tombstone 0)))
  | won (h : s.lastStamp < stamp) :
    DeleteOutcome s key stamp cutoff creditOk dropOk (wonDelete s key stamp cutoff creditOk dropOk)

lemma deleteOutcome_deleteIfVersion (h : RowsOk s) (key : String) (expected stamp : UInt64)
    (now : Int64) (cutoff : Nat) (mergeOk creditOk dropOk : Bool) :
    DeleteOutcome s key stamp cutoff creditOk dropOk
      (deleteIfVersion s key expected stamp now cutoff mergeOk creditOk dropOk) := by
  unfold deleteIfVersion
  dsimp only
  split
  · rename_i hadmitted
    split
    · have hcas : isCas (casDeleteOperand stamp
          (carriedVersion now (s.rows.lookup key) expected)) = true := by simp [isCas]
      rcases mergeRow_cas_outcome h hcas (by simpa using hadmitted.2) with ⟨hv, hwon⟩ | ⟨hv, hlost⟩
      · rw [if_pos (by simpa using hv), hwon, casResult_of_casDelete (by simp)]
        exact .won hadmitted.2
      · rw [if_neg (by simpa using hv), hlost]
        exact .lost hadmitted.2
    · exact .kept (UInt64.le_of_lt hadmitted.2)
  · exact .kept (UInt64.le_refl _)

/-- `finishWonCASPut` changes indexes and the counter. -/
theorem finishWonCASPut_fields (cfg : Settings) (s : State) (key : String) (row : ValueMessage)
    (prev : Option ValueMessage) (now : Nat) (bookOk creditOk : Bool) :
    (finishWonCASPut cfg s key row prev now bookOk creditOk).rows = s.rows ∧
      (finishWonCASPut cfg s key row prev now bookOk creditOk).lastStamp = s.lastStamp ∧
      (finishWonCASPut cfg s key row prev now bookOk creditOk).totalSize =
        s.totalSize + (size row - weight size prev) := by
  cases bookOk <;> cases creditOk <;> exact ⟨rfl, rfl, rfl⟩

/-- `wonDelete` changes one row, indexes and the counter. -/
theorem wonDelete_fields (s : State) (key : String) (stamp : UInt64) (cutoff : Nat)
    (creditOk dropOk : Bool) :
    (wonDelete s key stamp cutoff creditOk dropOk).rows = s.rows.insert key (tombstone stamp) ∧
      (wonDelete s key stamp cutoff creditOk dropOk).lastStamp = stamp ∧
      (wonDelete s key stamp cutoff creditOk dropOk).totalSize =
        s.totalSize + -weight size (s.rows.lookup key) := by
  cases creditOk <;> cases dropOk <;> exact ⟨rfl, rfl, rfl⟩

/-! ## Migrations -/

/-- An operand that moves a row and keeps its length. A row that it applies to is not inline, and
keeps its expiry as well. -/
structure MovesRow (row op : ValueMessage) : Prop where
  opType : op.opType = .none
  segment : op.valueType = .segment
  size : size op = size row
  expiry : row.valueType ≠ .inline → op.expiry = row.expiry

/-- What migrations leave of a row: its length, and its expiry unless it became a tombstone. -/
structure Moved (row row' : ValueMessage) : Prop where
  size : Accounting.size row' = Accounting.size row
  expiry : row'.expiry = row.expiry ∨ row'.expiry = tombstoneExpiry
  inline : row'.valueType ≠ .inline → row.valueType ≠ .inline ∧ row'.expiry = row.expiry

lemma Moved.refl (row : ValueMessage) : Moved row row := ⟨rfl, .inl rfl, fun h => ⟨h, rfl⟩⟩

lemma Moved.trans {row₁ row₂ : ValueMessage} (h : Moved row row₁) (h' : Moved row₁ row₂) :
    Moved row row₂ where
  size := h'.size.trans h.size
  expiry := by
    rcases h'.expiry with heq | htombstone
    · rw [heq]
      exact h.expiry
    · exact .inr htombstone
  inline hne := by
    obtain ⟨hne₁, heq₁⟩ := h'.inline hne
    obtain ⟨hne₀, heq₀⟩ := h.inline hne₁
    exact ⟨hne₀, heq₁.trans heq₀⟩

lemma movesRow_compactionOperand (h : RowOk stamp row) (path : String) (offset : Int64) :
    MovesRow row (compactionOperand row path offset) :=
  ⟨h.opType, rfl, rfl, fun _ => rfl⟩

lemma movesRow_recompactionOperand (h : RowOk stamp row) {old : String} {at_ : Int64}
    (hplace : Store.segmentPlace row = some (old, at_)) (path : String) (offset : Int64) :
    MovesRow row (recompactionOperand row path offset) := by
  refine ⟨h.opType, ?_, rfl, fun _ => rfl⟩
  unfold Store.segmentPlace at hplace
  split at hplace
  · assumption
  · simp at hplace

lemma MovesRow.congr {row' : ValueMessage} (h : MovesRow row op) (hmoved : Moved row row') :
    MovesRow row' op :=
  { h with
    size := h.size.trans hmoved.size.symm
    expiry := fun hne => by
      obtain ⟨hne₀, heq⟩ := hmoved.inline hne
      exact (h.expiry hne₀).trans heq.symm }

/-- The operand moves the row or leaves it; an all-default row becomes a tombstone. -/
theorem moved_mergeRow_migration (h : MovesRow row op) : Moved row (mergeRow (some row) [op]) := by
  rcases mergeRow_migration h.opType h.segment (some row) with hkept | ⟨base, hbase, hmatch, hmoved⟩
  · rw [hkept]
    have hsize := weight_baseOf isWeight_size (some row)
    unfold baseOf at hsize ⊢
    split
    · rename_i hdefault
      rw [if_pos hdefault] at hsize
      exact ⟨hsize, .inr rfl, fun hne => absurd rfl hne⟩
    · exact .refl row
  · cases hbase
    have hne := valueType_of_pathMatches hmatch
    rw [hmoved]
    exact ⟨h.size, .inl (h.expiry hne), fun _ => ⟨hne, h.expiry hne⟩⟩

lemma rowOk_mergeRow_migration (h : MovesRow row op) (hok : RowOk stamp row) :
    RowOk stamp (mergeRow (some row) [op]) := by
  have hnonneg : 0 ≤ size (mergeRow (some row) [op]) := by
    rw [(moved_mergeRow_migration h).size]
    exact hok.size_nonneg
  rcases mergeRow_migration h.opType h.segment (some row) with hkept | ⟨base, hbase, -, hmoved⟩
  · rw [hkept]
    unfold baseOf
    split
    · exact rowOk_tombstone UInt64.zero_le
    · exact hok
  · cases hbase
    rw [hmoved] at hnonneg ⊢
    exact ⟨rfl, hnonneg, hok.version_le, by simp [migrated, h.segment]⟩

end OCache.Accounting
