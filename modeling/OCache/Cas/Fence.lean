import OCache.Cas.Mismatch

/-!
# Fences

A delete leaves a tombstone that carries its stamp. A put whose token is older than the stamp must
not apply after it, so that a client that saw the key absent before the delete cannot write over
it. The only record of the delete is the row: the fence can be lost when a delete with an older
stamp replaces the tombstone, and when an eviction pass removes the row that replaced it.
-/

namespace OCache.Cas

open EventSystem Merge

def isAppliedDelete (m : Merged) : Bool := m.applied && m.isDelete

/-- A delete applies only if its stamp is above those of the deletes that applied before it. -/
def deletesInOrder (s : State) : Event → Bool
  | .putRead _ _ _ _ expiry => expiry = 0
  | .merge i =>
    match s.calls i with
    | .merging _ operand =>
      operand.opType ≠ .casDelete || !applies s.row operand ||
        s.log.all fun m => !isAppliedDelete m || m.operand.version < operand.version
    | _ => true
  | _ => true

/-- An eviction removes a row only if no token is older than an applied delete. -/
def evictionsSafe (s : State) : Event → Bool
  | .evictCommit w =>
    !s.evictors w ||
      s.log.all fun m => !isAppliedDelete m || s.tokens.all (m.operand.version ≤ ·)
  | _ => true

variable {e : Event} {operand : ValueMessage} {row : Option ValueMessage} {expected : UInt64}

lemma noTTL_of_deletesInOrder {s : State} (h : deletesInOrder s e = true) : NoTTL e := by
  cases e with
  | putRead i now expected payload expiry => simpa [deletesInOrder, NoTTL] using h
  | _ => trivial

/-! ## The invariant -/

/-- There is a row, and if it is a tombstone then its fence is above the token. -/
def Guarded (row : Option ValueMessage) (token : UInt64) : Prop :=
  ∃ r, row = some r ∧ (r.expiry = tombstoneExpiry → token < r.version)

/-- The pair of operands does not show the fence broken at the token. -/
def KeepsFence (token : UInt64) (newer older : Merged) : Prop :=
  isAppliedDelete older = true → token < older.operand.version → newer.isPut = true →
    newer.operand.casExpectedVersion = token → newer.applied = false

/-- The invariant of runs that keep the fence. -/
structure FenceInv (s : State) : Prop where
  inv : Inv s
  fence : ∀ r, s.row = some r → r.expiry = tombstoneExpiry → r.version ≠ 0 →
    ∀ m ∈ s.log, isAppliedDelete m = true → m.operand.version ≤ r.version
  guarded : ∀ m ∈ s.log, isAppliedDelete m = true → ∀ t ∈ s.tokens, t < m.operand.version →
    Guarded s.row t
  kept : ∀ t ∈ s.tokens, s.log.Pairwise (KeepsFence t)

lemma fenceInv_init : FenceInv State.init where
  inv := inv_init
  fence := by simp
  guarded := by simp
  kept := by simp

variable {s s' : State} {i : Nat} {t : UInt64}

/-- A put that carries a token does not apply on a row that guards against it. -/
theorem Inv.applies_eq_false_of_guarded (h : Inv s) (ht : t ∈ s.tokens) (hg : Guarded s.row t)
    (hexpected : operand.casExpectedVersion = t) : applies s.row operand = false := by
  obtain ⟨r, hr, hfence⟩ := hg
  have hrow := h.row r hr
  have hknown := h.tokens t ht
  have hne : t ≠ 0 := h.known_ne_zero (hknown.imp_right .inr)
  rw [applies, h.baseOf_row hr]
  by_cases hdead : r.expiry = tombstoneExpiry
  · -- A tombstone admits expectations at or above its fence only.
    have hlt := hfence hdead
    simp [casMatches, hdead, fenceAdmits, hexpected, hne, hlt]
  · -- A live row carries the stamp of a put, which is nobody's token.
    have hput := hrow.putStamp_of_live hdead
    have hversion : r.version ≠ t := by
      rintro rfl
      rcases hknown with hfresh | hdelete
      · exact h.not_freshToken_of_putStamp hput hfresh
      · exact h.not_deleteStamp_of_putStamp hput hdelete
    simp [casMatches, hdead, hexpected, h.effectiveRowVersion_eq hrow, hversion]

/-! ## Steps -/

/-- A step of a call that merges nothing. The tokens it hands out are above all deletes. -/
theorem FenceInv.update (h : FenceInv s) (hinv : Inv s') (hrow : s'.row = s.row)
    (hlog : s'.log = s.log)
    (htokens : ∀ t ∈ s'.tokens, t ∈ s.tokens ∨
      ∀ m ∈ s.log, isAppliedDelete m = true → m.operand.version ≤ t) : FenceInv s' where
  inv := hinv
  fence := by
    rw [hrow, hlog]
    exact h.fence
  guarded m hm hdel t ht hlt := by
    rw [hlog] at hm
    rw [hrow]
    rcases htokens t ht with hold | habove
    · exact h.guarded m hm hdel t hold hlt
    · exact absurd hlt (UInt64.not_lt.mpr (habove m hm hdel))
  kept t ht := by
    rw [hlog]
    rcases htokens t ht with hold | habove
    · exact h.kept t hold
    · refine List.pairwise_of_forall_mem_list fun newer _ older holder hdel hlt => ?_
      exact absurd hlt (UInt64.not_lt.mpr (habove older holder hdel))

/-- The row stays, or a missing row becomes an unstamped tombstone, or the new row is live. -/
inductive Softens (row row' : Option ValueMessage) : Prop
  | same (h : row' = row)
  | unstamped (hnone : row = none) (h : row' = some (tombstone 0))
  | live (r : ValueMessage) (h : row' = some r) (hlive : r.expiry ≠ tombstoneExpiry)

lemma Guarded.softens {row' : Option ValueMessage} (hg : Guarded row t) (h : Softens row row') :
    Guarded row' t := by
  cases h with
  | same h => rwa [h]
  | unstamped hnone h =>
    obtain ⟨r, hr, -⟩ := hg
    rw [hnone] at hr
    contradiction
  | live r h hlive => exact ⟨r, h, fun hdead => absurd hdead hlive⟩

lemma FenceInv.fence_softens (h : FenceInv s) (hrow : Softens s.row row) :
    ∀ r, row = some r → r.expiry = tombstoneExpiry → r.version ≠ 0 →
      ∀ m ∈ s.log, isAppliedDelete m = true → m.operand.version ≤ r.version := by
  intro r hr hdead hstamped
  cases hrow with
  | same heq => exact h.fence r (heq ▸ hr) hdead hstamped
  | unstamped _ heq =>
    rw [heq, Option.some.injEq] at hr
    exact absurd (by rw [← hr]; rfl) hstamped
  | live r' heq hlive =>
    rw [heq, Option.some.injEq] at hr
    exact absurd (hr ▸ hdead) hlive

lemma Inv.softens_getD (h : Inv s) : Softens s.row (some ((baseOf s.row).getD (tombstone 0))) := by
  cases hrow : s.row with
  | none => exact .unstamped rfl rfl
  | some r =>
    have hbase := h.baseOf_row hrow
    rw [hrow] at hbase
    exact .same (by rw [hbase]; rfl)

lemma Inv.softens_migration (h : Inv s) {read : ValueMessage} {segmentPath : String}
    {segmentOffset : Int64} (hread : RowOk s read)
    (hop : migrationOperand read segmentPath segmentOffset = some operand) :
    Softens s.row (some (mergeRow s.row [operand])) := by
  obtain ⟨htype, hsegment, hopType, hexpiry⟩ := migrationOperand_spec hop
  rcases mergeRow_migration (hopType.trans hread.opType) hsegment s.row with
    hsame | ⟨base, -, -, hmoved⟩
  · rw [hsame]
    exact h.softens_getD
  · refine .live _ (by rw [hmoved]) ?_
    show operand.expiry ≠ tombstoneExpiry
    rw [hexpiry, (hread.live_of_valueType htype).1]
    decide

/-- An operand that is not an applied delete keeps the fence on the row. -/
theorem Inv.softens_mergeRow (h : Inv s) (hpc : s.calls i = .merging expected operand)
    (hnot : isAppliedDelete ⟨i, operand, s.row⟩ = false) :
    Softens s.row (some (mergeRow s.row [operand])) := by
  obtain ⟨hcas, -, hexpiry, -⟩ : CallOk s i (.merging expected operand) := hpc ▸ h.calls i
  rw [mergeRow_cas hcas]
  split
  · rename_i happlies
    have hput : operand.opType = .casPut := by
      simp only [isAppliedDelete, Merged.applied, happlies, Merged.isDelete, Bool.true_and,
        decide_eq_false_iff_not] at hnot
      simpa [isCas, hnot] using hcas
    refine .live _ rfl ?_
    rw [casResult_expiry_of_casPut hput, hexpiry]
    decide
  · exact h.softens_getD

/-- A call merges its operand. -/
theorem FenceInv.mergeOperand (h : FenceInv s) (hpc : s.calls i = .merging expected operand)
    (horder : isAppliedDelete ⟨i, operand, s.row⟩ = true →
      ∀ m ∈ s.log, isAppliedDelete m = true → m.operand.version < operand.version) :
    FenceInv (s.mergeOperand i expected operand) := by
  -- The new operand keeps the fence of every earlier delete, whatever it does to the row.
  have hkept : ∀ t ∈ s.tokens, ((⟨i, operand, s.row⟩ : Merged) :: s.log).Pairwise (KeepsFence t) := by
    intro t ht
    refine List.pairwise_cons.mpr ⟨fun older holder hdel hlt _ hexpected => ?_, h.kept t ht⟩
    exact h.inv.applies_eq_false_of_guarded ht (h.guarded older holder hdel t ht hlt) hexpected
  cases hdelete : isAppliedDelete ⟨i, operand, s.row⟩ with
  | false =>
    have hsoft := h.inv.softens_mergeRow hpc hdelete
    have hold : ∀ m ∈ (⟨i, operand, s.row⟩ : Merged) :: s.log, isAppliedDelete m = true →
        m ∈ s.log := by
      intro m hm hdel
      rcases List.mem_cons.mp hm with rfl | hm
      · rw [hdelete] at hdel
        contradiction
      · exact hm
    exact {
      inv := h.inv.mergeOperand hpc
      fence := fun r hr hdead hstamped m hm hdel =>
        h.fence_softens hsoft r hr hdead hstamped m (hold m hm hdel) hdel
      guarded := fun m hm hdel t ht hlt =>
        (h.guarded m (hold m hm hdel) hdel t ht hlt).softens hsoft
      kept := hkept }
  | true =>
    -- The row becomes a tombstone with the greatest stamp of all applied deletes.
    have hbelow : ∀ m ∈ (⟨i, operand, s.row⟩ : Merged) :: s.log, isAppliedDelete m = true →
        m.operand.version ≤ operand.version := by
      intro m hm hdel
      rcases List.mem_cons.mp hm with rfl | hm
      · exact UInt64.le_refl _
      · exact UInt64.le_of_lt (horder hdelete m hm hdel)
    have hrow : (s.mergeOperand i expected operand).row = some (tombstone operand.version) := by
      simp only [isAppliedDelete, Merged.applied, Merged.isDelete, Bool.and_eq_true,
        decide_eq_true_eq] at hdelete
      have hcas : isCas operand = true := by simp [isCas, hdelete.2]
      rw [State.mergeOperand, mergeRow_cas hcas, if_pos hdelete.1, casResult_of_casDelete hdelete.2]
    exact {
      inv := h.inv.mergeOperand hpc
      fence := by
        intro r hr _ _ m hm hdel
        rw [hrow, Option.some.injEq] at hr
        rw [← hr]
        exact hbelow m hm hdel
      guarded := by
        intro m hm hdel t _ hlt
        exact ⟨_, hrow, fun _ => UInt64.lt_of_lt_of_le hlt (hbelow m hm hdel)⟩
      kept := hkept }

/-- The fence of a stamped tombstone is above all deletes. -/
theorem FenceInv.le_of_fenced (h : FenceInv s) {now : Int64} {v : UInt64}
    (hrow : casClassify now s.row = (.fenced, v)) :
    ∀ m ∈ s.log, isAppliedDelete m = true → m.operand.version ≤ v := by
  cases hr : s.row with
  | none => simp [hr, casClassify] at hrow
  | some r =>
    rw [hr] at hrow
    rcases h.inv.casClassify_cases now (h.inv.row r hr) with
      ⟨-, hc⟩ | ⟨hdead, hstamped, hc⟩ | ⟨-, -, hc⟩
    · simp [hc] at hrow
    · rw [hc, Prod.mk.injEq] at hrow
      exact hrow.2 ▸ h.fence r hr hdead hstamped
    · simp [hc] at hrow

lemma fenceInv_trans (h : FenceInv s) (horder : deletesInOrder s e = true)
    (hevict : evictionsSafe s e = true) (ht : Trans s e s') : FenceInv s' := by
  have hinv := inv_trans h.inv (noTTL_of_deletesInOrder horder) ht
  cases ht with
  | getFenced hpc hrow =>
    refine h.update hinv rfl rfl fun t ht => ?_
    rcases List.mem_cons.mp ht with rfl | hold
    · exact .inr (h.le_of_fenced hrow)
    · exact .inl hold
  | getToken hpc hlt =>
    refine h.update hinv rfl rfl fun t ht => ?_
    rcases List.mem_cons.mp ht with rfl | hold
    · exact .inr fun m hm _ => UInt64.le_trans (h.inv.lt_of_mem_log hm).2 (UInt64.le_of_lt hlt)
    · exact .inl hold
  | getFound | getAbsent | admitPut | rejectPut | admitDelete | rejectDelete | stampPut
  | stampDelete | refresh | rejectRefresh | lost => exact h.update hinv rfl rfl fun _ => .inl
  | @won i now expected operand =>
    have htokens : (s.finish i expected
        (if operand.opType = .casPut then .stored operand.version else .deleted)).tokens =
        s.tokens := by
      split <;> rfl
    exact h.update hinv rfl rfl fun t ht => .inl (htokens ▸ ht)
  | @merge i expected operand hpc =>
    refine h.mergeOperand hpc fun hdelete m hm hdel => ?_
    simp only [isAppliedDelete, Merged.applied, Merged.isDelete, Bool.and_eq_true,
      decide_eq_true_eq] at hdelete
    simp only [deletesInOrder, hpc, hdelete, ne_eq, not_true_eq_false, decide_false,
      Bool.not_true, Bool.or_self, Bool.false_or, List.all_eq_true] at horder
    simpa [hdel] using horder m hm
  | migrateRead => exact ⟨hinv, h.fence, h.guarded, h.kept⟩
  | migrateMerge hread hop =>
    have hsoft := h.inv.softens_migration (h.inv.migrators _ _ hread) hop
    exact ⟨hinv, h.fence_softens hsoft,
      fun m hm hdel t ht hlt => (h.guarded m hm hdel t ht hlt).softens hsoft, h.kept⟩
  | evictRead => exact ⟨hinv, h.fence, h.guarded, h.kept⟩
  | evictCommit hstaged =>
    refine ⟨hinv, by simp, fun m hm hdel t ht hlt => ?_, h.kept⟩
    simp only [evictionsSafe, hstaged, Bool.not_true, Bool.false_or, List.all_eq_true] at hevict
    have hle : ∀ t ∈ s.tokens, m.operand.version ≤ t := by simpa [hdel] using hevict m hm
    exact absurd hlt (UInt64.not_lt.mpr (hle t ht))

lemma fenceInv_run {ok : State → Event → Bool} {es : List Event}
    (hok : ∀ s e, ok s e = true → deletesInOrder s e = true ∧ evictionsSafe s e = true)
    (h : RunOk step (fun s e => ok s e = true) State.init es) : FenceInv (run step State.init es) :=
  invariant_of_trans (I := FenceInv)
    (fun s e _ hI hoke ht => fenceInv_trans hI (hok s e hoke).1 (hok s e hoke).2 ht)
    fenceInv_init h

/-! ## Without evictions -/

/-- In every run without evictions in which deletes apply in the order of their stamps: once a
delete has applied, no put that expects an older token applies. -/
theorem fence_order {es : List Event}
    (h : RunOk step (fun s e => (deletesInOrder s e && !isEviction e) = true) State.init es) :
    let s := run step State.init es
    ∀ t ∈ s.tokens, s.log.Pairwise fun newer older =>
      older.applied = true → older.isDelete = true → t < older.operand.version →
        newer.isPut = true → newer.operand.casExpectedVersion = t → newer.applied = false := by
  intro s t ht
  have hinv : FenceInv s := by
    refine fenceInv_run (fun s e hok => ?_) h
    simp only [Bool.and_eq_true, Bool.not_eq_true'] at hok
    refine ⟨hok.1, ?_⟩
    cases e with
    | evictCommit w => simp [isEviction] at hok
    | _ => rfl
  refine (hinv.kept t ht).imp fun hkept happlied hdelete => ?_
  exact hkept (by simp [isAppliedDelete, happlied, hdelete])

/-- A put that expects token 10 is overtaken by a delete with stamp 12. -/
def lateToken : List Event :=
  [.getRead 0 100, .nextVersion 0 10, .putRead 1 100 10 (.inline [0x2a]) 0, .nextVersion 1 11,
    .putRefresh 1 100, .deleteRead 2 100 0, .nextVersion 2 12, .merge 2, .merge 1]

theorem fence_order_lateToken :
    let s := run step State.init lateToken
    10 ∈ s.tokens ∧ s.log.length = 2 ∧ s.log.Pairwise fun newer older =>
      older.applied = true → older.isDelete = true → 10 < older.operand.version →
        newer.isPut = true → newer.operand.casExpectedVersion = 10 → newer.applied = false :=
  ⟨by decide, by decide, @fence_order lateToken (by decide) 10 (by decide)⟩

/-- An unguarded delete takes stamp 10 and waits; a read gets token 20; a delete with stamp 30
applies; the waiting delete applies and lowers the fence to 10; a put uses the token. -/
def lateDelete : List Event :=
  [.deleteRead 0 100 0, .nextVersion 0 10, .getRead 1 100, .nextVersion 1 20, .deleteRead 2 100 0,
    .nextVersion 2 30, .merge 2, .merge 0, .putRead 3 100 20 (.inline [0x2a]) 0, .nextVersion 3 40,
    .putRefresh 3 100, .merge 3]

/-- In `lateDelete` the put that expects token 20 applies after the delete with stamp 30. -/
theorem lateDelete_admits :
    (∀ e ∈ lateDelete, NoTTL e ∧ isEviction e = false) ∧
    let s := run step State.init lateDelete
    20 ∈ s.tokens ∧ s.calls 1 = .done 0 (.absent 20) ∧
      s.log.map (fun m => (m.operand.opType, m.operand.version, m.operand.casExpectedVersion,
        m.applied)) =
        [(.casPut, 40, 20, true), (.casDelete, 10, 0, true), (.casDelete, 30, 0, true)] := by
  decide

/-! ## With evictions -/

/-- In every run in which deletes apply in the order of their stamps and evictions remove a row
only if no token is older than an applied delete: a put that is about to merge with a token older
than an applied delete does not apply, whatever was created and evicted since the delete. -/
theorem fence_survives_eviction {es : List Event}
    (h : RunOk step (fun s e => (deletesInOrder s e && evictionsSafe s e) = true) State.init es) :
    let s := run step State.init es
    ∀ i t operand, s.calls i = .merging t operand → operand.opType = .casPut → t ∈ s.tokens →
      (∃ m ∈ s.log, m.applied = true ∧ m.isDelete = true ∧ t < m.operand.version) →
      applies s.row operand = false := by
  rintro s i t operand hpc hput ht ⟨m, hm, happlied, hdelete, hlt⟩
  have hinv : FenceInv s := fenceInv_run (fun s e hok => by simpa using hok) h
  obtain ⟨-, hexpected, -⟩ : CallOk s i (.merging t operand) := hpc ▸ hinv.inv.calls i
  have hguarded := hinv.guarded m hm (by simp [isAppliedDelete, happlied, hdelete]) t ht hlt
  exact hinv.inv.applies_eq_false_of_guarded ht hguarded hexpected

/-- The key is created and evicted. A put that expects token 11 is about to merge; meanwhile the
key is deleted with stamp 13, an eviction pass meets the tombstone, and the key is recreated. -/
def recreated : List Event :=
  [.putRead 0 100 0 (.inline [0x2a]) 0, .nextVersion 0 10, .putRefresh 0 100, .merge 0,
    .evictRead 0 100, .evictCommit 0, .getRead 1 100, .nextVersion 1 11,
    .putRead 2 100 11 (.inline [0x2b]) 0, .nextVersion 2 12, .putRefresh 2 100,
    .deleteRead 3 100 0, .nextVersion 3 13, .merge 3, .evictRead 1 100, .evictCommit 1,
    .putRead 4 100 0 (.inline [0x2c]) 0, .nextVersion 4 14, .putRefresh 4 100, .merge 4]

theorem fence_survives_eviction_recreated :
    let s := run step State.init recreated
    s.calls 2 = .merging 11 (casPutOperand (.inline [0x2b]) 0 12 11) ∧
      applies s.row (casPutOperand (.inline [0x2b]) 0 12 11) = false :=
  ⟨by decide, @fence_survives_eviction recreated (by decide) 2 11 _ (by decide) (by decide)
    (by decide) (by decide)⟩

/-- A read gets token 10, the key is created, deleted with stamp 12 and recreated; an eviction pass
removes the new row; a put uses the token. -/
def evicted : List Event :=
  [.getRead 0 100, .nextVersion 0 10, .putRead 1 100 0 (.inline [0x2a]) 0, .nextVersion 1 11,
    .putRefresh 1 100, .merge 1, .deleteRead 2 100 11, .nextVersion 2 12, .merge 2,
    .putRead 3 100 0 (.inline [0x2b]) 0, .nextVersion 3 13, .putRefresh 3 100, .merge 3,
    .evictRead 0 100, .evictCommit 0, .putRead 4 100 10 (.inline [0x2c]) 0, .nextVersion 4 14,
    .putRefresh 4 100]

/-- At the end of `evicted` a put that expects token 10 applies, after the delete with stamp 12;
all deletes applied in the order of their stamps. -/
theorem evicted_admits :
    RunOk step (fun s e => deletesInOrder s e = true) State.init evicted ∧
    let s := run step State.init evicted
    10 ∈ s.tokens ∧ (∃ m ∈ s.log, m.applied = true ∧ m.isDelete = true ∧ m.operand.version = 12) ∧
      s.calls 4 = .merging 10 (casPutOperand (.inline [0x2c]) 0 14 10) ∧
      applies s.row (casPutOperand (.inline [0x2c]) 0 14 10) = true := by
  decide

end OCache.Cas
