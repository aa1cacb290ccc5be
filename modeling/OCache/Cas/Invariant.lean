import OCache.Cas.Protocol

/-!
# What the row and the calls say about each other

The structural invariant of the compare-and-swap system when no value has a time to live: stamps are
unique, an operand is merged at most once, every row goes back to an operand that applied, and every
version a caller learned is such a row's or a stamp taken for an absent read. Migrations and
evictions are included; neither puts a new version on the row.
-/

namespace OCache.Cas

open Merge

/-- A put of this event has no time to live. -/
def NoTTL : Event → Prop
  | .putRead _ _ _ _ expiry => expiry = 0
  | _ => True

instance : DecidablePred NoTTL
  | .putRead _ _ _ _ _ => inferInstanceAs (Decidable (_ = _))
  | .getRead _ _ | .deleteRead _ _ _ | .nextVersion _ _ | .putRefresh _ _ | .merge _
  | .readBack _ _ | .migrateRead _ | .migrateMerge _ _ _ | .evictRead _ _ | .evictCommit _ =>
    isTrue trivial

/-! ## The invariant -/

section Definitions

variable (s : State)

/-- The stamp was taken by a read of the absent key that returned it. -/
def FreshToken (t : UInt64) : Prop :=
  ∃ i expected, (i, t) ∈ s.issued ∧ s.calls i = .done expected (.absent t)

/-- An applied put carries the stamp. -/
def PutStamp (v : UInt64) : Prop :=
  ∃ m ∈ s.log, m.applied = true ∧ m.isPut = true ∧ m.operand.version = v

/-- An applied delete carries the stamp. -/
def DeleteStamp (v : UInt64) : Prop :=
  ∃ m ∈ s.log, m.applied = true ∧ m.isDelete = true ∧ m.operand.version = v

/-- The version may be in the hands of a caller. -/
def Known (v : UInt64) : Prop := FreshToken s v ∨ PutStamp s v ∨ DeleteStamp s v

/-- The row is the value of an applied put, possibly moved, or a tombstone. -/
structure RowOk (r : ValueMessage) : Prop where
  opType : r.opType = .none
  origin : (r.expiry = 0 ∧ PutStamp s r.version) ∨ r = tombstone 0 ∨
    (r = tombstone r.version ∧ DeleteStamp s r.version)

/-- The call owns the stamp and has not merged it. -/
def Unmerged (i : Nat) (stamp : UInt64) : Prop :=
  (i, stamp) ∈ s.issued ∧ ∀ m ∈ s.log, m.operand.version ≠ stamp

/-- What is known about a call at each point. -/
def CallOk (i : Nat) : Call → Prop
  | .idle | .getToken => True
  | .stamping op expected carried =>
    carried = expected ∧ ∀ payload expiry, op = .put payload expiry → expiry = 0
  | .refreshing _ expiry _ stamp => expiry = 0 ∧ Unmerged s i stamp
  | .merging expected operand =>
    isCas operand = true ∧ operand.casExpectedVersion = expected ∧ operand.expiry = 0 ∧
      Unmerged s i operand.version
  | .readingBack expected operand =>
    operand.casExpectedVersion = expected ∧ ∃ m ∈ s.log, m.call = i ∧ m.operand = operand
  | .done expected outcome =>
    outcome.isSuccess = true →
      ∃ m ∈ s.log, m.call = i ∧ m.applied = true ∧ m.operand.casExpectedVersion = expected

/-- The call is past its merge, or returned without saying that it is not. -/
@[simp] def mayHaveMerged : Call → Bool
  | .readingBack _ _ | .done _ (.stored _) | .done _ .deleted | .done _ (.mismatch _) => true
  | _ => false

/-- The structural invariant. -/
structure Inv : Prop where
  row : ∀ r, s.row = some r → RowOk s r
  migrators : ∀ w r, s.migrators w = some r → RowOk s r
  calls : ∀ i, CallOk s i (s.calls i)
  log : ∀ m ∈ s.log, (m.call, m.operand.version) ∈ s.issued ∧ isCas m.operand = true ∧
    mayHaveMerged (s.calls m.call) = true
  log_unique : ∀ m ∈ s.log, ∀ m' ∈ s.log, m.operand.version = m'.operand.version → m = m'
  legacy_le : versionLegacy ≤ s.lastStamp
  issued : ∀ p ∈ s.issued, versionLegacy < p.2 ∧ p.2 ≤ s.lastStamp
  issued_unique : ∀ p ∈ s.issued, ∀ q ∈ s.issued, p.2 = q.2 → p = q
  returned : ∀ v ∈ s.returned, v = 0 ∨ Known s v
  tokens : ∀ t ∈ s.tokens, FreshToken s t ∨ DeleteStamp s t

end Definitions

lemma inv_init : Inv State.init where
  row := by simp
  migrators := by simp
  calls _ := trivial
  log := by simp
  log_unique := by simp
  legacy_le := by decide
  issued := by simp
  issued_unique := by simp
  returned := by simp
  tokens := by simp

variable {s s' : State} {i : Nat} {v : UInt64} {r : ValueMessage}

/-! ## Facts about rows and versions -/

variable {m : Merged} {c : Call} {expected : UInt64} {now : Int64}

lemma Inv.lt_of_mem_log (h : Inv s) (hm : m ∈ s.log) :
    versionLegacy < m.operand.version ∧ m.operand.version ≤ s.lastStamp :=
  h.issued _ (h.log m hm).1

lemma Inv.lt_of_known (h : Inv s) (hv : Known s v) : versionLegacy < v ∧ v ≤ s.lastStamp := by
  rcases hv with ⟨i, e, hi, -⟩ | ⟨m, hm, -, -, rfl⟩ | ⟨m, hm, -, -, rfl⟩
  · exact h.issued _ hi
  all_goals exact h.lt_of_mem_log hm

lemma ne_zero_of_legacy_lt (h : versionLegacy < v) : v ≠ 0 := by
  rintro rfl
  exact absurd h (by decide)

lemma Inv.known_ne_zero (h : Inv s) (hv : Known s v) : v ≠ 0 :=
  ne_zero_of_legacy_lt (h.lt_of_known hv).1

/-- A stamp that is not merged yet is nobody's version. -/
theorem Inv.not_known_of_unmerged (h : Inv s) (hu : Unmerged s i v)
    (hi : ∀ e o, s.calls i ≠ .done e o) : ¬ Known s v := by
  rintro (⟨j, e, hj, hdone⟩ | ⟨m, hm, -, -, hv⟩ | ⟨m, hm, -, -, hv⟩)
  · have hij : (j, v) = (i, v) := h.issued_unique _ hj _ hu.1 rfl
    simp only [Prod.mk.injEq, and_true] at hij
    exact hi e _ (hij ▸ hdone)
  all_goals exact hu.2 m hm hv

/-- Put stamps and delete stamps are disjoint. -/
theorem Inv.not_deleteStamp_of_putStamp (h : Inv s) (hp : PutStamp s v) : ¬ DeleteStamp s v := by
  rintro ⟨m', hm', -, hdel, hv'⟩
  obtain ⟨m, hm, -, hput, hv⟩ := hp
  have heq : m = m' := h.log_unique m hm m' hm' (hv.trans hv'.symm)
  subst heq
  simp only [Merged.isPut, Merged.isDelete, decide_eq_true_eq] at hput hdel
  rw [hput] at hdel
  exact absurd hdel (by decide)

/-- The stamp of a put is not the token of an absent read. -/
theorem Inv.not_freshToken_of_putStamp (h : Inv s) (hp : PutStamp s v) : ¬ FreshToken s v := by
  rintro ⟨j, e, hj, hdone⟩
  obtain ⟨m, hm, -, -, rfl⟩ := hp
  obtain ⟨hissued, -, hmerged⟩ := h.log m hm
  have hcall : (m.call, m.operand.version) = (j, m.operand.version) :=
    h.issued_unique _ hissued _ hj rfl
  simp only [Prod.mk.injEq, and_true] at hcall
  simp [hcall, hdone] at hmerged

lemma RowOk.expiry_eq (h : RowOk s r) : r.expiry = 0 ∨ r.expiry = tombstoneExpiry := by
  rcases h.origin with h | h | h
  · exact .inl h.1
  · exact .inr (by rw [h]; rfl)
  · exact .inr (by rw [h.1]; rfl)

/-- A live row carries the stamp of a put. -/
theorem RowOk.putStamp_of_live (h : RowOk s r) (hlive : r.expiry ≠ tombstoneExpiry) :
    PutStamp s r.version := by
  rcases h.origin with h | h | h
  · exact h.2
  · exact absurd (by rw [h]; rfl) hlive
  · exact absurd (by rw [h.1]; rfl) hlive

/-- A stamped tombstone carries the stamp of a delete. -/
theorem RowOk.deleteStamp_of_tombstone (h : RowOk s r) (hdead : r.expiry = tombstoneExpiry)
    (hstamped : r.version ≠ 0) : DeleteStamp s r.version := by
  rcases h.origin with h | h | h
  · rw [h.1] at hdead
    exact absurd hdead (by decide)
  · exact absurd (by rw [h]; rfl) hstamped
  · exact h.2

lemma RowOk.live_of_valueType (h : RowOk s r) (htype : r.valueType ≠ .inline) :
    r.expiry = 0 ∧ PutStamp s r.version := by
  rcases h.origin with h | h | h
  · exact h
  · exact absurd (by rw [h]; rfl) htype
  · exact absurd (by rw [h.1]; rfl) htype

lemma Inv.effectiveRowVersion_eq (h : Inv s) (hr : RowOk s r) :
    effectiveRowVersion (some r) = r.version := by
  by_cases hlive : r.expiry = tombstoneExpiry
  · simp [effectiveRowVersion, hlive]
  · have hne := h.known_ne_zero (.inr (.inl (hr.putStamp_of_live hlive)))
    simp [effectiveRowVersion, hlive, hne]

/-- A row of the history is not the all-default one, so the operator sees it. -/
theorem Inv.baseOf_of_rowOk (h : Inv s) (hr : RowOk s r) : baseOf (some r) = some r := by
  have hne : r ≠ {} := by
    rintro rfl
    rcases hr.origin with ⟨-, hput⟩ | hdead | ⟨hdead, -⟩
    · exact h.known_ne_zero (.inr (.inl hput)) rfl
    all_goals exact absurd hdead (by decide)
  simp [baseOf, hne]

lemma Inv.baseOf_row (h : Inv s) (hr : s.row = some r) : baseOf s.row = some r := by
  rw [hr]
  exact h.baseOf_of_rowOk (h.row r hr)

/-- Without times to live, a row is live, or a stamped or an unstamped tombstone. -/
theorem Inv.casClassify_cases (h : Inv s) (now : Int64) (hr : RowOk s r) :
    (r.expiry ≠ tombstoneExpiry ∧ casClassify now (some r) = (.live, r.version)) ∨
      (r.expiry = tombstoneExpiry ∧ r.version ≠ 0 ∧
        casClassify now (some r) = (.fenced, r.version)) ∨
      (r.expiry = tombstoneExpiry ∧ r.version = 0 ∧ casClassify now (some r) = (.absent, 0)) := by
  rcases hr.expiry_eq with hlive | hdead
  · refine .inl ⟨by rw [hlive]; decide, ?_⟩
    have hne : (0 : Int64) ≠ tombstoneExpiry := by decide
    rw [casClassify, h.effectiveRowVersion_eq hr, hlive]
    simp [hne]
  · by_cases hzero : r.version = 0
    · exact .inr (.inr ⟨hdead, hzero, by simp [casClassify, hdead, hzero]⟩)
    · exact .inr (.inl ⟨hdead, hzero, by simp [casClassify, hdead, hzero]⟩)

/-- The version a mismatch reports is nothing, or a version of the past. -/
theorem Inv.known_currentVersionOf (h : Inv s) (now : Int64) :
    currentVersionOf now s.row = 0 ∨ Known s (currentVersionOf now s.row) := by
  cases hrow : s.row with
  | none => exact .inl rfl
  | some r =>
    have hr := h.row r hrow
    rcases h.casClassify_cases now hr with ⟨hlive, hc⟩ | ⟨hdead, hstamped, hc⟩ | ⟨-, -, hc⟩
    · refine .inr ?_
      rw [currentVersionOf, hc]
      exact .inr (.inl (hr.putStamp_of_live hlive))
    · refine .inr ?_
      rw [currentVersionOf, hc]
      exact .inr (.inr (hr.deleteStamp_of_tombstone hdead hstamped))
    · exact .inl (by rw [currentVersionOf, hc])

/-- Without times to live the operand carries the caller's own expectation. -/
theorem Inv.carriedVersion_eq (h : Inv s) (now : Int64) (expected : UInt64) :
    carriedVersion now s.row expected = expected := by
  cases hrow : s.row with
  | none => rfl
  | some r =>
    rcases h.casClassify_cases now (h.row r hrow) with ⟨-, hc⟩ | ⟨hdead, -⟩ | ⟨hdead, -⟩
    · simp [carriedVersion, hc]
    all_goals simp [carriedVersion, hdead]

/-! ## Growing histories -/

/-- `s'` remembers what `s` knew. -/
structure Extends (s s' : State) : Prop where
  log : ∀ m ∈ s.log, m ∈ s'.log
  issued : ∀ p ∈ s.issued, p ∈ s'.issued
  done : ∀ i e o, s.calls i = .done e o → s'.calls i = .done e o

section

variable (hx : Extends s s')

include hx

lemma PutStamp.mono (h : PutStamp s v) : PutStamp s' v :=
  let ⟨m, hm, h⟩ := h
  ⟨m, hx.log m hm, h⟩

lemma DeleteStamp.mono (h : DeleteStamp s v) : DeleteStamp s' v :=
  let ⟨m, hm, h⟩ := h
  ⟨m, hx.log m hm, h⟩

lemma FreshToken.mono (h : FreshToken s v) : FreshToken s' v :=
  let ⟨i, e, hi, h⟩ := h
  ⟨i, e, hx.issued _ hi, hx.done i e _ h⟩

lemma Known.mono (h : Known s v) : Known s' v :=
  h.imp (·.mono hx) (Or.imp (·.mono hx) (·.mono hx))

lemma RowOk.mono (h : RowOk s r) : RowOk s' r where
  opType := h.opType
  origin := h.origin.imp (And.imp_right (·.mono hx)) (Or.imp_right (And.imp_right (·.mono hx)))

end

lemma Unmerged.mono (hlog : s'.log = s.log) (hissued : ∀ p ∈ s.issued, p ∈ s'.issued)
    (h : Unmerged s i v) : Unmerged s' i v :=
  ⟨hissued _ h.1, hlog ▸ h.2⟩

lemma CallOk.mono (hlog : s'.log = s.log) (hissued : ∀ p ∈ s.issued, p ∈ s'.issued)
    (h : CallOk s i c) : CallOk s' i c := by
  cases c with
  | idle | getToken => trivial
  | stamping => exact h
  | refreshing => exact ⟨h.1, h.2.mono hlog hissued⟩
  | merging => exact ⟨h.1, h.2.1, h.2.2.1, h.2.2.2.mono hlog hissued⟩
  | readingBack | done => simpa only [CallOk, hlog] using h

/-! ## Updates -/

section Updates

variable {c : Call} {expected stamp : UInt64} {outcome : Outcome} {operand : ValueMessage}

lemma extends_setCall (hnd : ∀ e o, s.calls i ≠ .done e o) : Extends s (s.setCall i c) where
  log _ h := h
  issued _ h := h
  done j e o h := by
    have hj : j ≠ i := fun hij => hnd e o (hij ▸ h)
    simpa [hj] using h

lemma extends_finish (hnd : ∀ e o, s.calls i ≠ .done e o) :
    Extends s (s.finish i expected outcome) :=
  have hx := extends_setCall (c := .done expected outcome) hnd
  ⟨hx.log, hx.issued, hx.done⟩

/-- A call that has not returned moves on. -/
theorem Inv.setCall (h : Inv s) (hnd : ∀ e o, s.calls i ≠ .done e o)
    (hmerged : mayHaveMerged (s.calls i) = true → mayHaveMerged c = true) (hc : CallOk s i c) :
    Inv (s.setCall i c) where
  row r hr := (h.row r hr).mono (extends_setCall hnd)
  migrators w r hr := (h.migrators w r hr).mono (extends_setCall hnd)
  calls j := by
    refine CallOk.mono (s := s) rfl (fun _ hp => hp) ?_
    by_cases hj : j = i
    · subst hj
      simpa using hc
    · simpa [hj] using h.calls j
  log m hm := by
    obtain ⟨hissued, hcas, hcall⟩ := h.log m hm
    refine ⟨hissued, hcas, ?_⟩
    by_cases hj : m.call = i
    · simpa [hj] using hmerged (hj ▸ hcall)
    · simpa [hj] using hcall
  log_unique := h.log_unique
  legacy_le := h.legacy_le
  issued := h.issued
  issued_unique := h.issued_unique
  returned v hv := (h.returned v hv).imp_right (·.mono (extends_setCall hnd))
  tokens t ht := (h.tokens t ht).imp (·.mono (extends_setCall hnd)) (·.mono (extends_setCall hnd))

/-- A call returns. -/
theorem Inv.finish (h : Inv s) (hnd : ∀ e o, s.calls i ≠ .done e o)
    (hmerged : mayHaveMerged (s.calls i) = true → mayHaveMerged (.done expected outcome) = true)
    (hc : CallOk s i (.done expected outcome))
    (hret : ∀ v ∈ outcome.version, v = 0 ∨ Known (s.finish i expected outcome) v)
    (htok : ∀ t, outcome = .absent t →
      FreshToken (s.finish i expected outcome) t ∨ DeleteStamp (s.finish i expected outcome) t) :
    Inv (s.finish i expected outcome) := by
  have hset := h.setCall hnd hmerged hc
  -- Only the two lists of what callers learned differ from `setCall`.
  have hx : Extends (s.setCall i (.done expected outcome)) (s.finish i expected outcome) :=
    ⟨fun _ h => h, fun _ h => h, fun _ _ _ h => h⟩
  exact {
    row := fun r hr => (hset.row r hr).mono hx
    migrators := fun w r hr => (hset.migrators w r hr).mono hx
    calls := fun j => (hset.calls j).mono rfl fun _ hp => hp
    log := hset.log
    log_unique := hset.log_unique
    legacy_le := hset.legacy_le
    issued := hset.issued
    issued_unique := hset.issued_unique
    returned := by
      intro v hv
      rcases List.mem_append.mp hv with hv | hv
      · exact hret v (by simpa using hv)
      · exact (hset.returned v hv).imp_right (·.mono hx)
    tokens := by
      intro t ht
      have hold : t ∈ s.tokens → FreshToken (s.finish i expected outcome) t ∨
          DeleteStamp (s.finish i expected outcome) t := fun ht =>
        (hset.tokens t ht).imp (·.mono hx) (·.mono hx)
      cases outcome with
      | absent token =>
        rcases List.mem_cons.mp ht with rfl | ht
        · exact htok t rfl
        · exact hold ht
      | found | stored | deleted | mismatch => exact hold ht }

/-- A stamp above all earlier ones is issued. -/
theorem Inv.issue (h : Inv s) (hlt : s.lastStamp < stamp) : Inv (s.issue i stamp) := by
  have hx : Extends s (s.issue i stamp) :=
    ⟨fun _ h => h, fun _ h => List.mem_cons_of_mem _ h, fun _ _ _ h => h⟩
  have hold : ∀ p ∈ s.issued, p.2 ≠ stamp := fun p hp heq =>
    UInt64.lt_irrefl _ (UInt64.lt_of_le_of_lt (heq ▸ (h.issued p hp).2) hlt)
  exact {
    row := fun r hr => (h.row r hr).mono hx
    migrators := fun w r hr => (h.migrators w r hr).mono hx
    calls := fun j => CallOk.mono (s := s) rfl hx.issued (h.calls j)
    log := fun m hm => ⟨hx.issued _ (h.log m hm).1, (h.log m hm).2⟩
    log_unique := h.log_unique
    legacy_le := UInt64.le_trans h.legacy_le (UInt64.le_of_lt hlt)
    issued := by
      intro p hp
      rcases List.mem_cons.mp hp with rfl | hp
      · exact ⟨UInt64.lt_of_le_of_lt h.legacy_le hlt, UInt64.le_refl _⟩
      · exact ⟨(h.issued p hp).1, UInt64.le_trans (h.issued p hp).2 (UInt64.le_of_lt hlt)⟩
    issued_unique := by
      intro p hp q hq heq
      rcases List.mem_cons.mp hp with rfl | hp <;> rcases List.mem_cons.mp hq with rfl | hq
      · rfl
      · exact absurd heq.symm (hold q hq)
      · exact absurd heq (hold p hp)
      · exact h.issued_unique p hp q hq heq
    returned := fun v hv => (h.returned v hv).imp_right (·.mono hx)
    tokens := fun t ht => (h.tokens t ht).imp (·.mono hx) (·.mono hx) }

lemma Inv.unmerged_issue (h : Inv s) (hlt : s.lastStamp < stamp) :
    Unmerged (s.issue i stamp) i stamp :=
  ⟨List.mem_cons_self, fun _ hm heq =>
    UInt64.lt_irrefl _ (UInt64.lt_of_le_of_lt (heq ▸ (h.lt_of_mem_log hm).2) hlt)⟩

lemma extends_mergeOperand (hpc : s.calls i = .merging expected operand) :
    Extends s (s.mergeOperand i expected operand) where
  log _ h := List.mem_cons_of_mem _ h
  issued _ h := h
  done j e o h := by
    have hj : j ≠ i := fun hij => by simp [hij, hpc] at h
    simpa [hj] using h

/-- The row an operand leaves goes back to that operand or to the row it met. -/
theorem Inv.rowOk_mergeOperand (h : Inv s) (hpc : s.calls i = .merging expected operand) :
    RowOk (s.mergeOperand i expected operand) (mergeRow s.row [operand]) := by
  obtain ⟨hcas, -, hexpiry, -⟩ : CallOk s i (.merging expected operand) := hpc ▸ h.calls i
  rw [mergeRow_cas hcas]
  split
  · rename_i happlies
    have hmem : (⟨i, operand, s.row⟩ : Merged) ∈ (s.mergeOperand i expected operand).log :=
      List.mem_cons_self
    refine ⟨casResult_opType, ?_⟩
    simp only [isCas, decide_eq_true_eq] at hcas
    rcases hcas with hput | hdel
    · refine .inl ⟨by rw [casResult_expiry_of_casPut hput, hexpiry], ?_⟩
      exact ⟨_, hmem, happlies, by simpa [Merged.isPut] using hput, by simp⟩
    · refine .inr (.inr ⟨by rw [casResult_of_casDelete hdel]; rfl, ?_⟩)
      exact ⟨_, hmem, happlies, by simpa [Merged.isDelete] using hdel, by simp⟩
  · cases hbase : baseOf s.row with
    | none => exact ⟨rfl, .inr (.inl rfl)⟩
    | some r => exact (h.row r (eq_some_of_baseOf hbase)).mono (extends_mergeOperand hpc)

/-- A call merges its operand. -/
theorem Inv.mergeOperand (h : Inv s) (hpc : s.calls i = .merging expected operand) :
    Inv (s.mergeOperand i expected operand) := by
  have hx := extends_mergeOperand hpc
  have hcall : CallOk s i (.merging expected operand) := hpc ▸ h.calls i
  obtain ⟨hcas, hexpected, -, hunmerged⟩ := hcall
  have hrow := h.rowOk_mergeOperand hpc
  exact {
    row := by
      intro r hr
      rw [State.mergeOperand, Option.some.injEq] at hr
      exact hr ▸ hrow
    migrators := fun w r hr => (h.migrators w r hr).mono hx
    calls := by
      intro j
      by_cases hj : j = i
      · subst hj
        simpa [CallOk] using hexpected
      · -- The stamps of the other calls are different, so they stay unmerged.
        have hother : ∀ v, Unmerged s j v → Unmerged (s.mergeOperand i expected operand) j v := by
          intro v hv
          refine ⟨hv.1, fun m hm => ?_⟩
          rcases List.mem_cons.mp hm with rfl | hm
          · rintro rfl
            have := h.issued_unique _ hv.1 _ hunmerged.1 rfl
            exact hj (by simpa using this)
          · exact hv.2 m hm
        have hcj := h.calls j
        have hcalls : (s.mergeOperand i expected operand).calls j = s.calls j := by
          simp [hj]
        rw [hcalls]
        cases hc : s.calls j with
        | idle | getToken => trivial
        | stamping =>
          rw [hc] at hcj
          exact hcj
        | refreshing =>
          rw [hc] at hcj
          exact ⟨hcj.1, hother _ hcj.2⟩
        | merging =>
          rw [hc] at hcj
          exact ⟨hcj.1, hcj.2.1, hcj.2.2.1, hother _ hcj.2.2.2⟩
        | readingBack =>
          rw [hc] at hcj
          obtain ⟨he, m, hm, hm'⟩ := hcj
          exact ⟨he, m, hx.log m hm, hm'⟩
        | done =>
          rw [hc] at hcj
          intro hsuccess
          obtain ⟨m, hm, hm'⟩ := hcj hsuccess
          exact ⟨m, hx.log m hm, hm'⟩
    log := by
      intro m hm
      rcases List.mem_cons.mp hm with rfl | hm
      · exact ⟨hunmerged.1, hcas, by simp⟩
      · obtain ⟨hissued, hmcas, hmerged⟩ := h.log m hm
        refine ⟨hissued, hmcas, ?_⟩
        by_cases hj : m.call = i
        · simp [hj]
        · simpa [hj] using hmerged
    log_unique := by
      intro m hm m' hm' heq
      rcases List.mem_cons.mp hm with rfl | hm <;> rcases List.mem_cons.mp hm' with rfl | hm'
      · rfl
      · exact absurd heq.symm (hunmerged.2 m' hm')
      · exact absurd heq (hunmerged.2 m hm)
      · exact h.log_unique m hm m' hm' heq
    legacy_le := h.legacy_le
    issued := h.issued
    issued_unique := h.issued_unique
    returned := fun v hv => (h.returned v hv).imp_right (·.mono hx)
    tokens := fun t ht => (h.tokens t ht).imp (·.mono hx) (·.mono hx) }

/-- A step outside the calls, after which every row still goes back to the same history. -/
theorem Inv.frame (h : Inv s) {row : Option ValueMessage} {migrators : Nat → Option ValueMessage}
    {evictors : Nat → Bool} (hrow : ∀ r, row = some r → RowOk s r)
    (hmigrators : ∀ w r, migrators w = some r → RowOk s r) :
    Inv { s with row := row, migrators := migrators, evictors := evictors } := by
  have hx : Extends s { s with row := row, migrators := migrators, evictors := evictors } :=
    ⟨fun _ h => h, fun _ h => h, fun _ _ _ h => h⟩
  exact {
    row := fun r hr => (hrow r hr).mono hx
    migrators := fun w r hr => (hmigrators w r hr).mono hx
    calls := fun j => CallOk.mono (s := s) rfl (fun _ hp => hp) (h.calls j)
    log := h.log
    log_unique := h.log_unique
    legacy_le := h.legacy_le
    issued := h.issued
    issued_unique := h.issued_unique
    returned := fun v hv => (h.returned v hv).imp_right (·.mono hx)
    tokens := fun t ht => (h.tokens t ht).imp (·.mono hx) (·.mono hx) }

/-- A migration moves a row of raw or segment type, so the value of a put. -/
theorem Inv.rowOk_migration (h : Inv s) {read : ValueMessage} {segmentPath : String}
    {segmentOffset : Int64} (hread : RowOk s read)
    (hop : migrationOperand read segmentPath segmentOffset = some operand) :
    RowOk s (mergeRow s.row [operand]) := by
  obtain ⟨htype, hsegment, hopType, hexpiry⟩ := migrationOperand_spec hop
  rcases mergeRow_migration (hopType.trans hread.opType) hsegment s.row with
    hsame | ⟨base, hbase, hpath, hmoved⟩
  · rw [hsame]
    cases hbase : baseOf s.row with
    | none => exact ⟨rfl, .inr (.inl rfl)⟩
    | some r => exact h.row r (eq_some_of_baseOf hbase)
  · have hlive := (h.row base hbase).live_of_valueType (valueType_of_pathMatches hpath)
    rw [hmoved]
    exact ⟨rfl, .inl ⟨hexpiry.trans (hread.live_of_valueType htype).1, hlive.2⟩⟩

end Updates

/-! ## Every transition keeps the invariant -/

lemma callOk_done_of_not_isSuccess {outcome : Outcome} (h : outcome.isSuccess = false) :
    CallOk s i (.done expected outcome) := by
  intro hsuccess
  rw [h] at hsuccess
  contradiction

lemma not_done_of_eq (hc : s.calls i = c) (hne : ∀ e o, c ≠ .done e o) :
    ∀ e o, s.calls i ≠ .done e o := by
  rwa [hc]

variable (h : Inv s)

include h

/-- A call that returns with a mismatch learns the version of the row. -/
theorem Inv.finish_mismatch (now : Int64) (hnd : ∀ e o, s.calls i ≠ .done e o) :
    Inv (s.finish i expected (.mismatch (currentVersionOf now s.row))) := by
  refine h.finish hnd (by simp) (callOk_done_of_not_isSuccess rfl) ?_ (by simp)
  intro v hv
  simp only [Outcome.version, Option.mem_def, Option.some.injEq] at hv
  subst hv
  exact (h.known_currentVersionOf now).imp_right (·.mono (extends_finish hnd))

/-- A live read returns the stamp of a put. -/
theorem Inv.finish_found (hpc : s.calls i = .idle) (hrow : casClassify now s.row = (.live, v)) :
    Inv (s.finish i 0 (.found v)) := by
  have hnd := not_done_of_eq hpc (by simp)
  have hv : v = currentVersionOf now s.row := by rw [currentVersionOf, hrow]
  refine h.finish hnd (by simp [hpc]) (callOk_done_of_not_isSuccess rfl)
    ?_ (by simp)
  intro v' hv'
  simp only [Outcome.version, Option.mem_def, Option.some.injEq] at hv'
  rw [← hv', hv]
  exact (h.known_currentVersionOf now).imp_right (·.mono (extends_finish hnd))

lemma Inv.deleteStamp_of_fenced (hrow : casClassify now s.row = (.fenced, v)) :
    DeleteStamp s v := by
  cases hr : s.row with
  | none => simp [hr, casClassify] at hrow
  | some r =>
    rw [hr] at hrow
    rcases h.casClassify_cases now (h.row r hr) with ⟨-, hc⟩ | ⟨hdead, hstamped, hc⟩ | ⟨-, -, hc⟩
    · simp [hc] at hrow
    · rw [hc, Prod.mk.injEq] at hrow
      exact hrow.2 ▸ (h.row r hr).deleteStamp_of_tombstone hdead hstamped
    · simp [hc] at hrow

/-- A read of a fenced key hands out the fence. -/
theorem Inv.finish_fenced (hpc : s.calls i = .idle) (hrow : casClassify now s.row = (.fenced, v)) :
    Inv (s.finish i 0 (.absent v)) := by
  have hnd := not_done_of_eq hpc (by simp)
  have hstamp : DeleteStamp (s.finish i 0 (.absent v)) v :=
    (h.deleteStamp_of_fenced hrow).mono (extends_finish hnd)
  refine h.finish hnd (by simp [hpc]) (callOk_done_of_not_isSuccess rfl) ?_ ?_
  · intro v' hv'
    simp only [Outcome.version, Option.mem_def, Option.some.injEq] at hv'
    exact hv' ▸ .inr (.inr (.inr hstamp))
  · rintro t ⟨⟩
    exact .inr hstamp

/-- A read of an absent key hands out the stamp it takes. -/
theorem Inv.finish_token {stamp : UInt64} (hpc : s.calls i = .getToken)
    (hlt : s.lastStamp < stamp) : Inv ((s.issue i stamp).finish i 0 (.absent stamp)) := by
  have hnd : ∀ e o, (s.issue i stamp).calls i ≠ .done e o := not_done_of_eq hpc (by simp)
  have htoken : FreshToken ((s.issue i stamp).finish i 0 (.absent stamp)) stamp :=
    ⟨i, 0, List.mem_cons_self, by simp⟩
  refine (h.issue hlt).finish hnd ?_ (callOk_done_of_not_isSuccess rfl) ?_ ?_
  · simp [hpc]
  · intro v' hv'
    simp only [Outcome.version, Option.mem_def, Option.some.injEq] at hv'
    exact hv' ▸ .inr (.inl htoken)
  · rintro t ⟨⟩
    exact .inl htoken

/-- The operand whose stamp is on the row is the one that applied. -/
theorem Inv.applied_of_carries (hm : m ∈ s.log) (hrow : carries s.row m.operand.version = true) :
    m.applied = true := by
  cases hr : s.row with
  | none => simp [hr] at hrow
  | some r =>
    have hversion : r.version = m.operand.version := by simpa [hr] using hrow
    have hne : r.version ≠ 0 := by
      rw [hversion]
      exact ne_zero_of_legacy_lt (h.lt_of_mem_log hm).1
    have horigin : ∃ m' ∈ s.log, m'.applied = true ∧ m'.operand.version = r.version := by
      by_cases hlive : r.expiry = tombstoneExpiry
      · obtain ⟨m', hm', ha, -, hv⟩ := (h.row r hr).deleteStamp_of_tombstone hlive hne
        exact ⟨m', hm', ha, hv⟩
      · obtain ⟨m', hm', ha, -, hv⟩ := (h.row r hr).putStamp_of_live hlive
        exact ⟨m', hm', ha, hv⟩
    obtain ⟨m', hm', happlied, hv⟩ := horigin
    exact h.log_unique m' hm' m hm (hv.trans hversion) ▸ happlied

/-- A call that finds its own stamp returns with success. -/
theorem Inv.finish_won {operand : ValueMessage} (hpc : s.calls i = .readingBack expected operand)
    (hrow : carries s.row operand.version = true) :
    Inv (s.finish i expected
      (if operand.opType = .casPut then .stored operand.version else .deleted)) := by
  have hnd := not_done_of_eq hpc (by simp)
  obtain ⟨hexpected, m, hm, hcall, hoperand⟩ : CallOk s i (.readingBack expected operand) :=
    hpc ▸ h.calls i
  subst hoperand
  have happlied := h.applied_of_carries hm hrow
  have hwon : ∃ m ∈ s.log, m.call = i ∧ m.applied = true ∧
      m.operand.casExpectedVersion = expected := ⟨m, hm, hcall, happlied, hexpected⟩
  split
  · rename_i hput
    refine h.finish hnd (by simp) (fun _ => hwon) ?_ (by simp)
    intro v' hv'
    simp only [Outcome.version, Option.mem_def, Option.some.injEq] at hv'
    exact hv' ▸ .inr (.inr (.inl ⟨m, hm, happlied, by simpa [Merged.isPut] using hput, rfl⟩))
  · exact h.finish hnd (by simp) (fun _ => hwon) (by simp [Outcome.version])
      (by simp)

lemma inv_trans {e : Event} (httl : NoTTL e) (ht : Trans s e s') : Inv s' := by
  cases ht with
  | getFound hpc hrow => exact h.finish_found hpc hrow
  | getFenced hpc hrow => exact h.finish_fenced hpc hrow
  | getAbsent hpc =>
    exact h.setCall (not_done_of_eq hpc (by simp)) (by simp [hpc]) trivial
  | getToken hpc hlt => exact h.finish_token hpc hlt
  | admitPut hpc =>
    refine h.setCall (not_done_of_eq hpc (by simp)) (by simp [hpc]) ⟨rfl, ?_⟩
    rintro _ _ ⟨⟩
    exact httl
  | rejectPut hpc => exact h.finish_mismatch _ (not_done_of_eq hpc (by simp))
  | admitDelete hpc hadmits =>
    exact h.setCall (not_done_of_eq hpc (by simp)) (by simp [hpc])
      ⟨h.carriedVersion_eq _ _, by simp⟩
  | rejectDelete hpc => exact h.finish_mismatch _ (not_done_of_eq hpc (by simp))
  | @stampPut i stamp payload expiry expected carried hpc hlt =>
    have hcall : CallOk s i (.stamping (.put payload expiry) expected carried) := hpc ▸ h.calls i
    exact (h.issue hlt).setCall (not_done_of_eq hpc (by simp))
      (by simp [hpc]) ⟨hcall.2 _ _ rfl, h.unmerged_issue hlt⟩
  | @stampDelete i stamp expected carried hpc hlt =>
    have hcall : CallOk s i (.stamping .delete expected carried) := hpc ▸ h.calls i
    exact (h.issue hlt).setCall (not_done_of_eq hpc (by simp))
      (by simp [hpc])
      ⟨by simp [isCas], hcall.1, rfl, h.unmerged_issue hlt⟩
  | @refresh i now payload expiry expected stamp hpc =>
    have hcall : CallOk s i (.refreshing payload expiry expected stamp) := hpc ▸ h.calls i
    refine h.setCall (not_done_of_eq hpc (by simp)) (by simp [hpc])
      ⟨by simp [isCas], ?_, by simpa using hcall.1, by simpa using hcall.2⟩
    simpa using h.carriedVersion_eq now expected
  | rejectRefresh hpc => exact h.finish_mismatch _ (not_done_of_eq hpc (by simp))
  | merge hpc => exact h.mergeOperand hpc
  | won hpc hrow => exact h.finish_won hpc hrow
  | lost hpc hrow => exact h.finish_mismatch _ (not_done_of_eq hpc (by simp))
  | @migrateRead w =>
    refine h.frame h.row fun w' r hr => ?_
    by_cases hw : w' = w
    · subst hw
      exact h.row r (by simpa using hr)
    · exact h.migrators w' r (by simpa [hw] using hr)
  | migrateMerge hread hop =>
    refine h.frame (fun r hr => ?_) h.migrators
    rw [Option.some.injEq] at hr
    exact hr ▸ h.rowOk_migration (h.migrators _ _ hread) hop
  | evictRead => exact h.frame h.row h.migrators
  | evictCommit hstaged => exact h.frame (by simp) h.migrators

end OCache.Cas
