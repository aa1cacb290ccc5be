import OCache.Cas.Invariant

/-!
# Winners are sound and unique

A call learns that it won by finding its own stamp on the row. If every guarded call carries a
version that an earlier call returned, and deletes are guarded, then an expected version is spent
when an operand that carries it applies: from then on the row is a tombstone above it, or a live row
of another version that only deletes stamped above it can remove. No second operand with the same
expectation can apply.
-/

namespace OCache.Cas

open EventSystem Merge

/-- The call carries a version returned earlier, deletes are guarded, no value has a time to live
and nothing is evicted. -/
def earned (s : State) : Event → Bool
  | .putRead _ _ expected _ expiry => expiry = 0 ∧ (expected = 0 ∨ expected ∈ s.returned)
  | .deleteRead _ _ expected => expected ≠ 0 ∧ expected ∈ s.returned
  | .evictRead _ _ | .evictCommit _ => false
  | _ => true

lemma noTTL_of_earned {s : State} {e : Event} (h : earned s e = true) : NoTTL e := by
  cases e with
  | putRead i now expected payload expiry =>
    simp only [earned, decide_eq_true_eq] at h
    exact h.1
  | _ => trivial

/-! ## Spent versions -/

/-- What is known about the expectation of a call that may still merge. -/
def ExpectationOk (s : State) : Call → Prop
  | .stamping op expected _ =>
    (expected = 0 ∨ Known s expected) ∧ (op = .delete → expected ≠ 0)
  | .refreshing _ _ expected stamp => (expected = 0 ∨ Known s expected) ∧ expected < stamp
  | .merging expected operand =>
    (expected = 0 ∨ Known s expected) ∧ expected < operand.version ∧
      (operand.opType = .casDelete → expected ≠ 0)
  | _ => True

/-- The row does not admit `e`, and no delete on its way can bring back a tombstone that does. -/
def RowPast (s : State) (e : UInt64) (r : ValueMessage) : Prop :=
  (r.expiry = tombstoneExpiry → e < r.version) ∧
    (r.expiry ≠ tombstoneExpiry → r.version ≠ e ∧
      ∀ i expected operand, s.calls i = .merging expected operand →
        operand.opType = .casDelete → expected = r.version → e < operand.version)

/-- No operand that expects `e` can apply any more. -/
structure Spent (s : State) (e : UInt64) : Prop where
  known : Known s e
  row : ∃ r, s.row = some r ∧ RowPast s e r

/-- The invariant of runs in which every expected version was earned. -/
structure WinInv (s : State) : Prop where
  inv : Inv s
  calls : ∀ i, ExpectationOk s (s.calls i)
  spent : ∀ m ∈ s.log, m.applied = true → m.operand.casExpectedVersion ≠ 0 →
    Spent s m.operand.casExpectedVersion
  unique : ∀ m ∈ s.log, ∀ m' ∈ s.log, m.applied = true → m'.applied = true →
    m.operand.casExpectedVersion ≠ 0 →
    m.operand.casExpectedVersion = m'.operand.casExpectedVersion → m = m'

lemma winInv_init : WinInv State.init where
  inv := inv_init
  calls _ := trivial
  spent := by simp
  unique := by simp

variable {s s' : State} {i : Nat} {e : UInt64} {r : ValueMessage}

variable {c : Call} {operand : ValueMessage} {stamp : UInt64}

lemma ExpectationOk.mono (hx : Extends s s') (h : ExpectationOk s c) : ExpectationOk s' c := by
  cases c with
  | stamping | refreshing | merging => exact ⟨h.1.imp_right (·.mono hx), h.2⟩
  | _ => trivial

/-- A spent version is not admitted. -/
theorem Spent.not_applies (h : Inv s) (hs : Spent s e) (he : operand.casExpectedVersion = e) :
    applies s.row operand = false := by
  obtain ⟨r, hr, hdead, hlive⟩ := hs.row
  have hne := h.known_ne_zero hs.known
  rw [applies, h.baseOf_row hr]
  simp only [casMatches, he]
  split
  · rename_i htomb
    have hlt := hdead htomb
    simp only [fenceAdmits, hne, false_or, decide_eq_false_iff_not]
    exact UInt64.not_le.mpr hlt
  · rename_i htomb
    rw [h.effectiveRowVersion_eq (h.row r hr)]
    simpa using (hlive htomb).1

/-! ## Preservation -/

/-- The version of an unmerged stamp is not spent, and nobody expects it. -/
theorem Inv.ne_of_unmerged (h : Inv s) (hu : Unmerged s i stamp)
    (hnd : ∀ e o, s.calls i ≠ .done e o) (he : e = 0 ∨ Known s e) : stamp ≠ e := by
  rintro rfl
  rcases he with he | he
  · exact ne_zero_of_legacy_lt (h.issued _ hu.1).1 he
  · exact h.not_known_of_unmerged hu hnd he

/-- A step of one call that leaves the row and the merge order alone. A delete that becomes ready
to merge carries a stamp above all known versions. -/
theorem WinInv.update (h : WinInv s) (hinv : Inv s') (hx : Extends s s')
    (hlog : s'.log = s.log) (hrow : s'.row = s.row)
    (hcalls : ∀ j, j ≠ i → s'.calls j = s.calls j) (hi : ExpectationOk s' (s'.calls i))
    (hdel : ∀ expected operand, s'.calls i = .merging expected operand →
      operand.opType = .casDelete → ∀ e, Known s e → e < operand.version) : WinInv s' where
  inv := hinv
  calls j := by
    by_cases hj : j = i
    · exact hj ▸ hi
    · rw [hcalls j hj]
      exact (h.calls j).mono hx
  spent m hm ha he := by
    rw [hlog] at hm
    obtain ⟨hknown, r, hr, hdead, hlive⟩ := h.spent m hm ha he
    refine ⟨hknown.mono hx, r, hrow.trans hr, hdead, fun hne => ⟨(hlive hne).1, ?_⟩⟩
    intro j expected operand hc hop heq
    by_cases hj : j = i
    · exact hdel expected operand (hj ▸ hc) hop _ hknown
    · exact (hlive hne).2 j expected operand (hcalls j hj ▸ hc) hop heq
  unique := by
    rw [hlog]
    exact h.unique

section Merge

variable {expected : UInt64} {operand : ValueMessage}

lemma mergeOperand_calls_eq_merging {j : Nat} {x : UInt64} {o : ValueMessage}
    (h : (s.mergeOperand i expected operand).calls j = .merging x o) :
    s.calls j = .merging x o := by
  by_cases hj : j = i
  · simp [hj] at h
  · simpa [hj] using h

variable (h : WinInv s)

include h

/-- A delete that removes a row past `e` leaves a tombstone past `e`. -/
theorem WinInv.lt_of_applies_delete (hpc : s.calls i = .merging expected operand)
    (hdel : operand.opType = .casDelete) (happlies : applies s.row operand = true)
    (hs : Spent s e) : e < operand.version := by
  obtain ⟨r, hr, hdead, hlive⟩ := hs.row
  have hcall : CallOk s i (.merging expected operand) := hpc ▸ h.inv.calls i
  have hexp : ExpectationOk s (.merging expected operand) := hpc ▸ h.calls i
  obtain ⟨-, hcarried, -⟩ := hcall
  obtain ⟨-, hlt, hguarded⟩ := hexp
  rw [applies, h.inv.baseOf_row hr] at happlies
  simp only [casMatches, hcarried] at happlies
  split at happlies
  · -- Over a tombstone: the delete expects at least its fence, and is stamped above that.
    rename_i htomb
    simp only [fenceAdmits, hguarded hdel, false_or, decide_eq_true_eq] at happlies
    exact UInt64.lt_trans (UInt64.lt_of_lt_of_le (hdead htomb) happlies) hlt
  · -- Over a live row: the delete was stamped after the row could be known.
    rename_i htomb
    rw [h.inv.effectiveRowVersion_eq (h.inv.row r hr)] at happlies
    exact (hlive htomb).2 i expected operand hpc hdel (of_decide_eq_true happlies).symm

/-- The row that an applied operand leaves is past every version that its stamp is past. -/
theorem WinInv.rowPast_casResult (hpc : s.calls i = .merging expected operand)
    (hknown : Known s e) (hlt : operand.opType = .casDelete → e < operand.version) :
    RowPast (s.mergeOperand i expected operand) e (casResult operand) := by
  have hcall : CallOk s i (.merging expected operand) := hpc ▸ h.inv.calls i
  obtain ⟨hcas, -, hexpiry, hunmerged⟩ := hcall
  have hnd := not_done_of_eq hpc (by simp)
  simp only [isCas, decide_eq_true_eq] at hcas
  rcases hcas with hput | hdel
  · have hlive : (casResult operand).expiry ≠ tombstoneExpiry := by
      rw [casResult_expiry_of_casPut hput, hexpiry]
      decide
    refine ⟨fun hdead => absurd hdead hlive, fun _ => ?_⟩
    rw [casResult_version]
    refine ⟨h.inv.ne_of_unmerged hunmerged hnd (.inr hknown), ?_⟩
    -- Nobody can expect the new row yet: its stamp was not merged before.
    intro j x o hj _ hx
    have hexp : ExpectationOk s (.merging x o) := mergeOperand_calls_eq_merging hj ▸ h.calls j
    exact absurd hx.symm (h.inv.ne_of_unmerged hunmerged hnd hexp.1)
  · have hdead : (casResult operand).expiry = tombstoneExpiry := by
      rw [casResult_of_casDelete hdel]
      rfl
    refine ⟨fun _ => ?_, fun hne => absurd hdead hne⟩
    rw [casResult_version]
    exact hlt hdel

/-- What was spent stays spent when an operand is merged. -/
theorem WinInv.spent_mergeOperand (hpc : s.calls i = .merging expected operand)
    (hs : Spent s e) : Spent (s.mergeOperand i expected operand) e := by
  have hcall : CallOk s i (.merging expected operand) := hpc ▸ h.inv.calls i
  refine ⟨hs.known.mono (extends_mergeOperand hpc), ?_⟩
  cases happlies : applies s.row operand with
  | true =>
    refine ⟨casResult operand, by simp [mergeRow_cas hcall.1, happlies], ?_⟩
    exact h.rowPast_casResult hpc hs.known
      fun hdel => h.lt_of_applies_delete hpc hdel happlies hs
  | false =>
    obtain ⟨r, hr, hdead, hlive⟩ := hs.row
    refine ⟨r, ?_, hdead, fun hne => ⟨(hlive hne).1, ?_⟩⟩
    · simp [mergeRow_cas hcall.1, happlies, h.inv.baseOf_row hr]
    · exact fun j x o hj => (hlive hne).2 j x o (mergeOperand_calls_eq_merging hj)

/-- An operand that applies spends its expectation. -/
theorem WinInv.spent_of_applies (hpc : s.calls i = .merging expected operand)
    (happlies : applies s.row operand = true) (hne : expected ≠ 0) :
    Spent (s.mergeOperand i expected operand) expected := by
  have hcall : CallOk s i (.merging expected operand) := hpc ▸ h.inv.calls i
  have hexp : ExpectationOk s (.merging expected operand) := hpc ▸ h.calls i
  have hknown : Known s expected := hexp.1.resolve_left hne
  refine ⟨hknown.mono (extends_mergeOperand hpc), casResult operand, ?_, ?_⟩
  · simp [mergeRow_cas hcall.1, happlies]
  · exact h.rowPast_casResult hpc hknown fun _ => hexp.2.1

lemma WinInv.mergeOperand (hpc : s.calls i = .merging expected operand) :
    WinInv (s.mergeOperand i expected operand) := by
  have hcall : CallOk s i (.merging expected operand) := hpc ▸ h.inv.calls i
  have hcarried := hcall.2.1
  -- An earlier operand with the same expectation has spent it, so this one cannot apply.
  have hfirst : ∀ m ∈ s.log, m.applied = true → m.operand.casExpectedVersion ≠ 0 →
      m.operand.casExpectedVersion = operand.casExpectedVersion →
      applies s.row operand = false := fun m hm ha hne heq =>
    (h.spent m hm ha hne).not_applies h.inv heq.symm
  exact {
    inv := h.inv.mergeOperand hpc
    calls := by
      intro j
      by_cases hj : j = i
      · simp [hj, ExpectationOk]
      · have := (h.calls j).mono (extends_mergeOperand hpc)
        simpa [hj] using this
    spent := by
      intro m hm ha hne
      rcases List.mem_cons.mp hm with rfl | hm
      · simp only [hcarried] at hne ⊢
        exact h.spent_of_applies hpc ha hne
      · exact h.spent_mergeOperand hpc (h.spent m hm ha hne)
    unique := by
      intro m hm m' hm' ha ha' hne heq
      rcases List.mem_cons.mp hm with rfl | hm <;> rcases List.mem_cons.mp hm' with rfl | hm'
      · rfl
      · have := hfirst m' hm' ha' (heq ▸ hne) heq.symm
        exact absurd ha (by simp [Merged.applied, this])
      · have := hfirst m hm ha hne heq
        exact absurd ha' (by simp [Merged.applied, this])
      · exact h.unique m hm m' hm' ha ha' hne heq }

end Merge

lemma Inv.lt_stamp (h : Inv s) (hlt : s.lastStamp < stamp) (he : e = 0 ∨ Known s e) :
    e < stamp := by
  rcases he with rfl | he
  · exact UInt64.lt_of_le_of_lt UInt64.zero_le hlt
  · exact UInt64.lt_of_le_of_lt (h.lt_of_known he).2 hlt

section

variable (h : WinInv s)

include h

/-- A migration keeps the version of the row and keeps it live. -/
theorem WinInv.migrate {read : ValueMessage} {segmentPath : String}
    {segmentOffset : Int64} (hinv : Inv { s with row := some (mergeRow s.row [operand]) })
    (hread : RowOk s read) (hop : migrationOperand read segmentPath segmentOffset = some operand) :
    WinInv { s with row := some (mergeRow s.row [operand]) } where
  inv := hinv
  calls := h.calls
  spent m hm ha he := by
    obtain ⟨hknown, r, hr, hdead, hlive⟩ := h.spent m hm ha he
    obtain ⟨htype, hsegment, hopType, hexpiry⟩ := migrationOperand_spec hop
    refine ⟨hknown, mergeRow s.row [operand], rfl, ?_⟩
    rcases mergeRow_migration (hopType.trans hread.opType) hsegment s.row with
      hsame | ⟨base, hbase, hpath, hmoved⟩
    · rw [hsame, h.inv.baseOf_row hr]
      exact ⟨hdead, hlive⟩
    · obtain rfl : base = r := by simpa [hr] using hbase.symm
      have hbaseLive := ((h.inv.row base hr).live_of_valueType (valueType_of_pathMatches hpath)).1
      have hreadLive := (hread.live_of_valueType htype).1
      rw [hmoved]
      refine ⟨fun hx => ?_, fun _ => hlive (by rw [hbaseLive]; decide)⟩
      rw [migrated, hexpiry, hreadLive] at hx
      exact absurd hx (by decide)
  unique := h.unique

lemma WinInv.finish {expected : UInt64} {outcome : Outcome}
    (hinv : Inv (s.finish i expected outcome)) (hnd : ∀ e o, s.calls i ≠ .done e o) :
    WinInv (s.finish i expected outcome) := by
  have hself : (s.finish i expected outcome).calls i = .done expected outcome := by
    simp
  refine h.update (i := i) hinv (extends_finish hnd) rfl rfl ?_ (by rw [hself]; trivial) ?_
  · intro j hj
    simp [hj]
  · intro x o hc
    rw [hself] at hc
    contradiction

lemma WinInv.setCall (hinv : Inv (s.setCall i c))
    (hnd : ∀ e o, s.calls i ≠ .done e o) (hc : ExpectationOk s c)
    (hdel : ∀ expected operand, c = .merging expected operand →
      operand.opType = .casDelete → ∀ e, Known s e → e < operand.version) :
    WinInv (s.setCall i c) := by
  have hx := extends_setCall (c := c) hnd
  have hself : (s.setCall i c).calls i = c := by simp
  refine h.update (i := i) hinv hx rfl rfl ?_ (by rw [hself]; exact hc.mono hx) ?_
  · intro j hj
    simp [hj]
  · intro x o hxo
    exact hdel x o (hself ▸ hxo)

/-- The state after a call took a stamp and moved on. -/
theorem WinInv.issue_setCall (hinv : Inv ((s.issue i stamp).setCall i c))
    (hnd : ∀ e o, s.calls i ≠ .done e o) (hc : ExpectationOk s c)
    (hdel : ∀ expected operand, c = .merging expected operand →
      operand.opType = .casDelete → ∀ e, Known s e → e < operand.version) :
    WinInv ((s.issue i stamp).setCall i c) := by
  have hx : Extends s ((s.issue i stamp).setCall i c) :=
    ⟨fun _ hm => hm, fun _ hp => List.mem_cons_of_mem _ hp, (extends_setCall (c := c) hnd).done⟩
  have hself : ((s.issue i stamp).setCall i c).calls i = c := by simp
  refine h.update (i := i) hinv hx rfl rfl ?_ (by rw [hself]; exact hc.mono hx) ?_
  · intro j hj
    simp [hj]
  · intro x o hxo
    exact hdel x o (hself ▸ hxo)

lemma winInv_trans {ev : Event} (hok : earned s ev = true) (ht : Trans s ev s') : WinInv s' := by
  have hinv := inv_trans h.inv (noTTL_of_earned hok) ht
  cases ht with
  | getFound hpc hrow | getFenced hpc hrow => exact h.finish hinv (not_done_of_eq hpc (by simp))
  | getAbsent hpc => exact h.setCall hinv (not_done_of_eq hpc (by simp)) trivial (by simp)
  | @getToken i stamp hpc hlt =>
    have hissue : WinInv (s.issue i stamp) := by
      refine h.update (i := i) (h.inv.issue hlt)
        ⟨fun _ hm => hm, fun _ hp => List.mem_cons_of_mem _ hp, fun _ _ _ hd => hd⟩
        rfl rfl (fun _ _ => rfl) ?_ ?_
      · rw [State.issue, hpc]
        trivial
      · intro x o hc
        rw [State.issue, hpc] at hc
        contradiction
    exact hissue.finish hinv (not_done_of_eq hpc (by simp))
  | @admitPut i now expected payload expiry hpc =>
    simp only [earned, decide_eq_true_eq] at hok
    refine h.setCall hinv (not_done_of_eq hpc (by simp)) ⟨?_, by simp⟩ (by simp)
    exact hok.2.elim .inl (h.inv.returned expected)
  | rejectPut hpc => exact h.finish hinv (not_done_of_eq hpc (by simp))
  | @admitDelete i now expected hpc hadmits =>
    simp only [earned, decide_eq_true_eq] at hok
    exact h.setCall hinv (not_done_of_eq hpc (by simp))
      ⟨h.inv.returned expected hok.2, fun _ => hok.1⟩ (by simp)
  | rejectDelete hpc => exact h.finish hinv (not_done_of_eq hpc (by simp))
  | @stampPut i stamp payload expiry expected carried hpc hlt =>
    have hexp : ExpectationOk s (.stamping (.put payload expiry) expected carried) :=
      hpc ▸ h.calls i
    exact h.issue_setCall hinv (not_done_of_eq hpc (by simp))
      ⟨hexp.1, h.inv.lt_stamp hlt hexp.1⟩ (by simp)
  | @stampDelete i stamp expected carried hpc hlt =>
    have hexp : ExpectationOk s (.stamping .delete expected carried) := hpc ▸ h.calls i
    refine h.issue_setCall hinv (not_done_of_eq hpc (by simp))
      ⟨hexp.1, h.inv.lt_stamp hlt hexp.1, fun _ => hexp.2 rfl⟩ ?_
    rintro x o ⟨⟩ - e he
    exact h.inv.lt_stamp hlt (.inr he)
  | @refresh i now payload expiry expected stamp hpc =>
    have hexp : ExpectationOk s (.refreshing payload expiry expected stamp) := hpc ▸ h.calls i
    refine h.setCall hinv (not_done_of_eq hpc (by simp))
      ⟨hexp.1, by simpa using hexp.2, by simp⟩ ?_
    rintro x o ⟨⟩ hop
    simp at hop
  | rejectRefresh hpc => exact h.finish hinv (not_done_of_eq hpc (by simp))
  | merge hpc => exact h.mergeOperand hpc
  | won hpc hrow | lost hpc hrow => exact h.finish hinv (not_done_of_eq hpc (by simp))
  | migrateRead =>
    have hspent := h.spent
    exact ⟨hinv, h.calls, fun m hm ha he => ⟨(hspent m hm ha he).known, (hspent m hm ha he).row⟩,
      h.unique⟩
  | migrateMerge hread hop => exact h.migrate hinv (h.inv.migrators _ _ hread) hop
  | evictRead | evictCommit => simp [earned] at hok

end

/-! ## Winners -/

/-- In every run in which every expected version was returned before and deletes are guarded: the
operand of a successful call applied to a row that admitted the call's expectation, and no two
successful calls carried the same version. -/
theorem winners_sound_unique {es : List Event}
    (h : RunOk step (fun s e => earned s e = true) State.init es) :
    let s := run step State.init es
    (∀ i expected outcome, s.calls i = .done expected outcome → outcome.isSuccess = true →
      ∃ m ∈ s.log, m.call = i ∧ m.operand.casExpectedVersion = expected ∧
        applies m.base m.operand = true) ∧
    ∀ i j expected o o', s.calls i = .done expected o → s.calls j = .done expected o' →
      o.isSuccess = true → o'.isSuccess = true → expected ≠ 0 → i = j := by
  intro s
  have hwin : WinInv s :=
    invariant_of_trans (I := WinInv) (fun _ _ _ hI hoke ht => winInv_trans hI hoke ht)
      winInv_init h
  have hsound : ∀ i expected outcome, s.calls i = .done expected outcome →
      outcome.isSuccess = true → ∃ m ∈ s.log, m.call = i ∧ m.applied = true ∧
        m.operand.casExpectedVersion = expected := by
    intro i expected outcome hi hsuccess
    have hcall : CallOk s i (.done expected outcome) := hi ▸ hwin.inv.calls i
    exact hcall hsuccess
  refine ⟨?_, ?_⟩
  · intro i expected outcome hi hsuccess
    obtain ⟨m, hm, hcall, happlied, hexpected⟩ := hsound i expected outcome hi hsuccess
    exact ⟨m, hm, hcall, hexpected, happlied⟩
  · intro i j expected o o' hi hj ho ho' hne
    obtain ⟨m, hm, rfl, ha, he⟩ := hsound i expected o hi ho
    obtain ⟨m', hm', rfl, ha', he'⟩ := hsound j expected o' hj ho'
    rw [hwin.unique m hm m' hm' ha ha' (he ▸ hne) (he.trans he'.symm)]

/-- A read of the absent key, a put under the token it got, and a delete of the value. -/
def createDelete : List Event :=
  [.getRead 0 100, .nextVersion 0 10,
    .putRead 1 100 10 (.inline [0x2a]) 0, .nextVersion 1 11, .putRefresh 1 100, .merge 1,
    .readBack 1 100,
    .deleteRead 2 100 11, .nextVersion 2 12, .merge 2, .readBack 2 100]

theorem winners_sound_unique_createDelete :
    let s := run step State.init createDelete
    s.calls 1 = .done 10 (.stored 11) ∧ s.calls 2 = .done 11 .deleted ∧
      ∃ m ∈ s.log, m.call = 2 ∧ m.operand.casExpectedVersion = 11 ∧
        applies m.base m.operand = true :=
  ⟨by decide, by decide,
    (@winners_sound_unique createDelete (by decide)).1 2 11 .deleted (by decide) rfl⟩

end OCache.Cas
