import OCache.Cas.Invariant

/-!
# What a version mismatch tells the caller

A call that does not find its stamp on the row returns a version mismatch. That the operand had no
effect follows only if nobody replaced the row between the call's merge and its read-back: an
operand that applied and was overwritten before the read-back is reported in the same way as one
that was dropped.
-/

namespace OCache.Cas

open EventSystem Merge

def isReadingBack : Call → Bool
  | .readingBack _ _ => true
  | _ => false

def isEviction : Event → Bool
  | .evictRead _ _ | .evictCommit _ => true
  | _ => false

/-- The row does not carry the stamp of a call that has merged and not read back. -/
def rowSettled (s : State) : Bool :=
  s.log.all fun m => !(carries s.row m.operand.version && isReadingBack (s.calls m.call))

/-- Operands apply over settled rows only, no value has a time to live and nothing is evicted. -/
def undisturbed (s : State) : Event → Bool
  | .putRead _ _ _ _ expiry => expiry = 0
  | .merge i =>
    match s.calls i with
    | .merging _ operand => !applies s.row operand || rowSettled s
    | _ => true
  | .evictRead _ _ | .evictCommit _ => false
  | _ => true

variable {e : Event} {expected v : UInt64} {operand : ValueMessage} {outcome : Outcome} {j : Nat}

lemma noTTL_of_undisturbed {s : State} (h : undisturbed s e = true) : NoTTL e := by
  cases e with
  | putRead i now expected payload expiry => simpa [undisturbed, NoTTL] using h
  | _ => trivial

/-- The invariant of undisturbed runs. -/
structure MismatchInv (s : State) : Prop where
  inv : Inv s
  once : ∀ m ∈ s.log, ∀ m' ∈ s.log, m.call = m'.call → m = m'
  onRow : ∀ m ∈ s.log, m.applied = true → isReadingBack (s.calls m.call) = true →
    carries s.row m.operand.version = true
  noEffect : ∀ m ∈ s.log, m.applied = true → ∀ expected v,
    s.calls m.call ≠ .done expected (.mismatch v)

lemma mismatchInv_init : MismatchInv State.init where
  inv := inv_init
  once := by simp
  onRow := by simp
  noEffect := by simp

variable {s s' : State} {i : Nat} {r : ValueMessage}

lemma Inv.call_ne_of_not_merged (h : Inv s) (hi : mayHaveMerged (s.calls i) = false)
    {m : Merged} (hm : m ∈ s.log) : m.call ≠ i := by
  rintro rfl
  rw [(h.log m hm).2.2] at hi
  contradiction

/-- A step of a call that has not merged. -/
theorem MismatchInv.update (h : MismatchInv s) (hinv : Inv s') (hlog : s'.log = s.log)
    (hrow : s'.row = s.row) (hi : mayHaveMerged (s.calls i) = false)
    (hcalls : ∀ j, j ≠ i → s'.calls j = s.calls j) : MismatchInv s' where
  inv := hinv
  once := by
    rw [hlog]
    exact h.once
  onRow m hm ha hc := by
    rw [hlog] at hm
    rw [hcalls _ (h.inv.call_ne_of_not_merged hi hm)] at hc
    rw [hrow]
    exact h.onRow m hm ha hc
  noEffect m hm ha expected v := by
    rw [hlog] at hm
    rw [hcalls _ (h.inv.call_ne_of_not_merged hi hm)]
    exact h.noEffect m hm ha expected v

/-- A call reads back; it may report a mismatch only if the row does not carry its stamp. -/
theorem MismatchInv.readBack (h : MismatchInv s) (hinv : Inv (s.finish i expected outcome))
    (hpc : s.calls i = .readingBack expected operand)
    (hout : ∀ v, outcome = .mismatch v → carries s.row operand.version = false) :
    MismatchInv (s.finish i expected outcome) := by
  have hself : (s.finish i expected outcome).calls i = .done expected outcome := by
    simp
  have hother : ∀ j, j ≠ i → (s.finish i expected outcome).calls j = s.calls j := by
    intro j hj
    simp [hj]
  obtain ⟨-, own, hown, hcall, hoperand⟩ : CallOk s i (.readingBack expected operand) :=
    hpc ▸ h.inv.calls i
  refine ⟨hinv, h.once, fun m hm ha hc => ?_, fun m hm ha x v => ?_⟩
  · have hne : m.call ≠ i := by
      intro heq
      rw [heq, hself] at hc
      contradiction
    rw [hother _ hne] at hc
    exact h.onRow m hm ha hc
  · by_cases heq : m.call = i
    · rw [heq, hself]
      intro hdone
      simp only [Call.done.injEq] at hdone
      have hsame : m = own := h.once m hm own hown (heq.trans hcall.symm)
      have hcarries := h.onRow m hm ha (by rw [heq, hpc]; rfl)
      rw [hsame, hoperand, hout v hdone.2] at hcarries
      contradiction
    · rw [hother _ heq]
      exact h.noEffect m hm ha x v

lemma Inv.carries_mergeRow_of_not_applies (h : Inv s) (hcas : isCas operand = true)
    (happlies : applies s.row operand = false) (hrow : carries s.row v = true) :
    carries (some (mergeRow s.row [operand])) v = true := by
  cases hr : s.row with
  | none => simp [hr] at hrow
  | some r =>
    have hbase := h.baseOf_row hr
    rw [hr] at hbase hrow happlies
    simpa [mergeRow_cas hcas, happlies, hbase] using hrow

lemma MismatchInv.mergeOperand (h : MismatchInv s) (hpc : s.calls i = .merging expected operand)
    (hsettled : applies s.row operand = true → rowSettled s = true) :
    MismatchInv (s.mergeOperand i expected operand) := by
  have hcall : CallOk s i (.merging expected operand) := hpc ▸ h.inv.calls i
  have hfresh : ∀ m ∈ s.log, m.call ≠ i := fun m hm =>
    h.inv.call_ne_of_not_merged (by rw [hpc]; rfl) hm
  have hother : ∀ m ∈ s.log, (s.mergeOperand i expected operand).calls m.call = s.calls m.call := by
    intro m hm
    simp [hfresh m hm]
  refine ⟨h.inv.mergeOperand hpc, fun m hm m' hm' heq => ?_, fun m hm ha hc => ?_,
    fun m hm ha x v => ?_⟩
  · rcases List.mem_cons.mp hm with rfl | hm <;> rcases List.mem_cons.mp hm' with rfl | hm'
    · rfl
    · exact absurd heq.symm (hfresh m' hm')
    · exact absurd heq (hfresh m hm)
    · exact h.once m hm m' hm' heq
  · rcases List.mem_cons.mp hm with rfl | hm
    · have happlies : applies s.row operand = true := ha
      simp [mergeRow_cas hcall.1, happlies]
    · rw [hother m hm] at hc
      have hcarries := h.onRow m hm ha hc
      cases happlies : applies s.row operand with
      | true =>
        -- The row of `m` is not settled yet, so nothing applies over it.
        have hall := List.all_eq_true.mp (hsettled happlies) m hm
        simp [hcarries, hc, -carries] at hall
      | false => exact h.inv.carries_mergeRow_of_not_applies hcall.1 happlies hcarries
  · rcases List.mem_cons.mp hm with rfl | hm
    · simp
    · rw [hother m hm]
      exact h.noEffect m hm ha x v

lemma Inv.carries_migration (h : Inv s) {read : ValueMessage} {segmentPath : String}
    {segmentOffset : Int64} (hread : RowOk s read)
    (hop : migrationOperand read segmentPath segmentOffset = some operand)
    (hrow : carries s.row v = true) : carries (some (mergeRow s.row [operand])) v = true := by
  obtain ⟨-, hsegment, hopType, -⟩ := migrationOperand_spec hop
  cases hr : s.row with
  | none => simp [hr] at hrow
  | some r =>
    have hbase := h.baseOf_row hr
    rw [hr] at hbase hrow
    rcases mergeRow_migration (hopType.trans hread.opType) hsegment (some r) with
      hsame | ⟨base, hbase', -, hmoved⟩
    · simpa [hsame, hbase] using hrow
    · obtain rfl : r = base := by simpa using hbase'
      simpa [hmoved, migrated] using hrow

lemma finish_calls_of_ne (hj : j ≠ i) : (s.finish i expected outcome).calls j = s.calls j := by
  simp [hj]

lemma setCall_calls_of_ne {c : Call} (hj : j ≠ i) : (s.setCall i c).calls j = s.calls j := by
  simp [hj]

lemma mismatchInv_trans (h : MismatchInv s) (hok : undisturbed s e = true) (ht : Trans s e s') :
    MismatchInv s' := by
  have hinv := inv_trans h.inv (noTTL_of_undisturbed hok) ht
  cases ht with
  | getFound hpc | getFenced hpc | rejectPut hpc | rejectDelete hpc | rejectRefresh hpc =>
    exact h.update hinv rfl rfl (by rw [hpc]; rfl) fun _ => finish_calls_of_ne
  | getToken hpc =>
    exact h.update hinv rfl rfl (by rw [hpc]; rfl) fun _ hj => finish_calls_of_ne hj
  | getAbsent hpc | admitPut hpc | admitDelete hpc | refresh hpc =>
    exact h.update hinv rfl rfl (by rw [hpc]; rfl) fun _ => setCall_calls_of_ne
  | stampPut hpc | stampDelete hpc =>
    exact h.update hinv rfl rfl (by rw [hpc]; rfl) fun _ hj => setCall_calls_of_ne hj
  | merge hpc =>
    refine h.mergeOperand hpc fun happlies => ?_
    simpa [undisturbed, hpc, happlies] using hok
  | won hpc hrow =>
    refine h.readBack hinv hpc fun v hv => ?_
    split at hv <;> simp at hv
  | lost hpc hrow => exact h.readBack hinv hpc fun _ _ => hrow
  | migrateRead => exact ⟨hinv, h.once, h.onRow, h.noEffect⟩
  | migrateMerge hread hop =>
    refine ⟨hinv, h.once, fun m hm ha hc => ?_, h.noEffect⟩
    exact h.inv.carries_migration (h.inv.migrators _ _ hread) hop (h.onRow m hm ha hc)
  | evictRead | evictCommit => simp [undisturbed] at hok

/-! ## Mismatches -/

/-- In every run in which no operand applies over the row of a call that has not read back: if a
call returns a version mismatch, its operand never applied and no call ever learned its stamp. -/
theorem mismatch_no_effect {es : List Event}
    (h : RunOk step (fun s e => undisturbed s e = true) State.init es) :
    let s := run step State.init es
    ∀ i expected current, s.calls i = .done expected (.mismatch current) →
      (∀ m ∈ s.log, m.call = i → m.applied = false) ∧
      ∀ stamp, (i, stamp) ∈ s.issued → stamp ∉ s.returned ∧ stamp ∉ s.tokens := by
  intro s i expected current hi
  have hinv : MismatchInv s :=
    invariant_of_trans (I := MismatchInv) (fun _ _ _ hI hoke ht => mismatchInv_trans hI hoke ht)
      mismatchInv_init h
  have hnone : ∀ m ∈ s.log, m.call = i → m.applied = false := by
    rintro m hm rfl
    by_contra ha
    exact hinv.noEffect m hm (by simpa using ha) expected current hi
  -- A stamp of `i` that somebody knows is on an applied operand of `i`, or was handed out by `i`.
  have hunknown : ∀ stamp, (i, stamp) ∈ s.issued → ¬ Known s stamp := by
    have hown : ∀ stamp, (i, stamp) ∈ s.issued → ∀ m ∈ s.log, m.applied = true →
        m.operand.version ≠ stamp := by
      intro stamp hstamp m hm ha heq
      have hcall := hinv.inv.issued_unique _ (hinv.inv.log m hm).1 _ hstamp heq
      simp only [Prod.mk.injEq] at hcall
      rw [hnone m hm hcall.1] at ha
      contradiction
    rintro stamp hstamp (⟨j, e, hj, hdone⟩ | ⟨m, hm, ha, -, hv⟩ | ⟨m, hm, ha, -, hv⟩)
    · have hcall := hinv.inv.issued_unique _ hj _ hstamp rfl
      simp only [Prod.mk.injEq, and_true] at hcall
      rw [hcall, hi] at hdone
      simp at hdone
    all_goals exact hown stamp hstamp m hm ha hv
  refine ⟨hnone, fun stamp hstamp => ⟨fun hret => ?_, fun htok => ?_⟩⟩
  · rcases hinv.inv.returned stamp hret with rfl | hknown
    · exact absurd rfl (ne_zero_of_legacy_lt (hinv.inv.issued _ hstamp).1)
    · exact hunknown stamp hstamp hknown
  · exact hunknown stamp hstamp ((hinv.inv.tokens stamp htok).imp_right .inr)

/-- Two puts race for the absent key; the loser returns a mismatch. -/
def lostRace : List Event :=
  [.putRead 0 100 0 (.inline [0x2a]) 0, .putRead 1 100 0 (.inline [0x2b]) 0, .nextVersion 0 10,
    .nextVersion 1 11, .putRefresh 0 100, .putRefresh 1 100, .merge 0, .merge 1, .readBack 0 100,
    .readBack 1 100]

theorem mismatch_no_effect_lostRace :
    let s := run step State.init lostRace
    s.calls 1 = .done 0 (.mismatch 10) ∧ (∀ m ∈ s.log, m.call = 1 → m.applied = false) ∧
      11 ∉ s.returned ∧ 11 ∉ s.tokens :=
  have hlost := @mismatch_no_effect lostRace (by decide) 1 0 10 (by decide)
  ⟨by decide, hlost.1, hlost.2 11 (by decide)⟩

/-- A put applies and is read by another call; a delete of the value applies before the put reads
back. -/
def overtaken : List Event :=
  [.putRead 0 100 0 (.inline [0x2a]) 0, .nextVersion 0 10, .putRefresh 0 100, .merge 0,
    .getRead 1 100, .deleteRead 2 100 10, .nextVersion 2 11, .merge 2, .readBack 0 100]

/-- The put of `overtaken` returns a mismatch although its operand applied and another call
returned the value it stored. -/
theorem overtaken_mismatch :
    (∀ e ∈ overtaken, NoTTL e ∧ isEviction e = false) ∧
    let s := run step State.init overtaken
    s.calls 0 = .done 0 (.mismatch 11) ∧ (∃ m ∈ s.log, m.call = 0 ∧ m.applied = true) ∧
      s.calls 1 = .done 0 (.found 10) ∧ (0, 10) ∈ s.issued := by
  decide

end OCache.Cas
