import OCache.Cas.Admission
import OCache.Store.Handover

/-!
# Failing reads in a compare-and-swap

`PutIfVersion` reads the row twice more after it has written a raw file: before the merge and after
it. If the first read fails the call queues its file and returns. If all attempts at the second one
fail it does not know whether it has won, and must not queue the file. It leaves an index row for a
file of medium size and nothing for a larger one, and queues the file of the row it replaced, or
would have replaced.

`Put`, `DeleteKey` and the others are as in `Store.step`. A refused encoding of the operand is the
same as a refused merge.
-/

namespace OCache.Store.Spill

open Merge Cas EventSystem

/-! ## The system -/

/-- The refresh of `PutIfVersion` fails: the call queues its own file. -/
def casPutRefreshFails (s : State) (i : Nat) : State :=
  match s.calls i with
  | .casPutWritten _ operand => s.setCall i (.reclaiming (reclaimable (some operand)))
  | _ => s

/-- All attempts of `readRowForCASRetry` fail. The operand of `DeleteIfVersion` has no file to
index. -/
def casReadBackFails (cfg : Config) (s : State) (i : Nat) : State :=
  match s.calls i with
  | .casMerged key operand prev =>
    (s.indexRaw cfg key operand).setCall i (.reclaiming (reclaimReplacedValue prev))
  | _ => s

/-- The store, and the calls whose read-backs have all failed. -/
structure System where
  store : State
  unread : List Nat

inductive Event where
  | store (e : Store.Event)
  | refreshFails (i : Nat)
  | readBackFails (i : Nat)

def step (cfg : Config) (t : System) : Event → System
  | .store e => { t with store := Store.step cfg t.store e }
  | .refreshFails i => { t with store := casPutRefreshFails t.store i }
  | .readBackFails i =>
    match t.store.calls i with
    | .casMerged .. => ⟨casReadBackFails cfg t.store i, i :: t.unread⟩
    | _ => t

def freshNames (t : System) : Event → Bool
  | .store e => Store.freshNames t.store e
  | _ => true

def System.init : System := ⟨State.init, []⟩

/-! ## What holds in every state -/

/-- What a compare-and-swap knows of the row it replaces. Before the merge: the operand fits a row
with a file. After it: the file is off the row. -/
def Guarded (s : State) : Call → Prop
  | .casDeleteAdmitted _ carried prev =>
    ∀ r ∈ prev, casMatches r carried = true ∨ rawPath r = none
  | .casMerging _ operand prev =>
    operand.version ≠ 0 ∧ ∀ r ∈ prev, casMatches r operand.casExpectedVersion = true ∨ rawPath r = none
  | .casMerged _ operand prev =>
    operand.version ≠ 0 ∧ ∀ p ∈ reclaimReplacedValue prev, Gone s p
  | _ => True

/-- What holds of the store in every state. -/
structure Sound (s : State) : Prop where
  ownership : Ownership s
  drops : DropsOk s
  guarded : ∀ i, Guarded s (s.calls i)
  staged : ∀ x ∈ s.migrations, StagedOk s x
  cleared : ∀ x ∈ s.migrations, x.Cleared

lemma sound_init : Sound State.init where
  ownership := ownership_init
  drops := by simp [DropsOk]
  guarded _ := trivial
  staged := by simp
  cleared := by simp

/-! ## Compare-and-swaps -/

section Guarded

variable {s s' : State}

variable {c : Call}

lemma Guarded.mono (h : Guarded s c) (hgone : ∀ p, Gone s p → Gone s' p) : Guarded s' c := by
  cases c
  case casMerged => exact ⟨h.1, fun p hp => hgone p (h.2 p hp)⟩
  all_goals exact h

variable {cfg : Config} {i : Nat}

/-- One call moves, and files that are gone stay gone. -/
theorem guarded_of_update (h : ∀ j, Guarded s (s.calls j)) (hgone : ∀ p, Gone s p → Gone s' p)
    (hcalls : s'.calls = Function.update s.calls i c) (hc : Guarded s' c) (j : Nat) :
    Guarded s' (s'.calls j) := by
  rw [hcalls]
  rcases eq_or_ne j i with rfl | hj
  · rwa [Function.update_self]
  · rw [Function.update_of_ne hj]
    exact (h j).mono hgone

lemma guarded_of_isReading (h : c.isReading = true) : Guarded s c := by
  cases c
  case casDeleteAdmitted | casMerging | casMerged => cases h
  all_goals trivial

/-- After the merge the row that was read before it is gone: the operand has replaced it, or the row
was another one by then. -/
theorem gone_casMerge (hI : Ownership s) {key p : String} {operand r : ValueMessage}
    (hpc : s.calls i = .casMerging key operand (some r))
    (hmatch : casMatches r operand.casExpectedVersion = true) (hp : rawPath r = some p) :
    Gone ((s.setRow key (some (mergeRow (s.rows key) [operand]))).setCall i
      (.casMerged key operand (some r))) p := by
  have hA : Advance ⟨0, 0⟩ s ((s.setRow key (some (mergeRow (s.rows key) [operand]))).setCall i
      (.casMerged key operand (some r))) := advance_casMerge hI hpc
  have hcall := hI.calls i
  rw [hpc] at hcall
  obtain ⟨hcas, -, hprev⟩ := hcall.wf
  have hread : Known s key r := hcall.knows key r (by simp)
  have hlanded : Landed s p := ⟨(hread.indexed hp).file, (hread.settled p hp).free⟩
  refine ⟨hlanded.advance hA, fun k row hrow hrp => ?_⟩
  rcases hA.rows k row p hrow hrp with hold | ⟨⟨j, hj⟩, -⟩
  · -- A row with the file would be the one that was read. The operand lands on that one.
    obtain ⟨rfl, rfl⟩ := hread.only p hp k row hold hrp
    have htype : row.valueType ≠ .inline := by
      intro hinline
      simp [rawPath, hinline] at hp
    have happlies : applies (s.rows k) operand = true := by
      simp [applies, hold, baseOf_of_ne_inline htype, hmatch]
    have hnew : casResult operand = row := by
      simpa [mergeRow_cas hcas, happlies] using hrow
    exact hprev row rfl (by rw [← hnew, casResult_version])
  · -- Nobody else is about to write a row with the file.
    exact hlanded.free j row hj hrp

lemma guarded_callMove {e : Store.Event} (hI : Ownership s) (h : ∀ j, Guarded s (s.calls j))
    (hgone : ∀ p, Gone s p → Gone s' p) (hmove : CallMove cfg s e s') (j : Nat) :
    Guarded s' (s'.calls j) := by
  cases hmove
  case idle | get | purge | unlink => exact (h j).mono hgone
  case look hnew _ => exact guarded_of_update h hgone rfl (guarded_of_isReading hnew) j
  case casPutRefresh i key operand now hc hadmits =>
    have hwf := (hI.calls i).wf
    rw [hc] at hwf
    refine guarded_of_update h hgone rfl ?_ j
    refine ⟨hwf.2, fun r hr => .inl ?_⟩
    rw [show s.rows key = some r from hr] at hadmits ⊢
    exact casMatches_carriedVersion hadmits
  case casDeleteRead i key now expected hc hadmits =>
    refine guarded_of_update h hgone rfl ?_ j
    refine fun r hr => .inl ?_
    rw [show s.rows key = some r from hr] at hadmits ⊢
    exact casMatches_carriedVersion (casAdmits_of_deleteAdmits hadmits)
  case casDeleteStamp i key carried stamp prev hc hstamp =>
    have hguard := h i
    rw [hc] at hguard
    refine guarded_of_update h hgone rfl ?_ j
    exact ⟨ne_zero_of_lt hstamp, hguard⟩
  case casMerge i key operand prev hc =>
    have hguard := h i
    rw [hc] at hguard
    refine guarded_of_update h hgone rfl ?_ j
    refine ⟨hguard.1, fun p hp => ?_⟩
    -- The file of the row that the call read is gone from now on.
    obtain ⟨r, rfl, hrp⟩ := mem_reclaimReplacedValue hp
    rcases hguard.2 r rfl with hmatch | hnone
    · exact gone_casMerge hI hc hmatch hrp
    · simp [hnone] at hrp
  all_goals exact guarded_of_update h hgone rfl (by trivial) j

end Guarded

/-! ## Steps -/

section Step

variable {cfg : Config} {s s' : State}

/-- What a step of a call leaves alone: migrations and segments. Queues and the index only grow. -/
structure Aside (s s' : State) : Prop where
  migrations : s'.migrations = s.migrations
  segments : s'.segments = s.segments
  queued : ∀ p, Queued s p → Queued s' p
  index : ∀ e ∈ s.compactionIndex, e ∈ s'.compactionIndex

variable {e : Store.Event} {i : Nat}

lemma aside_callMove (hmove : CallMove cfg s e s') : Aside s s' := by
  cases hmove
  case unlink path hmem =>
    refine ⟨rfl, rfl, fun p hp => ?_, fun _ h => h⟩
    by_cases hpath : p = path
    · exact .inr (by simp [hpath])
    · rcases hp with hp | hp
      · exact .inl (by simp [hp, hpath])
      · exact .inr (by simp [hp])
  case reclaim => exact ⟨rfl, rfl, fun _ h => h.imp_left (List.mem_cons_of_mem _), fun _ h => h⟩
  case putCommit | casFinish =>
    exact ⟨rfl, rfl, fun _ h => h, fun _ h => List.mem_append_left _ h⟩
  all_goals exact ⟨rfl, rfl, fun _ h => h, fun _ h => h⟩

variable (h : Sound s)

include h

/-- A call gives up its row, or had none, and goes on to queue files. -/
theorem Sound.giveUp {paths : List String} (hI : Ownership s')
    (hcalls : s'.calls = Function.update s.calls i (.reclaiming paths)) (hrows : s'.rows = s.rows)
    (hfiles : s'.rawFiles = s.rawFiles) (hA : Aside s s') : Sound s' := by
  have hgone : ∀ p, Gone s p → Gone s' p := by
    intro p hp
    refine ⟨⟨by rw [hfiles]; exact hp.landed.file, fun j r hr => ?_⟩, by rw [hrows]; exact hp.none⟩
    rw [hcalls] at hr
    rcases eq_or_ne j i with rfl | hj
    · simp at hr
    · rw [Function.update_of_ne hj] at hr
      exact hp.landed.free j r hr
  refine ⟨hI, fun x hx key p hp => ?_, fun j => ?_, fun x hx => ?_, fun x hx => ?_⟩
  · rw [hA.migrations] at hx
    exact (h.drops x hx key p hp).imp_right (hgone p)
  · exact guarded_of_update h.guarded hgone hcalls (by trivial) j
  · rw [hA.migrations] at hx
    exact (h.staged x hx).mono hA.queued fun p hp => by rwa [hA.segments]
  · rw [hA.migrations] at hx
    exact h.cleared x hx

lemma sound_casFinish_false : Sound (casFinish cfg s i false) := by
  unfold casFinish
  split
  · rename_i hpc
    refine h.giveUp (h.ownership.reclaims_of_unreferenced fun p hp => ?_) rfl rfl rfl
      ⟨rfl, rfl, fun _ h => h, fun _ h => h⟩
    exact (h.ownership.calls i).reclaims p (by rw [hpc]; exact hp)
  · exact h

/-- Every step of the store keeps the invariant. -/
theorem sound_store (hfresh : Store.freshNames s e = true) : Sound (Store.step cfg s e) := by
  -- A call that lost gives its row up, which is no `Advance`.
  by_cases hfinish : ∃ i, e = .casFinish i false
  · obtain ⟨i, rfl⟩ := hfinish
    exact sound_casFinish_false h
  have hI := ownership_step cfg h.ownership hfresh
  have hA : Advance cfg s (Store.step cfg s e) := by
    refine advance_step h.ownership h.drops hfresh fun i ok heq => ?_
    by_contra hok
    exact hfinish ⟨i, by simpa [hok] using heq⟩
  have hgone : ∀ p, Gone s p → Gone (Store.step cfg s e) p := fun p hp => hp.advance hA
  have hdrops : DropsOk (Store.step cfg s e) := h.drops.advance hA
  rcases move_step cfg s e with hmove | hmove
  · have hS := aside_callMove hmove
    exact ⟨hI, hdrops, guarded_callMove h.ownership h.guarded hgone hmove,
      fun x hx => (h.staged x (hS.migrations ▸ hx)).mono hS.queued fun p hp => by rwa [hS.segments],
      fun x hx => h.cleared x (hS.migrations ▸ hx)⟩
  · have hM := moved_migrationMove h.ownership hmove
    refine ⟨hI, hdrops, fun j => ?_, hM.stagedOk h.staged, hM.cleared h.cleared⟩
    rw [hM.calls]
    exact (h.guarded j).mono hgone

lemma sound_casPutRefreshFails : Sound (casPutRefreshFails s i) := by
  unfold casPutRefreshFails
  split
  · rename_i hpc
    exact h.giveUp (h.ownership.giveUp (by rw [hpc]; rfl)) rfl rfl rfl
      ⟨rfl, rfl, fun _ h => h, fun _ h => h⟩
  · exact h

/-- The operand may have landed or not: in both cases its file can be indexed, and the file of the
row that was read before the merge is gone. -/
theorem sound_casReadBackFails : Sound (casReadBackFails cfg s i) := by
  unfold casReadBackFails
  split
  · rename_i key operand prev hpc
    have hcall := h.ownership.calls i
    have hguard := h.guarded i
    rw [hpc] at hcall hguard
    have hown : Known s key (casResult operand) := hcall.knows _ _ (by simp)
    have hS : CallStep s
        ((s.indexRaw cfg key operand).setCall i (.reclaiming (reclaimReplacedValue prev)))
        i (.reclaiming (reclaimReplacedValue prev)) none :=
      ⟨rfl, rfl, rfl, fun _ _ h => h, fun _ _ h => h, UInt64.le_refl _, fun _ _ h => .kept h,
        by simp, by simp⟩
    have hprev : ∀ p ∈ reclaimReplacedValue prev, Unreferenced s p := fun p hp =>
      ⟨⟨.inl (hguard.2 p hp).landed.file, (hguard.2 p hp).landed.free⟩, (hguard.2 p hp).none⟩
    refine h.giveUp ?_ rfl rfl rfl ⟨rfl, rfl, fun _ h => h, fun _ h => List.mem_append_left _ h⟩
    refine h.ownership.call hS (callOk_reclaiming fun p hp => hS.frame.unreferenced (hprev p hp)) ?_
      fun _ h => .inl h
    intro k path he
    rcases State.mem_indexRaw _ he with hold | ⟨rfl, hpath⟩
    · exact .inl hold
    · exact .inr ((hS.frame.known hown).indexed ((rawPath_casResult hcall.wf.2.1).trans hpath))
  · exact h

end Step

variable {cfg : Config}

/-- Every step keeps the invariant. -/
theorem sound_step {t : System} (h : Sound t.store) {e : Event} (hfresh : freshNames t e = true) :
    Sound (step cfg t e).store := by
  cases e with
  | store e => exact sound_store h hfresh
  | refreshFails i => exact sound_casPutRefreshFails h
  | readBackFails i =>
    simp only [step]
    split
    · exact sound_casReadBackFails h
    · exact h

lemma sound_run {es : List Event}
    (h : RunOk (step cfg) (fun t e => freshNames t e = true) System.init es) :
    Sound (run (step cfg) System.init es).store :=
  invariant_run (I := fun t => Sound t.store) (fun _ _ hI hfresh => sound_step hI hfresh) sound_init h

end OCache.Store.Spill
