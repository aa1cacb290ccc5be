import OCache.Store.Ownership

/-!
# What a step can do

Every step of the store is one of the moves below, together with what was checked on the way. The
proofs about steps go by these cases and do not look at the step functions again.
-/

namespace OCache.Store

open Merge Cas

/-! ## Moves of calls -/

/-- The call has read rows at most: it has nothing to write, to index or to queue. -/
def Call.isReading : Call → Bool
  | .idle | .deleting .. | .casPutAdmitted .. | .sweeping .. | .evicting .. | .reclaiming [] => true
  | _ => false

/-- What the call owns: the row or the operand with the file that it has written. -/
def Call.own : Call → Option ValueMessage
  | .putRead _ row _ => some row
  | .casPutWritten _ operand | .casMerging _ operand _ => some operand
  | _ => none

/-- What a call, a sweep, an eviction pass or the deletion queue does in a step. -/
inductive CallMove (cfg : Config) (s : State) : Event → State → Prop
  | idle (e : Event) : CallMove cfg s e s
  | get (key : String) (now : Int64) :
      CallMove cfg s (.get key now) { s with observed := get s key now :: s.observed }
  | purge {key path : String} (hpath : path ≠ "") :
      CallMove cfg s (.purge key path)
        (s.setRow key (some (mergeRow (s.rows key) [purgeOperand path])))
  | unlink {path : String} (hmem : path ∈ s.queued) :
      CallMove cfg s (.unlink path)
        { s with queued := s.queued.filter (· ≠ path), unlinked := path :: s.unlinked }
  /-- The call reads, or returns with nothing to queue. -/
  | look {i : Nat} {c : Call} (e : Event) (hold : (s.calls i).isReading = true)
      (hnew : c.isReading = true)
      (hread : ∀ key row, (key, row) ∈ c.knows →
        (key, row) ∈ (s.calls i).knows ∨ s.rows key = some row) :
      CallMove cfg s e (s.setCall i c)
  /-- The call removes rows and queues the files of those that it had read. -/
  | remove {i : Nat} {rows : String → Option ValueMessage} {paths : List String} (e : Event)
      (hold : (s.calls i).isReading = true)
      (hrows : ∀ key row, rows key = some row → s.rows key = some row)
      (hpaths : ∀ p ∈ paths, ∃ key row, (key, row) ∈ (s.calls i).knows ∧ rawPath row = some p ∧
        rows key = none) :
      CallMove cfg s e ({ s with rows := rows }.setCall i (.reclaiming paths))
  /-- The call gives up and queues its own file. -/
  | abandon {i : Nat} {row : ValueMessage} (e : Event) (hown : (s.calls i).own = some row) :
      CallMove cfg s e (s.setCall i (.reclaiming (reclaimable (some row))))
  | putWrite {i : Nat} {key path : String} {data : List UInt8} {expiry : Int64} {checksum : UInt32}
      (hc : s.calls i = .idle) :
      CallMove cfg s (.putWrite i key data expiry path checksum)
        ((s.writeRaw (cfg.payload data path checksum) data).setCall i
          (.putWritten key (putRow (cfg.payload data path checksum) expiry)))
  | putRead {i : Nat} {key : String} {row : ValueMessage} (hc : s.calls i = .putWritten key row) :
      CallMove cfg s (.putRead i) (s.setCall i (.putRead key row (s.rows key)))
  | putCommit {i : Nat} {key : String} {row : ValueMessage} {prev : Option ValueMessage}
      (hc : s.calls i = .putRead key row prev) :
      CallMove cfg s (.putCommit i true) (((s.setRow key (some row)).indexRaw cfg key row).setCall i
        (.reclaiming (reclaimable prev)))
  | casPutWrite {i : Nat} {key path : String} {expected stamp : UInt64} {data : List UInt8}
      {expiry : Int64} {checksum : UInt32} (hc : s.calls i = .casPutAdmitted key expected)
      (hstamp : s.lastStamp < stamp) :
      CallMove cfg s (.casPutWrite i stamp data expiry path checksum)
        ({ s.writeRaw (cfg.payload data path checksum) data with lastStamp := stamp }.setCall i
          (.casPutWritten key
            (casPutOperand (cfg.payload data path checksum) expiry stamp expected)))
  | casPutRefresh {i : Nat} {key : String} {operand : ValueMessage} {now : Int64}
      (hc : s.calls i = .casPutWritten key operand)
      (hadmits : casAdmits (casClassify now (s.rows key)).1 (casClassify now (s.rows key)).2
        operand.casExpectedVersion = true) :
      CallMove cfg s (.casPutRefresh i now) (s.setCall i (.casMerging key { operand with
        casExpectedVersion := carriedVersion now (s.rows key) operand.casExpectedVersion }
        (s.rows key)))
  | casDeleteRead {i : Nat} {key : String} {now : Int64} {expected : UInt64}
      (hc : s.calls i = .idle)
      (hadmits : deleteAdmits (casClassify now (s.rows key)).1 (casClassify now (s.rows key)).2
        expected = true) :
      CallMove cfg s (.casDeleteRead i key now expected) (s.setCall i
        (.casDeleteAdmitted key (carriedVersion now (s.rows key) expected) (s.rows key)))
  | casDeleteStamp {i : Nat} {key : String} {carried stamp : UInt64} {prev : Option ValueMessage}
      (hc : s.calls i = .casDeleteAdmitted key carried prev) (hstamp : s.lastStamp < stamp) :
      CallMove cfg s (.casDeleteStamp i stamp) ({ s with lastStamp := stamp }.setCall i
        (.casMerging key (casDeleteOperand stamp carried) prev))
  | casMerge {i : Nat} {key : String} {operand : ValueMessage} {prev : Option ValueMessage}
      (hc : s.calls i = .casMerging key operand prev) :
      CallMove cfg s (.casMerge i true)
        ((s.setRow key (some (mergeRow (s.rows key) [operand]))).setCall i
          (.casMerged key operand prev))
  | casWon {i : Nat} {key : String} {operand : ValueMessage} {prev : Option ValueMessage}
      (hc : s.calls i = .casMerged key operand prev)
      (hwon : carries (s.rows key) operand.version = true) (hput : operand.opType = .casPut) :
      CallMove cfg s (.casReadBack i)
        (s.setCall i (.casWon key operand (reclaimReplacedValue prev)))
  | casDeleted {i : Nat} {key : String} {operand : ValueMessage} {prev : Option ValueMessage}
      (hc : s.calls i = .casMerged key operand prev)
      (hwon : carries (s.rows key) operand.version = true) (hdelete : operand.opType ≠ .casPut) :
      CallMove cfg s (.casReadBack i) (s.setCall i (.reclaiming (reclaimReplacedValue prev)))
  | casLost {i : Nat} {key : String} {operand : ValueMessage} {prev : Option ValueMessage}
      (hc : s.calls i = .casMerged key operand prev)
      (hlost : ¬carries (s.rows key) operand.version = true) :
      CallMove cfg s (.casReadBack i) (s.setCall i (.reclaiming (reclaimable (some operand))))
  | casFinish {i : Nat} {key : String} {operand : ValueMessage} {replaced : List String}
      (hc : s.calls i = .casWon key operand replaced) :
      CallMove cfg s (.casFinish i true)
        ((s.indexRaw cfg key operand).setCall i (.reclaiming replaced))
  | casFinishFails {i : Nat} {key : String} {operand : ValueMessage} {replaced : List String}
      (hc : s.calls i = .casWon key operand replaced) :
      CallMove cfg s (.casFinish i false) (s.setCall i (.reclaiming replaced))
  | reclaim {i : Nat} {path : String} {paths : List String}
      (hc : s.calls i = .reclaiming (path :: paths)) :
      CallMove cfg s (.reclaim i) ((s.queue path).setCall i (.reclaiming paths))

variable {batch : List (String × ValueMessage)} {key : String} {row : ValueMessage}
  {rows : String → Option ValueMessage}

lemma removeKeys_eq_none (h : (key, row) ∈ batch) : removeKeys rows batch key = none :=
  if_pos (List.mem_map_of_mem h)

lemma eq_some_of_removeKeys (h : removeKeys rows batch key = some row) : rows key = some row := by
  unfold removeKeys at h
  split at h
  · simp at h
  · exact h

section Calls

variable {cfg : Config} {s : State} {i : Nat}

variable {key : String} {batch : List (String × ValueMessage)} {now : Int64} {ok : Bool}

lemma CallMove.deleteCommit {read : ValueMessage} (e : Event)
    (hc : s.calls i = .deleting key read) :
    CallMove cfg s e ((s.setRow key none).setCall i (.reclaiming (reclaimable (some read)))) := by
  have hkept : ∀ k r, Function.update s.rows key none k = some r → s.rows k = some r := by
    intro k r hr
    have hk : k ≠ key := by
      rintro rfl
      simp at hr
    rwa [Function.update_of_ne hk] at hr
  refine .remove e (by rw [hc]; rfl) hkept fun p hp => ?_
  obtain ⟨r, hr, hrp⟩ := mem_reclaimable.mp hp
  cases hr
  exact ⟨key, read, by simp [hc], hrp, by simp⟩

/-- The files of a batch belong to rows that the call has read and that the batch removes. -/
theorem CallMove.removeCommit (e : Event) (hold : (s.calls i).isReading = true)
    (hknows : (s.calls i).knows = batch) :
    CallMove cfg s e ({ s with rows := removeKeys s.rows batch }.setCall i
      (.reclaiming (reclaimableBatch batch))) := by
  refine .remove e hold (fun _ _ => eq_some_of_removeKeys) fun p hp => ?_
  obtain ⟨key, row, hmem, hrp⟩ := mem_reclaimableBatch.mp hp
  exact ⟨key, row, hknows ▸ hmem, hrp, removeKeys_eq_none hmem⟩

/-- The call returns with nothing to queue. -/
theorem CallMove.quit (e : Event) (hold : (s.calls i).isReading = true) :
    CallMove cfg s e (s.setCall i (.reclaiming [])) :=
  .look e hold rfl (by simp)

/-- One more row is staged for removal. -/
theorem mem_stage {known : List (String × ValueMessage)} {k : String} {row r : ValueMessage}
    (hbatch : batch = known) (hrow : s.rows key = some row) (h : (k, r) ∈ batch ++ [(key, row)]) :
    (k, r) ∈ known ∨ s.rows k = some r := by
  rcases List.mem_append.mp h with hold | hnew
  · exact .inl (hbatch ▸ hold)
  · obtain ⟨rfl, rfl⟩ : k = key ∧ r = row := by simpa using hnew
    exact .inr hrow

lemma callMove_deleteRead : CallMove cfg s (.deleteRead i key) (deleteRead s i key) := by
  unfold deleteRead
  split
  · rename_i hc
    split
    · rename_i read hread
      refine .look _ (by rw [hc]; rfl) rfl fun k r h => .inr ?_
      obtain ⟨rfl, rfl⟩ : k = key ∧ r = read := by simpa using h
      exact hread
    · exact .quit _ (by rw [hc]; rfl)
  · exact .idle _

lemma callMove_sweepScan {retained : Bool} :
    CallMove cfg s (.sweepScan i key now retained) (sweepScan s i key now retained) := by
  unfold sweepScan
  split
  · split
    · rename_i hc
      exact .look _ (by rw [hc]; rfl) rfl (by simp)
    · rename_i hc
      exact .look _ (by rw [hc]; rfl) rfl fun k r h => .inl (by rw [hc]; exact h)
    · exact .idle _
  · exact .idle _

lemma callMove_sweepCheck : CallMove cfg s (.sweepCheck i key) (sweepCheck s i key) := by
  unfold sweepCheck
  split
  · rename_i hc
    split
    · rename_i hrow
      split
      · exact .look _ (by rw [hc]; rfl) rfl fun k r h => mem_stage (by rw [hc]; rfl) hrow h
      · exact .idle _
    · exact .idle _
  · exact .idle _

lemma callMove_evictStage : CallMove cfg s (.evictStage i key now) (evictStage s i key now) := by
  unfold evictStage
  split
  · rename_i hread
    have hrow := (Option.filter_eq_some_iff.mp hread).1
    split
    · rename_i hc
      have hnone : [] = (s.calls i).knows := by rw [hc]; rfl
      exact .look _ (by rw [hc]; rfl) rfl fun k r h => mem_stage hnone hrow h
    · rename_i hc
      exact .look _ (by rw [hc]; rfl) rfl fun k r h => mem_stage (by rw [hc]; rfl) hrow h
    · exact .idle _
  · exact .idle _

lemma callMove_putCommit : CallMove cfg s (.putCommit i ok) (putCommit cfg s i ok) := by
  unfold putCommit
  split
  · rename_i hc
    cases ok with
    | true => exact .putCommit hc
    | false => exact .abandon _ (by rw [hc]; rfl)
  · exact .idle _

lemma callMove_deleteCommit : CallMove cfg s (.deleteCommit i ok) (deleteCommit s i ok) := by
  unfold deleteCommit
  split
  · rename_i hc
    cases ok with
    | true => exact .deleteCommit _ hc
    | false => exact .quit _ (by rw [hc]; rfl)
  · exact .idle _

section Cas

variable {key : String} {now : Int64} {expected : UInt64} {ok : Bool}

lemma callMove_casPutRead :
    CallMove cfg s (.casPutRead i key now expected) (casPutRead s i key now expected) := by
  unfold casPutRead
  split
  · rename_i hc
    dsimp only
    split
    · exact .look _ (by rw [hc]; rfl) rfl (by simp)
    · exact .quit _ (by rw [hc]; rfl)
  · exact .idle _

lemma callMove_casPutRefresh : CallMove cfg s (.casPutRefresh i now) (casPutRefresh s i now) := by
  unfold casPutRefresh
  split
  · rename_i hc
    dsimp only
    split
    · exact .casPutRefresh hc ‹_›
    · exact .abandon _ (by rw [hc]; rfl)
  · exact .idle _

lemma callMove_casDeleteRead :
    CallMove cfg s (.casDeleteRead i key now expected) (casDeleteRead s i key now expected) := by
  unfold casDeleteRead
  split
  · rename_i hc
    dsimp only
    split
    · exact .casDeleteRead hc ‹_›
    · exact .quit _ (by rw [hc]; rfl)
  · exact .idle _

lemma callMove_casMerge : CallMove cfg s (.casMerge i ok) (casMerge s i ok) := by
  unfold casMerge
  split
  · rename_i hc
    cases ok with
    | true => exact .casMerge hc
    | false => exact .abandon _ (by rw [hc]; rfl)
  · exact .idle _

lemma callMove_casFinish : CallMove cfg s (.casFinish i ok) (casFinish cfg s i ok) := by
  unfold casFinish
  split
  · cases ok with
    | true => exact .casFinish ‹_›
    | false => exact .casFinishFails ‹_›
  · exact .idle _

lemma callMove_removeCommit : CallMove cfg s (.removeCommit i ok) (removeCommit s i ok) := by
  unfold removeCommit
  split
  all_goals try exact .idle _
  all_goals
    rename_i hc
    cases ok with
    | true => exact .removeCommit _ (by rw [hc]; rfl) (by rw [hc]; rfl)
    | false => exact .quit _ (by rw [hc]; rfl)

end Cas

/-- A step that no migration takes. -/
theorem callMove_step {e : Event} (he : e.isMigration = false) :
    CallMove cfg s e (step cfg s e) := by
  cases e
  all_goals try cases he
  all_goals simp only [step]
  case get => exact .get _ _
  case deleteRead => exact callMove_deleteRead
  case sweepScan => exact callMove_sweepScan
  case sweepCheck => exact callMove_sweepCheck
  case evictStage => exact callMove_evictStage
  case putCommit => exact callMove_putCommit
  case deleteCommit => exact callMove_deleteCommit
  case casPutRead => exact callMove_casPutRead
  case casPutRefresh => exact callMove_casPutRefresh
  case casDeleteRead => exact callMove_casDeleteRead
  case casMerge => exact callMove_casMerge
  case casFinish => exact callMove_casFinish
  case removeCommit => exact callMove_removeCommit
  -- In the other steps every branch is a move of its own, or nothing is done.
  all_goals
    simp only [purge, unlink, putWrite, putRead, casPutWrite, casDeleteStamp, casReadBack, reclaim]
    repeat' split
    all_goals first
      | exact .idle _ | exact .purge ‹_› | exact .unlink ‹_› | exact .putWrite ‹_›
      | exact .putRead ‹_› | exact .casPutWrite ‹_› ‹_› | exact .casDeleteStamp ‹_› ‹_›
      | exact .casWon ‹_› ‹_› ‹_› | exact .casDeleted ‹_› ‹_› ‹_› | exact .casLost ‹_› ‹_›
      | exact .reclaim ‹_›

end Calls

/-! ## Moves of migrations -/

/-- What becomes of an index row. -/
inductive Processed (s : State) (c : Compaction) (key path : String) : Migration → Prop
  /-- The key has no row, or one without the file: the file is queued. -/
  | stale (hfile : s.hasFile path = true)
      (hrow : ∀ row, s.rows key = some row → rawPath row ≠ some path) :
      Processed s c key path
        (.compacting { c with dropped := c.dropped ++ [(key, path)], ready := [path] })
  | moved {row : ValueMessage} (hfile : s.hasFile path = true) (hrow : s.rows key = some row)
      (hsegment : row.valueType = .segment) :
      Processed s c key path (.compacting { c with dropped := c.dropped ++ [(key, path)] })
  /-- The file has not the length that the row says. -/
  | short {row : ValueMessage} (hrow : s.rows key = some row) (hpath : rawPath row = some path)
      (hlength : (s.rawFiles path).map (Int64.ofNat ·.length) ≠ some row.valueLength) :
      Processed s c key path (.compacting { c with
        dropped := c.dropped ++ [(key, path)]
        wb := c.wb ++ purgeDanglingMeta s key path
        pending := c.pending ++ [path] })
  | copying {row : ValueMessage} (hrow : s.rows key = some row) (hpath : rawPath row = some path) :
      Processed s c key path (.copying c key path row)
  | missing (hfile : ¬s.hasFile path = true) :
      Processed s c key path (.compacting { c with
        dropped := c.dropped ++ [(key, path)]
        wb := c.wb ++ purgeDanglingMeta s key path })

lemma processed_processEntry (s : State) (c : Compaction) (key path : String) :
    Processed s c key path (processEntry s c key path) := by
  unfold processEntry
  dsimp only
  split
  · rename_i hfile
    split
    · rename_i hnone
      exact .stale hfile (by simp [hnone])
    · rename_i row hrow
      split
      · exact .moved hfile hrow ‹_›
      · split
        · rename_i hother
          refine .stale hfile fun r hr hpath => ?_
          obtain rfl := Option.some.inj (hrow.symm.trans hr)
          have htype : row.valueType = .rawFile ∧ row.rawFilePath = path := by
            simpa [rawPath] using hpath
          simp [htype.1, htype.2] at hother
        · rename_i hsame
          have hpath : rawPath row = some path := by
            simp only [ne_eq, not_or, Decidable.not_not] at hsame
            simp [rawPath, hsame.1, hsame.2]
          split
          · exact .short hrow hpath ‹_›
          · exact .copying hrow hpath
  · exact .missing ‹_›

/-- A migration that can be given up: its batch is not committed. -/
def Migration.isOpen : Migration → Bool
  | .compacting _ | .copying .. | .recompacting _ | .moving .. => true
  | _ => false

/-- What a migration does in a step. -/
inductive MigrationMove (s : State) : Event → State → Prop
  | idle (e : Event) : MigrationMove s e s
  | compactStart {seg : String} {s' : State} (hs' : s.acquire seg = some s') :
      MigrationMove s (.compactStart seg)
        (s'.addMigration (.compacting ⟨seg, [], [], [], [], s.compactionIndex⟩))
  | compactNext {m : Nat} {c : Compaction} {key path : String} {x : Migration}
      (hm : s.migrations[m]? = some (.compacting { c with entries := (key, path) :: c.entries }))
      (hready : c.ready = []) (hx : Processed s c key path x) :
      MigrationMove s (.compactNext m) (s.setMigration m x)
  | compactSkip {m : Nat} {c : Compaction} {entry : String × String}
      (hm : s.migrations[m]? = some (.compacting { c with entries := entry :: c.entries })) :
      MigrationMove s (.compactSkip m) (s.setMigration m (.compacting c))
  | compactCopy {m : Nat} {c : Compaction} {key path : String} {row : ValueMessage} {offset : Int64}
      {s' : State} (hm : s.migrations[m]? = some (.copying c key path row))
      (hfree : s.freeAt c.seg offset = true)
      (hs' : s.writeEntry c.seg ⟨key, offset, (s.rawFiles path).getD []⟩ = some s') :
      MigrationMove s (.compactCopy m offset) (s'.setMigration m (.compacting { c with
        wb := c.wb ++ [(key, compactionOperand row c.seg offset)]
        dropped := c.dropped ++ [(key, path)]
        pending := c.pending ++ [path] }))
  /-- The entry at hand is left for a later run. -/
  | leave {m : Nat} {c : Compaction} {key path : String} {row : ValueMessage} (e : Event)
      (hm : s.migrations[m]? = some (.copying c key path row)) :
      MigrationMove s e (s.setMigration m (.compacting c))
  | compactCommit {m : Nat} {c : Compaction} {key path : String} {row : ValueMessage}
      (hm : s.migrations[m]? = some (.copying c key path row)) :
      MigrationMove s (.compactCommit m true) ((s.commitBatch c.wb c.dropped).setMigration m
        (.rolling ⟨c.seg, [], [], [], c.pending, c.entries⟩ key path row))
  | compactRoll {m : Nat} {c : Compaction} {key path seg : String} {row : ValueMessage} {s' : State}
      (hm : s.migrations[m]? = some (.rolling c key path row)) (hready : c.ready = [])
      (hs' : (s.finalizeSegment c.seg).acquire seg = some s') :
      MigrationMove s (.compactRoll m seg)
        (s'.setMigration m (.copying { c with seg := seg } key path row))
  | compactFinish {m : Nat} {c : Compaction} (hm : s.migrations[m]? = some (.compacting c))
      (hready : c.ready = []) :
      MigrationMove s (.compactFinish m true)
        ((s.commitBatch c.wb c.dropped).setMigration m (.finishing c.pending))
  | recompactStart {old seg : String} {oldSeg : Segment} {s' : State}
      (hold : s.segments old = some oldSeg) (hclosed : oldSeg.status = .closed)
      (hs' : s.acquire seg = some s') :
      MigrationMove s (.recompactStart old seg)
        (s'.addMigration (.recompacting ⟨old, seg, [], oldSeg.entries, false⟩))
  | recompactNext {m : Nat} {r : Recompaction} {entry : Entry} {row : ValueMessage}
      (hm : s.migrations[m]? = some (.recompacting { r with entries := entry :: r.entries }))
      (hrow : s.rows entry.key = some row) (hplace : segmentPlace row = some (r.old, entry.offset)) :
      MigrationMove s (.recompactNext m) (s.setMigration m (.moving r entry row))
  | recompactSkip {m : Nat} {r : Recompaction} {entry : Entry}
      (hm : s.migrations[m]? = some (.recompacting { r with entries := entry :: r.entries }))
      (hplace : ∀ row, s.rows entry.key = some row → segmentPlace row ≠ some (r.old, entry.offset)) :
      MigrationMove s (.recompactNext m) (s.setMigration m (.recompacting r))
  | recompactRoll {m : Nat} {r : Recompaction} {entry : Entry} {row : ValueMessage} {seg : String}
      {s' : State} (hm : s.migrations[m]? = some (.moving r entry row))
      (hs' : (s.finalizeSegment r.seg).acquire seg = some s') :
      MigrationMove s (.recompactRoll m seg)
        (s'.setMigration m (.moving { r with seg := seg } entry row))
  | recompactCopy {m : Nat} {r : Recompaction} {entry : Entry} {row : ValueMessage} {offset : Int64}
      {s' : State} (hm : s.migrations[m]? = some (.moving r entry row))
      (hfree : s.freeAt r.seg offset = true)
      (hs' : s.writeEntry r.seg ⟨entry.key, offset, entry.data⟩ = some s') :
      MigrationMove s (.recompactCopy m offset) (s'.setMigration m (.recompacting { r with
        wb := r.wb ++ [(entry.key, recompactionOperand row r.seg offset)] }))
  | recompactFails {m : Nat} {r : Recompaction} {entry : Entry} {row : ValueMessage} {offset : Int64}
      (hm : s.migrations[m]? = some (.moving r entry row)) :
      MigrationMove s (.recompactCopy m offset)
        (s.setMigration m (.recompacting { r with failed := true }))
  | recompactCommit {m : Nat} {r : Recompaction} (hm : s.migrations[m]? = some (.recompacting r))
      (hdone : r.entries = []) :
      MigrationMove s (.recompactCommit m true) ((s.commitBatch r.wb []).setMigration m
        (if r.failed then .finishing [] else .removing r.old))
  | recompactRemove {m : Nat} {old : String} (hm : s.migrations[m]? = some (.removing old)) :
      MigrationMove s (.recompactRemove m) ((s.removeSegment old).setMigration m (.finishing [old]))
  | queueReady {m : Nat} {c : Compaction} {path : String}
      (hm : s.migrations[m]? = some (.compacting { c with ready := path :: c.ready })) :
      MigrationMove s (.migrationQueue m) ((s.queue path).setMigration m (.compacting c))
  | queueRolling {m : Nat} {c : Compaction} {key file path : String} {row : ValueMessage}
      (hm : s.migrations[m]? = some (.rolling { c with ready := path :: c.ready } key file row)) :
      MigrationMove s (.migrationQueue m) ((s.queue path).setMigration m (.rolling c key file row))
  | queueFinishing {m : Nat} {path : String} {ready : List String}
      (hm : s.migrations[m]? = some (.finishing (path :: ready))) :
      MigrationMove s (.migrationQueue m) ((s.queue path).setMigration m (.finishing ready))
  /-- The migration ends without a commit. -/
  | cancel {m : Nat} {x : Migration} (e : Event) (hm : s.migrations[m]? = some x)
      (hx : x.isOpen = true) : MigrationMove s e (s.setMigration m (.finishing []))

section Migrations

variable {cfg : Config} {s : State} {m : Nat}

lemma migrationMove_recompactNext : MigrationMove s (.recompactNext m) (recompactNext s m) := by
  unfold recompactNext
  split
  · rename_i old seg wb entry entries failed hm
    split
    · rename_i row hrow
      split
      · exact .recompactNext (r := ⟨old, seg, wb, entries, failed⟩) hm hrow ‹_›
      · rename_i hplace
        refine .recompactSkip (r := ⟨old, seg, wb, entries, failed⟩) hm fun q hq => ?_
        obtain rfl := Option.some.inj (hrow.symm.trans hq)
        exact hplace
    · rename_i hnone
      exact .recompactSkip (r := ⟨old, seg, wb, entries, failed⟩) hm (by simp [hnone])
  · exact .idle _

lemma migrationMove_migrationQueue : MigrationMove s (.migrationQueue m) (migrationQueue s m) := by
  unfold migrationQueue
  split
  · rename_i seg wb dropped pending path ready entries hm
    exact .queueReady (c := ⟨seg, wb, dropped, pending, ready, entries⟩) hm
  · rename_i seg wb dropped pending path ready entries key file row hm
    exact .queueRolling (c := ⟨seg, wb, dropped, pending, ready, entries⟩) hm
  · exact .queueFinishing ‹_›
  · exact .idle _

lemma migrationMove_compactNext : MigrationMove s (.compactNext m) (compactNext s m) := by
  unfold compactNext
  split
  · rename_i seg wb dropped pending key path entries hm
    exact .compactNext (c := ⟨seg, wb, dropped, pending, [], entries⟩) hm rfl
      (processed_processEntry ..)
  · exact .idle _

lemma migrationMove_compactSkip : MigrationMove s (.compactSkip m) (compactSkip s m) := by
  unfold compactSkip
  split
  · rename_i seg wb dropped pending entry entries hm
    exact .compactSkip (c := ⟨seg, wb, dropped, pending, [], entries⟩) hm
  · exact .idle _

lemma migrationMove_compactRoll {seg : String} :
    MigrationMove s (.compactRoll m seg) (compactRoll s m seg) := by
  unfold compactRoll
  split
  · rename_i full wb dropped pending entries key path row hm
    split
    · exact .compactRoll (c := ⟨full, wb, dropped, pending, [], entries⟩) hm rfl ‹_›
    · exact .idle _
  · exact .idle _

variable {ok : Bool}

lemma migrationMove_compactCommit :
    MigrationMove s (.compactCommit m ok) (compactCommit s m ok) := by
  unfold compactCommit
  split
  · cases ok with
    | true => exact .compactCommit ‹_›
    | false => exact .leave _ ‹_›
  · exact .idle _

lemma migrationMove_compactFinish :
    MigrationMove s (.compactFinish m ok) (compactFinish s m ok) := by
  unfold compactFinish
  split
  · rename_i hm
    cases ok with
    | true => exact .compactFinish hm rfl
    | false => exact .cancel _ hm rfl
  · exact .idle _

lemma migrationMove_recompactCommit :
    MigrationMove s (.recompactCommit m ok) (recompactCommit s m ok) := by
  unfold recompactCommit
  split
  · rename_i hm
    cases ok with
    | true => exact .recompactCommit hm rfl
    | false => exact .cancel _ hm rfl
  · exact .idle _

/-- A step of the compactor or the recompactor. -/
theorem migrationMove_step {e : Event} (he : e.isMigration = true) :
    MigrationMove s e (step cfg s e) := by
  cases e
  all_goals try cases he
  all_goals simp only [step]
  case recompactNext => exact migrationMove_recompactNext
  case migrationQueue => exact migrationMove_migrationQueue
  case compactNext => exact migrationMove_compactNext
  case compactSkip => exact migrationMove_compactSkip
  case compactRoll => exact migrationMove_compactRoll
  case compactCommit => exact migrationMove_compactCommit
  case compactFinish => exact migrationMove_compactFinish
  case recompactCommit => exact migrationMove_recompactCommit
  -- In the other steps every branch is a move of its own, or nothing is done.
  all_goals
    simp only [compactStart, compactCopy, recompactStart, recompactRoll, recompactCopy,
      recompactRemove, migrationCancel]
    repeat' split
    all_goals first
      | exact .idle _ | exact .compactStart ‹_› | exact .compactCopy ‹_› ‹_› ‹_›
      | exact .leave _ ‹_› | exact .recompactStart ‹_› ‹_› ‹_› | exact .recompactRoll ‹_› ‹_›
      | exact .recompactCopy ‹_› ‹_› ‹_› | exact .recompactFails ‹_›
      | exact .recompactRemove ‹_› | exact .cancel _ ‹_› rfl

end Migrations

/-- Every step is a move of a call or of a migration. -/
theorem move_step (cfg : Config) (s : State) (e : Event) :
    CallMove cfg s e (step cfg s e) ∨ MigrationMove s e (step cfg s e) := by
  cases he : e.isMigration with
  | false => exact .inl (callMove_step he)
  | true => exact .inr (migrationMove_step he)

end OCache.Store
