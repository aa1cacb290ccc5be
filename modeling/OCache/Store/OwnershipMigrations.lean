import OCache.Store.OwnershipCalls

/-!
# Migrations keep the ownership invariant

A migration writes rows only through the merges of its batch. A merge leaves a row alone, moves it
into a segment or buries it, so no row gains a raw file (`rowFrom_applyMerges`), and a file that a
merge of the batch names is on no row after the commit (`applyMerges_rawPath_ne`).
-/

namespace OCache.Store

open Merge

/-! ## Batches -/

section Batch

variable {s : State}

variable {key : String} {row : ValueMessage} {wb : List (String × ValueMessage)}

variable {op : ValueMessage}

/-- What a background operand does to the row of a key. -/
theorem rowFrom_background {rows : String → Option ValueMessage} (hop : Background op)
    (h : mergeRow (rows key) [op] = row) :
    rows key = some row ∨ (rawPath row = none ∧ row.opType = .none ∧
      (row.version = 0 ∨ ∃ q, rows key = some q ∧ q.version = row.version)) := by
  rcases mergeRow_background hop (rows key) with htomb | hkept | ⟨hsegment, base, hbase, -, hmoved⟩
  · rw [htomb] at h
    subst h
    exact .inr ⟨rfl, rfl, .inl rfl⟩
  · exact .inl (by rw [hkept, h])
  · rw [hmoved] at h
    subst h
    exact .inr ⟨by simp [rawPath, migrated, hsegment], rfl, .inr ⟨base, hbase, rfl⟩⟩

variable (hwb : ∀ key op, (key, op) ∈ wb → Background op)

include hwb

/-- The rows after a batch: kept, buried, or in a segment under the version they had. -/
theorem applyMerges_cases (rows : String → Option ValueMessage)
    (h : applyMerges rows wb key = some row) :
    rows key = some row ∨ (rawPath row = none ∧ row.opType = .none ∧
      (row.version = 0 ∨ ∃ q, rows key = some q ∧ q.version = row.version)) := by
  induction wb generalizing rows with
  | nil => exact .inl h
  | cons e wb ih =>
    obtain ⟨k, op⟩ := e
    have hop : Background op := hwb k op List.mem_cons_self
    -- The step from the row before the first merge to the row after it.
    have hstep : ∀ q, Function.update rows k (some (mergeRow (rows k) [op])) key = some q →
        rows key = some q ∨ (rawPath q = none ∧ q.opType = .none ∧
          (q.version = 0 ∨ ∃ q', rows key = some q' ∧ q'.version = q.version)) := by
      intro q hq
      by_cases hk : key = k
      · subst hk
        exact rowFrom_background hop (by simpa using hq)
      · exact .inl (by rwa [Function.update_of_ne hk] at hq)
    rcases ih (fun k' op' h' => hwb k' op' (List.mem_cons_of_mem _ h')) _ h with
      hkept | ⟨hpath, hopt, hversion⟩
    · exact hstep row hkept
    · refine .inr ⟨hpath, hopt, ?_⟩
      rcases hversion with hzero | ⟨q, hq, hv⟩
      · exact .inl hzero
      · rcases hstep q hq with hq' | ⟨-, -, hzero | ⟨q', hq', hv'⟩⟩
        · exact .inr ⟨q, hq', hv⟩
        · exact .inl (hv.symm.trans hzero)
        · exact .inr ⟨q', hq', hv'.trans hv⟩

lemma rowFrom_applyMerges (h : applyMerges s.rows wb key = some row) : RowFrom s none key row := by
  rcases applyMerges_cases hwb s.rows h with hkept | ⟨hpath, hop, hversion⟩
  · exact .kept hkept
  · exact .derived hpath hop hversion

/-- A raw file that a merge of the batch names is off its row after the batch. -/
theorem applyMerges_rawPath_ne (rows : String → Option ValueMessage) (hmem : (key, op) ∈ wb)
    (h : applyMerges rows wb key = some row) : rawPath row ≠ some op.rawFilePath := by
  induction wb generalizing rows with
  | nil => simp at hmem
  | cons e wb ih =>
    have hwb' : ∀ key op, (key, op) ∈ wb → Background op :=
      fun k op' h' => hwb k op' (List.mem_cons_of_mem _ h')
    rcases List.mem_cons.mp hmem with rfl | hlater
    · -- Right after its merge the row has another file or none; the rest adds no file.
      have hop : Background op := hwb key op List.mem_cons_self
      intro hpath
      rcases applyMerges_cases hwb' _ h with hkept | ⟨hnone, -⟩
      · have hmerged : mergeRow (rows key) [op] = row := by simpa using hkept
        rcases rowFrom_background hop hmerged with hrow | ⟨hnone, -⟩
        · have htype : row.valueType = .rawFile ∧ row.rawFilePath = op.rawFilePath := by
            simpa [rawPath] using hpath
          rw [hrow] at hmerged
          exact mergeRow_valueType_of_rawFile hop htype.1 htype.2 (by rw [hmerged, htype.1])
        · simp [hnone] at hpath
      · simp [hnone] at hpath
    · exact ih hwb' _ hlater h

end Batch

/-! ## Steps of a migration -/

section Step

variable {s s' : State}

namespace Ownership

/-- A step of a migration keeps the invariant if what it adds is in order. -/
theorem migrate (hI : Ownership s) (hF : Frame s s' none) (hcalls : s'.calls = s.calls)
    (hmigrations : ∀ x ∈ s'.migrations, x ∈ s.migrations ∨ MigrationOk s' x)
    (hindex : ∀ e ∈ s'.compactionIndex, e ∈ s.compactionIndex)
    (hqueue : ∀ p, p ∈ s'.queued ∨ p ∈ s'.unlinked →
      (p ∈ s.queued ∨ p ∈ s.unlinked) ∨ Unreferenced s' p)
    (hnames : ∀ p, (s'.segments p).isSome → p ≠ "" ∧ s'.rawFiles p = none) : Ownership s' where
  rows key row hrow := by
    cases hF.rows key row hrow with
    | kept hkept => exact hF.known (hI.rows key row hkept)
    | written hw => simp at hw
    | derived hpath hop hversion =>
      refine ⟨⟨hop, ?_, by simp [hpath], by simp [hpath]⟩, by simp [hpath], by simp [hpath]⟩
      rcases hversion with hzero | ⟨q, hq, hv⟩
      · simp [hzero]
      · exact hv ▸ UInt64.le_trans (hI.rows key q hq).stored.version hF.lastStamp
  calls i := by
    rw [hcalls]
    exact hF.callOk (hI.calls i) (by simp)
  distinct := by
    rw [hcalls]
    exact hI.distinct
  migrations x hx := by
    rcases hmigrations x hx with hold | hnew
    · exact hF.migrationOk (hI.migrations x hold)
    · exact hnew
  index key path he := hF.indexed (hI.index key path (hindex _ he))
  queue p hp := by
    rcases hqueue p hp with hold | hnew
    · exact hF.unreferenced (hI.queue p hold)
    · exact hnew
  names := hnames

/-- The migrations after one of them moved. -/
theorem mem_set {xs : List Migration} {m : Nat} {x y : Migration} {P : Migration → Prop}
    (hy : P y) (h : x ∈ xs.set m y) : x ∈ xs ∨ P x := by
  rcases List.mem_or_eq_of_mem_set h with hold | rfl
  · exact .inl hold
  · exact .inr hy

end Ownership

variable {migrations : List Migration}

/-- A step that touches at most segments, migrations and the queue. -/
theorem Frame.of_segments {segments : String → Option Segment} {queued : List String}
    (h : ∀ p, (s.segments p).isSome → (segments p).isSome) :
    Frame s { s with segments := segments, migrations := migrations, queued := queued } none where
  rawFiles _ _ hp := hp
  segments := h
  lastStamp := UInt64.le_refl _
  rows _ _ hr := .kept hr
  writes _ _ _ hr _ := .inl hr
  owner := by simp

/-- A batch is committed. -/
theorem Frame.of_commit {wb : List (String × ValueMessage)} {dropped : List (String × String)}
    (hwb : ∀ key op, (key, op) ∈ wb → Background op) :
    Frame s { s.commitBatch wb dropped with migrations := migrations } none where
  rawFiles _ _ hp := hp
  segments _ hp := hp
  lastStamp := UInt64.le_refl _
  rows _ _ hr := rowFrom_applyMerges hwb hr
  writes _ _ _ hr _ := .inl hr
  owner := by simp

namespace Ownership

variable {segments : String → Option Segment} {m : Nat}

variable (hI : Ownership s)

include hI

/-- A step that touches segments and migrations, and queues files that are unreferenced. -/
theorem segmentStep {migrations : List Migration} {queued : List String}
    (hmono : ∀ p, (s.segments p).isSome → (segments p).isSome)
    (hnew : ∀ p, (segments p).isSome → (s.segments p).isSome ∨ (p ≠ "" ∧ s.rawFiles p = none))
    (hmigrations : ∀ x ∈ migrations, x ∈ s.migrations ∨
      MigrationOk { s with segments := segments, migrations := migrations, queued := queued } x)
    (hqueue : ∀ p ∈ queued, p ∈ s.queued ∨ Unreferenced s p) :
    Ownership { s with segments := segments, migrations := migrations, queued := queued } := by
  have hF : Frame s { s with segments := segments, migrations := migrations, queued := queued }
      none := .of_segments hmono
  refine hI.migrate hF rfl hmigrations (fun _ h => h) ?_ ?_
  · rintro p (hp | hp)
    · rcases hqueue p hp with hold | hun
      · exact .inl (.inl hold)
      · exact .inr (hF.unreferenced hun)
    · exact .inl (.inr hp)
  · intro p hp
    rcases hnew p hp with hold | hfresh
    · exact hI.names p hold
    · exact hfresh

variable {x : Migration} {path : String}

/-- A migration that only changes its position. -/
theorem setMigration (hx : MigrationOk s x) : Ownership (s.setMigration m x) := by
  have hF : Frame s (s.setMigration m x) none := .of_segments fun _ h => h
  exact hI.segmentStep (fun _ h => h) (fun _ h => .inl h) (fun _ h => mem_set (hF.migrationOk hx) h)
    fun _ h => .inl h

/-- A migration that queues one of its files. -/
theorem queueFile (hx : MigrationOk s x) (hpath : Unreferenced s path) :
    Ownership ((s.queue path).setMigration m x) := by
  have hF : Frame s ((s.queue path).setMigration m x) none := .of_segments fun _ h => h
  refine hI.segmentStep (fun _ h => h) (fun _ h => .inl h)
    (fun _ h => mem_set (hF.migrationOk hx) h) fun p hp => ?_
  rcases List.mem_cons.mp hp with rfl | hp
  · exact .inr hpath
  · exact .inl hp

/-- A migration that starts. -/
theorem addMigration (hx : MigrationOk s x) : Ownership (s.addMigration x) := by
  have hF : Frame s (s.addMigration x) none := .of_segments fun _ h => h
  refine hI.segmentStep (fun _ h => h) (fun _ h => .inl h) (fun y hy => ?_) fun _ h => .inl h
  rcases List.mem_append.mp hy with hold | hy
  · exact .inl hold
  · rw [List.mem_singleton.mp hy]
    exact .inr (hF.migrationOk hx)

/-- Segments change but their names stay. -/
theorem setSegments (h : ∀ p, (segments p).isSome = (s.segments p).isSome) :
    Ownership { s with segments := segments } :=
  hI.segmentStep (fun p hp => (h p).trans hp) (fun p hp => .inl ((h p).symm.trans hp))
    (fun _ hx => .inl hx) fun _ hp => .inl hp

lemma finalizeSegment (path : String) : Ownership (s.finalizeSegment path) :=
  hI.setSegments (s.isSome_finalizeSegment path)

lemma removeSegment (path : String) : Ownership (s.removeSegment path) :=
  hI.setSegments (s.isSome_removeSegment path)

lemma writeEntry {entry : Entry} (h : s.writeEntry path entry = some s') : Ownership s' := by
  obtain ⟨seg, hseg, -, rfl⟩ := State.writeEntry_eq_some h
  refine hI.setSegments fun p => ?_
  by_cases hp : p = path
  · simp [hp, hseg]
  · rw [Function.update_of_ne hp]

lemma acquire (hfresh : s.segments path = none → path ≠ "" ∧ s.rawFiles path = none)
    (h : s.acquire path = some s') : Ownership s' := by
  rcases State.acquire_eq_some h with ⟨hnone, rfl⟩ | ⟨rfl, -⟩
  · refine hI.segmentStep (fun p hp => State.isSome_segments_setSegment hp) (fun p hp => ?_)
      (fun _ hx => .inl hx) fun _ hp => .inl hp
    rcases State.isSome_setSegment hp with rfl | hp
    · exact .inr (hfresh hnone)
    · exact .inl hp
  · exact hI

end Ownership

end Step

/-! ## Compaction -/

section Compaction

variable {s : State} {m : Nat}

variable {ready : List String} {s' : State} {offset : Int64} {full : String}

lemma migrationOk_finishing (h : ∀ p ∈ ready, Unreferenced s p) :
    MigrationOk s (.finishing ready) :=
  ⟨by simp, by simp, by simp, h,
    by simp, by simp, trivial⟩

variable {x : Migration} {seg key path : String} {c : Compaction} {dropped : List (String × String)}
  {row : ValueMessage}

/-- The migration at a position is in order. -/
theorem Ownership.migrationOk (hI : Ownership s) (h : s.migrations[m]? = some x) :
    MigrationOk s x :=
  hI.migrations x (List.mem_of_getElem? h)

lemma ownership_compactStart (hI : Ownership s)
    (hfresh : s.segments seg = none → seg ≠ "" ∧ s.rawFiles seg = none)
    (hs' : s.acquire seg = some s') :
    Ownership (s'.addMigration (.compacting ⟨seg, [], [], [], [], s.compactionIndex⟩)) := by
  have hI' := hI.acquire hfresh hs'
  refine hI'.addMigration ⟨by simp, ?_, by simp,
    by simp, by simp, by simp, trivial⟩
  rw [State.acquire_eq hs'] at hI' ⊢
  exact hI'.index

lemma background_purgeDanglingMeta {k : String} {op : ValueMessage}
    (h : (k, op) ∈ purgeDanglingMeta s key path) : Background op := by
  unfold purgeDanglingMeta at h
  split at h
  · rename_i hguard
    simp only [List.mem_singleton, Prod.mk.injEq] at h
    exact h.2 ▸ background_purgeOperand hguard.1
  · simp at h

/-- An index row is dropped and merges are added to the batch. -/
theorem MigrationOk.drop (h : MigrationOk s (.compacting c)) {wb : List (String × ValueMessage)}
    (hwb : ∀ key op, (key, op) ∈ wb → Background op) (hready : ∀ p ∈ ready, Unreferenced s p) :
    MigrationOk s (.compacting ⟨c.seg, c.wb ++ wb, dropped, c.pending, ready, c.entries⟩) where
  staged key op he := by
    rcases List.mem_append.mp he with hold | hnew
    · exact h.staged key op hold
    · exact hwb key op hnew
  entries := h.entries
  knows := by simp
  reclaims := hready
  pending p hp := by
    rcases h.pending p hp with hun | ⟨hset, key, op, hmem, hpath, honly⟩
    · exact .inl hun
    · exact .inr ⟨hset, key, op, List.mem_append_left _ hmem, hpath, honly⟩
  empties := by simp
  wf := trivial

/-- The file of an index row whose key has another row is unreferenced. -/
theorem Indexed.unreferenced (h : Indexed s key path)
    (hrow : ∀ row, s.rows key = some row → rawPath row ≠ some path) : Unreferenced s path where
  settled := h.settled
  none k r hr hp := by
    obtain rfl := h.only k r hr hp
    exact hrow r hr hp

lemma migrationOk_processed (hI : Ownership s) (hready : c.ready = [])
    (h : MigrationOk s (.compacting c)) (hentry : Indexed s key path)
    (hx : Processed s c key path x) : MigrationOk s x := by
  have hnil : ∀ {ready : List String} {dropped : List (String × String)},
      (∀ p ∈ ready, Unreferenced s p) →
      MigrationOk s (.compacting ⟨c.seg, c.wb, dropped, c.pending, ready, c.entries⟩) := by
    intro ready dropped hr
    have hempty : ∀ key op, (key, op) ∈ ([] : List (String × ValueMessage)) → Background op := by
      simp
    simpa using h.drop hempty hr
  cases hx with
  | stale _ hrow => exact hnil fun p hp => List.mem_singleton.mp hp ▸ hentry.unreferenced hrow
  | moved => exact hnil (by simp [hready])
  | short hrow hpath hlength =>
    -- A row says how long its file is.
    exact absurd ((hI.rows key _ hrow).stored.backed path hpath) hlength
  | copying hrow hpath =>
    refine ⟨h.staged, h.entries, ?_, h.reclaims, h.pending, by simp, hpath⟩
    intro k r he
    simp only [Migration.knows, List.mem_singleton, Prod.mk.injEq] at he
    obtain ⟨rfl, rfl⟩ := he
    exact hI.rows _ _ hrow
  | missing => exact h.drop (fun k op he => background_purgeDanglingMeta he) (by simp [hready])

/-- The entries that are left. -/
theorem MigrationOk.tail {e : String × String}
    (h : MigrationOk s (.compacting { c with entries := e :: c.entries })) :
    MigrationOk s (.compacting c) :=
  ⟨h.staged, fun key path he => h.entries key path (List.mem_cons_of_mem _ he), h.knows, h.reclaims,
    h.pending, h.empties, trivial⟩

/-- The entry at hand is left for a later run. -/
theorem MigrationOk.skip (h : MigrationOk s (.copying c key path row)) :
    MigrationOk s (.compacting c) :=
  ⟨h.staged, h.entries, by simp, h.reclaims, h.pending,
    by simp, trivial⟩

lemma background_compactionOperand (hop : row.opType = .none) (hpath : rawPath row = some path)
    (hne : path ≠ "") :
    Background (compactionOperand row seg offset) ∧
      (compactionOperand row seg offset).rawFilePath = path := by
  have htype : row.valueType = .rawFile ∧ row.rawFilePath = path := by simpa [rawPath] using hpath
  have hfile : (compactionOperand row seg offset).rawFilePath = path := htype.2
  exact ⟨⟨hop, by rwa [hfile], .inl rfl⟩, hfile⟩

/-- The entry is copied: its merge is staged and its file waits for the commit. -/
theorem MigrationOk.copy (h : MigrationOk s (.copying c key path row)) :
    MigrationOk s (.compacting { c with
      wb := c.wb ++ [(key, compactionOperand row c.seg offset)]
      dropped := dropped, pending := c.pending ++ [path] }) := by
  have hknown : Known s key row := h.knows key row (by simp)
  have hpath : rawPath row = some path := h.wf
  obtain ⟨hop, hfile⟩ : Background (compactionOperand row c.seg offset) ∧
      (compactionOperand row c.seg offset).rawFilePath = path :=
    background_compactionOperand hknown.stored.opType hpath (hknown.stored.path path hpath)
  refine ⟨?_, h.entries, by simp, h.reclaims, ?_, by simp,
    trivial⟩
  · intro k op he
    rcases List.mem_append.mp he with hold | hnew
    · exact h.staged k op hold
    · simp only [List.mem_singleton, Prod.mk.injEq] at hnew
      exact hnew.2 ▸ hop
  · intro p hp
    rcases List.mem_append.mp hp with hold | hnew
    · rcases h.pending p hold with hun | ⟨hset, k, op, hmem, hopath, honly⟩
      · exact .inl hun
      · exact .inr ⟨hset, k, op, List.mem_append_left _ hmem, hopath, honly⟩
    · obtain rfl := List.mem_singleton.mp hnew
      exact .inr ⟨hknown.settled _ hpath, key, compactionOperand row c.seg offset,
        List.mem_append_right _ (List.mem_singleton.mpr rfl), hfile, (hknown.indexed hpath).only⟩

/-- After the commit of a batch the files that waited for it are unreferenced. -/
theorem unreferenced_of_commit (h : MigrationOk s x) {migrations : List Migration} {p : String}
    (hp : p ∈ x.pending) :
    Unreferenced { s.commitBatch x.staged dropped with migrations := migrations } p := by
  have hF : Frame s { s.commitBatch x.staged dropped with migrations := migrations } none :=
    .of_commit h.staged
  rcases h.pending p hp with hun | ⟨hset, key, op, hmem, hpath, honly⟩
  · exact hF.unreferenced hun
  · refine ⟨hF.settled hset, fun k r hr hrp => ?_⟩
    obtain rfl := hF.onlyUnder hset honly k r hr hrp
    exact applyMerges_rawPath_ne h.staged s.rows hmem hr (hpath ▸ hrp)

/-- A migration commits its batch and moves on. -/
theorem Ownership.commit (hI : Ownership s) {y : Migration} (hx : MigrationOk s x)
    (hy : MigrationOk ((s.commitBatch x.staged dropped).setMigration m y) y) :
    Ownership ((s.commitBatch x.staged dropped).setMigration m y) := by
  refine hI.migrate (.of_commit hx.staged) rfl (fun z hz => mem_set hy hz) ?_ (fun _ h => .inl h)
    hI.names
  intro e he
  exact List.mem_of_mem_filter he

lemma ownership_compactCommit (hI : Ownership s)
    (hm : s.migrations[m]? = some (.copying c key path row)) :
    Ownership ((s.commitBatch c.wb c.dropped).setMigration m
      (.rolling ⟨c.seg, [], [], [], c.pending, c.entries⟩ key path row)) := by
  have hok := hI.migrationOk hm
  have hF : Frame s ((s.commitBatch c.wb c.dropped).setMigration m
      (.rolling ⟨c.seg, [], [], [], c.pending, c.entries⟩ key path row)) none :=
    .of_commit hok.staged
  refine hI.commit hok ⟨by simp, ?_, ?_, ?_, by simp,
    by simp, hok.wf⟩
  · exact fun k p he => hF.indexed (hok.entries k p he)
  · exact fun k r he => hF.known (hok.knows k r he)
  · exact fun p hp => unreferenced_of_commit hok hp

/-- The names that an acquisition may create are still free after a segment was closed. -/
theorem fresh_finalizeSegment (hfresh : s.segments seg = none → seg ≠ "" ∧ s.rawFiles seg = none) :
    (s.finalizeSegment full).segments seg = none →
      seg ≠ "" ∧ (s.finalizeSegment full).rawFiles seg = none := by
  intro hnone
  refine hfresh (Option.isNone_iff_eq_none.mp ?_)
  have hsame := s.isSome_finalizeSegment full seg
  rw [hnone] at hsame
  simpa using hsame.symm

/-- A full segment is closed and another one taken, and the migration goes on as before. -/
theorem Ownership.roll (hI : Ownership s)
    (hfresh : s.segments seg = none → seg ≠ "" ∧ s.rawFiles seg = none)
    (hs' : (s.finalizeSegment full).acquire seg = some s') (hm : s.migrations[m]? = some x) :
    Ownership s' ∧ MigrationOk s' x := by
  have hI' := (hI.finalizeSegment full).acquire (fresh_finalizeSegment hfresh) hs'
  refine ⟨hI', hI'.migrationOk (m := m) ?_⟩
  rw [State.acquire_eq hs']
  exact hm

end Compaction

/-! ## Recompaction -/

section Recompaction

variable {s : State} {m : Nat}

variable {old : String} {s' : State}

variable {seg : String} {offset : Int64} {row : ValueMessage} {r : Recompaction}

lemma ownership_recompactStart (hI : Ownership s) {oldSeg : Segment}
    (hfresh : s.segments seg = none → seg ≠ "" ∧ s.rawFiles seg = none)
    (hold : s.segments old = some oldSeg) (hs' : s.acquire seg = some s') :
    Ownership (s'.addMigration (.recompacting ⟨old, seg, [], oldSeg.entries, false⟩)) := by
  refine (hI.acquire hfresh hs').addMigration ⟨by simp,
    by simp, by simp, by simp,
    by simp, ?_, trivial⟩
  intro p hp
  obtain rfl : old = p := by simpa using hp
  rcases State.acquire_eq_some hs' with ⟨-, rfl⟩ | ⟨rfl, -⟩
  · exact State.isSome_segments_setSegment (by simp [hold])
  · simp [hold]

/-- The operand of the recompactor names the old segment. -/
theorem background_recompactionOperand {newOffset : Int64} (hop : row.opType = .none)
    (hplace : segmentPlace row = some (old, offset)) (hne : old ≠ "") :
    Background (recompactionOperand row seg newOffset) ∧
      (recompactionOperand row seg newOffset).rawFilePath = old := by
  have htype : row.valueType = .segment ∧ row.segmentPath = old ∧ row.segmentOffset = offset := by
    simpa [segmentPlace] using hplace
  have hpath : (recompactionOperand row seg newOffset).rawFilePath = old := htype.2.1
  exact ⟨⟨hop, by rwa [hpath], .inl htype.1⟩, hpath⟩

variable (hI : Ownership s)

include hI

lemma ownership_recompactCopy {entry : Entry} (hm : s.migrations[m]? = some (.moving r entry row))
    (hs' : s.writeEntry r.seg ⟨entry.key, offset, entry.data⟩ = some s') :
    Ownership (s'.setMigration m (.recompacting { r with
      wb := r.wb ++ [(entry.key, recompactionOperand row r.seg offset)] })) := by
  have hI' := hI.writeEntry hs'
  obtain ⟨seg, -, -, rfl⟩ := State.writeEntry_eq_some hs'
  have hok' := hI'.migrationOk hm
  have hknown : Known _ entry.key row := hok'.knows _ _ (by simp)
  have hne := (hI'.names r.old (hok'.empties r.old rfl)).1
  refine hI'.setMigration ⟨?_, hok'.entries, by simp, hok'.reclaims,
    by simp, hok'.empties, trivial⟩
  intro k op he
  rcases List.mem_append.mp he with hold | hnew
  · exact hok'.staged k op hold
  · simp only [List.mem_singleton, Prod.mk.injEq] at hnew
    exact hnew.2 ▸ (background_recompactionOperand hknown.stored.opType hok'.wf hne).1

lemma ownership_recompactCommit (hm : s.migrations[m]? = some (.recompacting r)) :
    Ownership ((s.commitBatch r.wb []).setMigration m
      (if r.failed then .finishing [] else .removing r.old)) := by
  have hok := hI.migrationOk hm
  refine hI.commit hok ?_
  split
  · exact migrationOk_finishing (by simp)
  · exact ⟨by simp, by simp, by simp,
      by simp, by simp, hok.empties, trivial⟩

/-- A segment is never the raw file of a row. -/
theorem Ownership.unreferenced_segment {p : String} (h : (s.segments p).isSome) :
    Unreferenced s p := by
  have hnone := (hI.names p h).2
  have hstored : ∀ row, Stored s row → rawPath row ≠ some p := by
    intro row hrow hp
    have hfile := hrow.backed p hp
    simp [hnone] at hfile
  refine ⟨⟨.inr h, ?_⟩, ?_⟩
  · exact fun i r hr => hstored r ((hI.calls i).writes r hr).stored
  · exact fun k r hr => hstored r (hI.rows k r hr).stored

lemma ownership_recompactRemove (hm : s.migrations[m]? = some (.removing old)) :
    Ownership ((s.removeSegment old).setMigration m (.finishing [old])) := by
  have hI' := hI.removeSegment old
  refine hI'.setMigration (migrationOk_finishing fun p hp => ?_)
  obtain rfl := List.mem_singleton.mp hp
  refine hI'.unreferenced_segment ?_
  rw [State.isSome_removeSegment]
  exact (hI.migrationOk hm).empties p rfl

lemma ownership_migrationMove {e : Event} (hfresh : freshNames s e = true)
    (hmove : MigrationMove s e s') : Ownership s' := by
  cases hmove with
  | idle => exact hI
  | compactStart hs' => exact ownership_compactStart hI (of_decide_eq_true hfresh) hs'
  | compactNext hm hready hx =>
    have hok := hI.migrationOk hm
    exact hI.setMigration
      (migrationOk_processed hI hready hok.tail (hok.entries _ _ List.mem_cons_self) hx)
  | compactSkip hm => exact hI.setMigration (hI.migrationOk hm).tail
  | compactCopy hm _ hs' =>
    -- Writing the entry changes nothing that the run relies on.
    have hI' := hI.writeEntry hs'
    obtain ⟨seg, -, -, rfl⟩ := State.writeEntry_eq_some hs'
    exact hI'.setMigration (hI'.migrationOk hm).copy
  | leave _ hm => exact hI.setMigration (hI.migrationOk hm).skip
  | compactCommit hm => exact ownership_compactCommit hI hm
  | compactRoll hm _ hs' | recompactRoll hm hs' =>
    obtain ⟨hI', hok⟩ := hI.roll (of_decide_eq_true hfresh) hs' hm
    exact hI'.setMigration
      ⟨hok.staged, hok.entries, hok.knows, hok.reclaims, hok.pending, hok.empties, hok.wf⟩
  | compactFinish hm =>
    have hok := hI.migrationOk hm
    exact hI.commit hok (migrationOk_finishing fun p hp => unreferenced_of_commit hok hp)
  | recompactStart hold _ hs' =>
    exact ownership_recompactStart hI (of_decide_eq_true hfresh) hold hs'
  | recompactNext hm hrow hplace =>
    have hok := hI.migrationOk hm
    refine hI.setMigration ⟨hok.staged, hok.entries, ?_, hok.reclaims, hok.pending, hok.empties,
      hplace⟩
    intro k r he
    simp only [Migration.knows, List.mem_singleton, Prod.mk.injEq] at he
    obtain ⟨rfl, rfl⟩ := he
    exact hI.rows _ _ hrow
  | recompactSkip hm =>
    have hok := hI.migrationOk hm
    exact hI.setMigration
      ⟨hok.staged, hok.entries, hok.knows, hok.reclaims, hok.pending, hok.empties, trivial⟩
  | recompactCopy hm _ hs' => exact ownership_recompactCopy hI hm hs'
  | recompactFails hm =>
    have hok := hI.migrationOk hm
    exact hI.setMigration ⟨hok.staged, hok.entries, by simp, hok.reclaims,
      hok.pending, hok.empties, trivial⟩
  | recompactCommit hm => exact ownership_recompactCommit hI hm
  | recompactRemove hm => exact ownership_recompactRemove hI hm
  | queueReady hm | queueRolling hm =>
    have hok := hI.migrationOk hm
    exact hI.queueFile ⟨hok.staged, hok.entries, hok.knows,
      fun p hp => hok.reclaims p (List.mem_cons_of_mem _ hp), hok.pending, hok.empties, hok.wf⟩
      (hok.reclaims _ List.mem_cons_self)
  | queueFinishing hm =>
    have hok := hI.migrationOk hm
    exact hI.queueFile (migrationOk_finishing fun p hp => hok.reclaims p (List.mem_cons_of_mem _ hp))
      (hok.reclaims _ List.mem_cons_self)
  | cancel => exact hI.setMigration (migrationOk_finishing (by simp))

lemma ownership_purge {key path : String} (hne : path ≠ "") :
    Ownership (s.setRow key (some (mergeRow (s.rows key) [purgeOperand path]))) := by
  -- A purge is a batch of one merge.
  have hwb : ∀ k op, (k, op) ∈ [(key, purgeOperand path)] → Background op := by
    intro k op he
    simp only [List.mem_singleton, Prod.mk.injEq] at he
    exact he.2 ▸ background_purgeOperand hne
  have hF : Frame s (s.setRow key (some (mergeRow (s.rows key) [purgeOperand path]))) none :=
    ⟨fun _ _ h => h, fun _ h => h, UInt64.le_refl _, fun _ _ h => rowFrom_applyMerges hwb h,
      fun _ _ _ h _ => .inl h, by simp⟩
  exact hI.migrate hF rfl (fun _ h => .inl h) (fun _ h => h) (fun _ h => .inl h) hI.names

end Recompaction

/-! ## Runs -/

/-- The empty store. -/
theorem ownership_init : Ownership State.init where
  rows := by simp
  calls _ := ⟨by simp, by simp,
    by simp, trivial⟩
  distinct := by simp
  migrations := by simp
  index := by simp
  queue := by simp
  names := by simp

lemma Call.of_isReading {c : Call} (h : c.isReading = true) :
    c.writes = none ∧ c.reclaims = [] ∧ c.Wf := by
  cases c
  case reclaiming paths =>
    cases paths with
    | nil => exact ⟨rfl, rfl, trivial⟩
    | cons => cases h
  all_goals first | exact ⟨rfl, rfl, trivial⟩ | cases h

variable {e : Event} {s : State}

lemma ownership_callMove {cfg : Config} {s' : State} (hI : Ownership s)
    (hfresh : freshNames s e = true) (hmove : CallMove cfg s e s') : Ownership s' := by
  cases hmove with
  | idle => exact hI
  | get => exact hI.idle fun _ h => h
  | purge hpath => exact ownership_purge hI hpath
  | unlink hmem => exact ownership_unlink hI hmem
  | look _ _ hnew hread =>
    obtain ⟨hwrites, hreclaims, hwf⟩ := Call.of_isReading hnew
    exact hI.setCall (hwrites ▸ nofun) hread (hreclaims ▸ nofun) hwf
  | remove _ _ hrows hpaths => exact hI.removeRows hrows hpaths
  | abandon _ hown => exact hI.giveUp hown
  | @putWrite i key path data expiry checksum =>
    simp only [freshNames, decide_eq_true_eq] at hfresh
    have hrow : (putRow (cfg.payload data path checksum) expiry).version = 0 ∧
        (putRow (cfg.payload data path checksum) expiry).opType = .none := by
      cases cfg.payload data path checksum <;> exact ⟨rfl, rfl⟩
    exact hI.writeRaw hfresh.1 hfresh.2.1 hfresh.2.2 (UInt64.le_refl _) rfl (carries_putRow _ _)
      hrow.2 (.inl hrow.1) (by simp [hrow.1]) rfl rfl trivial
  | putRead hc =>
    exact hI.setCall (by simp [hc]) (fun k r he => .inr (rows_of_mem_read he))
      (by simp) trivial
  | putCommit hc => exact ownership_putCommit hI hc
  | casPutWrite _ hstamp =>
    simp only [freshNames, decide_eq_true_eq] at hfresh
    exact hI.writeRaw hfresh.1 hfresh.2.1 hfresh.2.2 (UInt64.le_of_lt hstamp) rfl
      (carries_casResult _ _ _ _) casResult_opType (.inr (by simpa using hstamp)) (by simp) rfl rfl
      ⟨casPutOperand_opType .., by simpa using ne_zero_of_lt hstamp⟩
  | casPutRefresh hc => exact ownership_casPutRefresh hI hc _
  | casDeleteRead =>
    exact hI.setCall (by simp) (fun k r he => .inr (rows_of_mem_read he))
      (by simp) trivial
  | casDeleteStamp hc hstamp => exact ownership_casDeleteStamp hI hc hstamp
  | casMerge hc => exact ownership_casMerge hI hc
  | casWon hc hwon hput => exact ownership_casWon hI hc hwon hput
  | casDeleted hc hwon =>
    exact hI.reclaims_of_unreferenced fun p hp => hI.unreferenced_of_won hc hwon hp
  | casLost hc hlost =>
    exact hI.reclaims_of_unreferenced fun p hp => hI.unreferenced_of_lost hc hlost hp
  | casFinish hc => exact ownership_casFinish hI hc
  | @casFinishFails i key operand replaced hc =>
    exact hI.reclaims_of_unreferenced fun p hp => (hI.calls i).reclaims p (by rw [hc]; exact hp)
  | reclaim hc => exact ownership_reclaim hI hc

/-- Every step keeps the invariant. -/
theorem ownership_step (cfg : Config) (hI : Ownership s) (hfresh : freshNames s e = true) :
    Ownership (step cfg s e) := by
  rcases move_step cfg s e with hmove | hmove
  · exact ownership_callMove hI hfresh hmove
  · exact ownership_migrationMove hI hfresh hmove

end OCache.Store
