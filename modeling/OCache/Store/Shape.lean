import OCache.Store.Moves

/-!
# The shape of stored rows

Operands use the fields of a row for their preconditions: a migration carries the path it moves a
value away from as its raw file path, a compare-and-swap carries the version it expects. None of
this reaches a stored row, whatever row an operand meets: rows with a raw file path are the rows of
raw files, rows with a segment path are the rows in segments, and a tombstone has neither.

Nothing is assumed about the rows that stale operands were built from except that they were stored
at some time, so names may be reused here.
-/

namespace OCache.Store

open Merge EventSystem

/-! ## Rows and operands -/

/-- The shape of a stored row. -/
structure Shaped (row : ValueMessage) : Prop where
  raw : row.rawFilePath ≠ "" ↔ row.valueType = .rawFile
  segment : row.segmentPath ≠ "" ↔ row.valueType = .segment
  opType : row.opType = .none
  casExpectedVersion : row.casExpectedVersion = 0
  tombstone : row.expiry = tombstoneExpiry →
    row.rawFilePath = "" ∧ row.segmentPath = "" ∧ row.valueLength = 0

/-- What holds of the operands of migrations and purges. -/
structure ShapedOperand (op : ValueMessage) : Prop where
  background : Background op
  target : op.valueType = .segment → op.segmentPath ≠ "" ∧ op.expiry ≠ tombstoneExpiry

section Rows

variable {row op : ValueMessage}

lemma shaped_tombstone (version : UInt64) : Shaped (tombstone version) where
  raw := by simp [Merge.tombstone]
  segment := by simp [Merge.tombstone]
  opType := rfl
  casExpectedVersion := rfl
  tombstone := fun _ => ⟨rfl, rfl, rfl⟩

/-- A row with a value in a file is no tombstone. -/
theorem Shaped.live (h : Shaped row) (hfile : row.valueType = .rawFile ∨ row.valueType = .segment) :
    row.expiry ≠ tombstoneExpiry := by
  intro hexpiry
  obtain ⟨hraw, hseg, -⟩ := h.tombstone hexpiry
  rcases hfile with htype | htype
  · exact h.raw.mpr htype hraw
  · exact h.segment.mpr htype hseg

lemma shaped_putRow {payload : Payload} {expiry : Int64} (hexpiry : expiry ≠ tombstoneExpiry)
    (hpath : ∀ path length checksum, payload = .rawFile path length checksum → path ≠ "") :
    Shaped (putRow payload expiry) := by
  cases payload with
  | inline data => exact ⟨by simp [putRow], by simp [putRow], rfl, rfl, fun h => absurd h hexpiry⟩
  | rawFile path length checksum =>
    have hne := hpath path length checksum rfl
    exact ⟨by simp [putRow, hne], by simp [putRow], rfl, rfl, fun h => absurd h hexpiry⟩

lemma shaped_casPut {payload : Payload} {expiry : Int64} {stamp expected : UInt64}
    (hexpiry : expiry ≠ tombstoneExpiry)
    (hpath : ∀ path length checksum, payload = .rawFile path length checksum → path ≠ "") :
    Shaped (casResult (casPutOperand payload expiry stamp expected)) := by
  cases payload with
  | inline data =>
    exact ⟨by simp [casResult, adopt, casPutOperand], by simp [casResult, adopt, casPutOperand], rfl,
      rfl, fun h => absurd h hexpiry⟩
  | rawFile path length checksum =>
    have hne := hpath path length checksum rfl
    exact ⟨by simp [casResult, adopt, casPutOperand, hne], by simp [casResult, adopt, casPutOperand],
      rfl, rfl, fun h => absurd h hexpiry⟩

lemma Config.payload_path_ne {cfg : Config} {data : List UInt8} {path : String}
    {checksum : UInt32} (h : path ≠ "") (p : String) (length : Int64) (sum : UInt32)
    (hp : cfg.payload data path checksum = .rawFile p length sum) : p ≠ "" := by
  unfold Config.payload at hp
  split at hp
  · simp at hp
  · simp only [Payload.rawFile.injEq] at hp
    exact hp.1 ▸ h

lemma shapedOperand_purge {path : String} (h : path ≠ "") : ShapedOperand (purgeOperand path) :=
  ⟨background_purgeOperand h, by simp [purgeOperand]⟩

lemma shapedOperand_compaction (h : Shaped row) (htype : row.valueType = .rawFile) {seg : String}
    (hseg : seg ≠ "") (offset : Int64) : ShapedOperand (compactionOperand row seg offset) where
  background := ⟨h.opType, h.raw.mpr htype, .inl rfl⟩
  target _ := ⟨hseg, h.live (.inl htype)⟩

lemma shapedOperand_recompaction (h : Shaped row) (htype : row.valueType = .segment) {seg : String}
    (hseg : seg ≠ "") (offset : Int64) : ShapedOperand (recompactionOperand row seg offset) where
  background := ⟨h.opType, h.segment.mpr htype, .inl htype⟩
  target _ := ⟨hseg, h.live (.inr htype)⟩

/-- A background operand leaves a shaped row, whatever row it meets. -/
theorem shaped_mergeRow_background (hop : ShapedOperand op) {row : Option ValueMessage}
    (hrow : ∀ r, row = some r → Shaped r) : Shaped (mergeRow row [op]) := by
  rcases mergeRow_background hop.background row with htomb | hkept | ⟨htype, base, -, -, hmoved⟩
  · rw [htomb]
    exact shaped_tombstone 0
  · exact hrow _ hkept
  · -- The precondition stays behind: a migrated row has no raw file path.
    obtain ⟨hpath, hexpiry⟩ := hop.target htype
    rw [hmoved]
    exact ⟨by simp [migrated, htype], by simp [migrated, htype, hpath], rfl, rfl,
      fun h => absurd h hexpiry⟩

lemma shaped_mergeRow_cas (hop : isCas op = true) (hresult : Shaped (casResult op))
    {row : Option ValueMessage} (hrow : ∀ r, row = some r → Shaped r) :
    Shaped (mergeRow row [op]) := by
  rw [mergeRow_cas hop]
  split
  · exact hresult
  · cases hbase : baseOf row with
    | none => exact shaped_tombstone 0
    | some base => exact hrow base (eq_some_of_baseOf hbase)

lemma shaped_applyMerges {wb : List (String × ValueMessage)}
    (hwb : ∀ key op, (key, op) ∈ wb → ShapedOperand op) (rows : String → Option ValueMessage)
    (hrows : ∀ key row, rows key = some row → Shaped row) (key : String) (row : ValueMessage)
    (h : applyMerges rows wb key = some row) : Shaped row := by
  induction wb generalizing rows with
  | nil => exact hrows key row h
  | cons e wb ih =>
    obtain ⟨k, op⟩ := e
    rw [applyMerges_cons] at h
    refine ih (fun k' op' h' => hwb k' op' (List.mem_cons_of_mem _ h')) _ (fun k' r hr => ?_) h
    by_cases hk : k' = k
    · subst hk
      rw [Function.update_self, Option.some.injEq] at hr
      exact hr ▸ shaped_mergeRow_background (hwb k' op List.mem_cons_self) (hrows k')
    · rw [Function.update_of_ne hk] at hr
      exact hrows k' r hr

end Rows

/-! ## The invariant -/

/-- What a call is about to write has the shape. -/
def Call.Shaped : Call → Prop
  | putWritten _ row | putRead _ row _ => Store.Shaped row
  | casPutWritten _ operand => operand.opType = .casPut ∧ Store.Shaped (casResult operand)
  | casMerging _ operand _ => isCas operand = true ∧ Store.Shaped (casResult operand)
  | _ => True

/-- What holds of the merges a migration has staged, the segment it writes to and the row it works
on. -/
def Migration.Shaped : Migration → Prop
  | compacting c => c.seg ≠ "" ∧ ∀ key op, (key, op) ∈ c.wb → ShapedOperand op
  | copying c _ _ row | rolling c _ _ row =>
    (c.seg ≠ "" ∧ ∀ key op, (key, op) ∈ c.wb → ShapedOperand op) ∧
      Store.Shaped row ∧ row.valueType = .rawFile
  | recompacting r => r.seg ≠ "" ∧ ∀ key op, (key, op) ∈ r.wb → ShapedOperand op
  | moving r _ row =>
    (r.seg ≠ "" ∧ ∀ key op, (key, op) ∈ r.wb → ShapedOperand op) ∧
      Store.Shaped row ∧ row.valueType = .segment
  | _ => True

/-- Everything that is stored or will be has the shape. -/
structure AllShaped (s : State) : Prop where
  rows : ∀ key row, s.rows key = some row → Shaped row
  calls : ∀ i, (s.calls i).Shaped
  migrations : ∀ x ∈ s.migrations, x.Shaped

namespace AllShaped

variable {s s' : State} {i m : Nat}

variable (h : AllShaped s)

include h

lemma of_eq (hrows : s'.rows = s.rows) (hcalls : s'.calls = s.calls)
    (hmigrations : s'.migrations = s.migrations) : AllShaped s' :=
  ⟨hrows ▸ h.rows, hcalls ▸ h.calls, hmigrations ▸ h.migrations⟩

/-- A call moves on, and rows and migrations stay. -/
theorem of_call {c : Call} (hcalls : s'.calls = Function.update s.calls i c)
    (hrows : s'.rows = s.rows) (hmigrations : s'.migrations = s.migrations) (hc : c.Shaped) :
    AllShaped s' := by
  refine ⟨hrows ▸ h.rows, fun j => ?_, hmigrations ▸ h.migrations⟩
  rw [hcalls]
  rcases eq_or_ne j i with rfl | hj
  · rwa [Function.update_self]
  · rw [Function.update_of_ne hj]
    exact h.calls j

lemma setCall {c : Call} (hc : c.Shaped) : AllShaped (s.setCall i c) :=
  h.of_call rfl rfl rfl hc

lemma setRow {key : String} {row : Option ValueMessage} (hrow : ∀ r, row = some r → Shaped r) :
    AllShaped (s.setRow key row) := by
  refine ⟨fun k r hr => ?_, h.calls, h.migrations⟩
  by_cases hk : k = key
  · subst hk
    exact hrow r (by simpa using hr)
  · exact h.rows k r (by simpa [hk] using hr)

lemma setMigration {x : Migration} (hx : x.Shaped) : AllShaped (s.setMigration m x) := by
  refine ⟨h.rows, h.calls, fun y hy => ?_⟩
  rcases List.mem_or_eq_of_mem_set hy with hold | rfl
  · exact h.migrations y hold
  · exact hx

lemma addMigration {x : Migration} (hx : x.Shaped) : AllShaped (s.addMigration x) := by
  refine ⟨h.rows, h.calls, fun y hy => ?_⟩
  rcases List.mem_append.mp hy with hold | hnew
  · exact h.migrations y hold
  · exact List.mem_singleton.mp hnew ▸ hx

lemma acquire {path : String} (hs' : s.acquire path = some s') : AllShaped s' := by
  have heq := State.acquire_eq hs'
  exact h.of_eq (by rw [heq]) (by rw [heq]) (by rw [heq])

lemma writeEntry {path : String} {entry : Entry} (hs' : s.writeEntry path entry = some s') :
    AllShaped s' := by
  have heq := State.writeEntry_eq hs'
  exact h.of_eq (by rw [heq]) (by rw [heq]) (by rw [heq])

lemma commitBatch {wb : List (String × ValueMessage)} {dropped : List (String × String)}
    (hwb : ∀ key op, (key, op) ∈ wb → ShapedOperand op) : AllShaped (s.commitBatch wb dropped) :=
  ⟨shaped_applyMerges hwb s.rows h.rows, h.calls, h.migrations⟩

lemma migration {x : Migration} (hx : s.migrations[m]? = some x) : x.Shaped :=
  h.migrations x (List.mem_of_getElem? hx)

/-- The call is where the match has found it. -/
theorem call {c : Call} (hc : s.calls i = c) : c.Shaped := hc ▸ h.calls i

end AllShaped

/-! ## Steps -/

/-- Files and segments have names, and no put asks for the expiry that marks a tombstone. -/
def wellNamed : Event → Bool
  | .putWrite _ _ _ expiry path _ | .casPutWrite _ _ _ expiry path _ =>
    path ≠ "" ∧ expiry ≠ tombstoneExpiry
  | .compactStart seg | .compactRoll _ seg | .recompactStart _ seg | .recompactRoll _ seg => seg ≠ ""
  | _ => true

section Steps

variable {cfg : Config} {s s' : State} {e : Event}

lemma shapedOperand_purgeDanglingMeta {key path k : String} {op : ValueMessage}
    (h : (k, op) ∈ purgeDanglingMeta s key path) : ShapedOperand op := by
  unfold purgeDanglingMeta at h
  split at h
  · rename_i hguard
    simp only [List.mem_singleton, Prod.mk.injEq] at h
    exact h.2 ▸ shapedOperand_purge hguard.1
  · simp at h

lemma Call.shaped_of_isReading {c : Call} (h : c.isReading = true) : c.Shaped := by
  cases c
  case putWritten | putRead | casPutWritten | casMerging => cases h
  all_goals trivial

lemma shaped_callMove (h : AllShaped s) (hok : wellNamed e = true) (hmove : CallMove cfg s e s') :
    AllShaped s' := by
  cases hmove with
  | idle => exact h
  | get | unlink => exact h.of_eq rfl rfl rfl
  | purge hpath =>
    refine h.setRow fun r hr => ?_
    obtain rfl := Option.some.inj hr
    exact shaped_mergeRow_background (shapedOperand_purge hpath) (h.rows _)
  | look _ _ hnew => exact h.setCall (Call.shaped_of_isReading hnew)
  | @remove i rows paths _ _ hrows =>
    have hrest : AllShaped { s with rows := rows } :=
      ⟨fun key row hrow => h.rows key row (hrows key row hrow), h.calls, h.migrations⟩
    exact hrest.setCall trivial
  | abandon | casWon | casDeleted | casLost | casFinishFails | casDeleteRead => exact h.setCall trivial
  | putWrite =>
    obtain ⟨hpath, hexpiry⟩ := of_decide_eq_true hok
    exact h.of_call rfl rfl rfl (shaped_putRow hexpiry (Config.payload_path_ne hpath))
  | putRead hc =>
    have hrow := h.call hc
    exact h.setCall hrow
  | @putCommit i key row prev hc =>
    have hset : AllShaped (s.setRow key (some row)) :=
      h.setRow fun r hr => Option.some.inj hr ▸ h.call hc
    exact hset.of_call rfl rfl rfl trivial
  | casPutWrite =>
    obtain ⟨hpath, hexpiry⟩ := of_decide_eq_true hok
    exact h.of_call rfl rfl rfl
      ⟨casPutOperand_opType .., shaped_casPut hexpiry (Config.payload_path_ne hpath)⟩
  | casPutRefresh hc =>
    -- The expected version is no part of the row that the operand leaves.
    obtain ⟨hput, hresult⟩ := h.call hc
    refine h.setCall ⟨by simp [isCas, hput], ?_⟩
    simpa [casResult, hput, adopt] using hresult
  | casDeleteStamp =>
    refine h.of_call rfl rfl rfl ⟨by simp [isCas], ?_⟩
    rw [casResult_of_casDelete rfl]
    exact shaped_tombstone _
  | casMerge hc =>
    obtain ⟨hcas, hresult⟩ := h.call hc
    refine (h.setRow fun r hr => ?_).setCall trivial
    obtain rfl := Option.some.inj hr
    exact shaped_mergeRow_cas hcas hresult (h.rows _)
  | casFinish | reclaim => exact h.of_call rfl rfl rfl trivial

/-- One more operand in the batch. -/
theorem shaped_append {wb added : List (String × ValueMessage)}
    (h : ∀ key op, (key, op) ∈ wb → ShapedOperand op)
    (hadded : ∀ key op, (key, op) ∈ added → ShapedOperand op) (key : String) (op : ValueMessage)
    (he : (key, op) ∈ wb ++ added) : ShapedOperand op := by
  rcases List.mem_append.mp he with hold | hnew
  · exact h key op hold
  · exact hadded key op hnew

lemma shaped_processed (h : AllShaped s) {c : Compaction} (hc : (Migration.compacting c).Shaped)
    {key path : String} {x : Migration} (hx : Processed s c key path x) : x.Shaped := by
  cases hx with
  | stale | moved => exact hc
  | short | missing =>
    exact ⟨hc.1, shaped_append hc.2 fun _ _ => shapedOperand_purgeDanglingMeta⟩
  | copying hrow hpath =>
    refine ⟨hc, h.rows key _ hrow, ?_⟩
    by_contra htype
    simp [rawPath, htype] at hpath

lemma shaped_migrationMove (h : AllShaped s) (hok : wellNamed e = true)
    (hmove : MigrationMove s e s') : AllShaped s' := by
  cases hmove with
  | idle => exact h
  | compactStart hs' | recompactStart _ _ hs' =>
    exact (h.acquire hs').addMigration ⟨of_decide_eq_true hok, by simp⟩
  | compactNext hm _ hx =>
    have hc := h.migration hm
    refine h.setMigration (shaped_processed h ?_ hx)
    exact hc
  | compactSkip hm | recompactSkip hm =>
    have hx := h.migration hm
    exact h.setMigration hx
  | @compactCopy m c key path row offset s' hm _ hs' =>
    obtain ⟨hc, hrow, htype⟩ := h.migration hm
    refine (h.writeEntry hs').setMigration ⟨hc.1, shaped_append hc.2 fun k op hnew => ?_⟩
    simp only [List.mem_singleton, Prod.mk.injEq] at hnew
    exact hnew.2 ▸ shapedOperand_compaction hrow htype hc.1 offset
  | leave _ hm => exact h.setMigration (h.migration hm).1
  | compactCommit hm =>
    obtain ⟨hc, hrow⟩ := h.migration hm
    exact (h.commitBatch hc.2).setMigration ⟨⟨hc.1, by simp⟩, hrow⟩
  | @compactRoll m c _ _ _ _ _ hm _ hs' =>
    obtain ⟨hc, hrow⟩ := h.migration hm
    have hfinal : AllShaped (s.finalizeSegment c.seg) := h.of_eq rfl rfl rfl
    exact (hfinal.acquire hs').setMigration ⟨⟨of_decide_eq_true hok, hc.2⟩, hrow⟩
  | compactFinish hm => exact (h.commitBatch (h.migration hm).2).setMigration trivial
  | @recompactNext m r entry row hm hrow hplace =>
    have hr := h.migration hm
    refine h.setMigration ⟨hr, h.rows _ row hrow, ?_⟩
    by_contra htype
    simp [segmentPlace, htype] at hplace
  | @recompactRoll m r _ _ _ _ hm hs' =>
    obtain ⟨hr, hrow⟩ := h.migration hm
    have hfinal : AllShaped (s.finalizeSegment r.seg) := h.of_eq rfl rfl rfl
    exact (hfinal.acquire hs').setMigration ⟨⟨of_decide_eq_true hok, hr.2⟩, hrow⟩
  | @recompactCopy m r entry row offset s' hm _ hs' =>
    obtain ⟨hr, hrow, htype⟩ := h.migration hm
    refine (h.writeEntry hs').setMigration ⟨hr.1, shaped_append hr.2 fun k op hnew => ?_⟩
    simp only [List.mem_singleton, Prod.mk.injEq] at hnew
    exact hnew.2 ▸ shapedOperand_recompaction hrow htype hr.1 offset
  | recompactFails hm => exact h.setMigration (h.migration hm).1
  | recompactCommit hm =>
    refine (h.commitBatch (h.migration hm).2).setMigration ?_
    split <;> trivial
  | @recompactRemove m old =>
    have hremove : AllShaped (s.removeSegment old) := h.of_eq rfl rfl rfl
    exact hremove.setMigration trivial
  | @queueReady m c path hm | @queueRolling m c key file path row hm =>
    have hqueue : AllShaped (s.queue path) := h.of_eq rfl rfl rfl
    have hx := h.migration hm
    exact hqueue.setMigration hx
  | @queueFinishing m path =>
    have hqueue : AllShaped (s.queue path) := h.of_eq rfl rfl rfl
    exact hqueue.setMigration trivial
  | cancel => exact h.setMigration trivial

end Steps

/-! ## Runs -/

lemma shaped_init : AllShaped State.init where
  rows _ _ h := by simp at h
  calls _ := trivial
  migrations _ h := by simp at h

lemma shaped_step (cfg : Config) {s : State} {e : Event} (h : AllShaped s)
    (hok : wellNamed e = true) : AllShaped (step cfg s e) := by
  rcases move_step cfg s e with hmove | hmove
  · exact shaped_callMove h hok hmove
  · exact shaped_migrationMove h hok hmove

/-- Every row of every reachable state has the shape. -/
theorem rows_shaped (cfg : Config) (es : List Event)
    (h : RunOk (step cfg) (fun _ e => wellNamed e = true) State.init es) (key : String)
    (row : ValueMessage) (hrow : (run (step cfg) State.init es).rows key = some row) :
    Shaped row := by
  have hI : AllShaped (run (step cfg) State.init es) :=
    invariant_run (I := AllShaped) (fun _ _ hI hok => shaped_step cfg hI hok) shaped_init h
  exact hI.rows key row hrow

/-- A value is compacted, moved on by the recompactor and purged by a `Get` that remembers its old
raw file, while another key is deleted under a stamp. -/
def shapeRun : List Event :=
  [.putWrite 0 "a" [1, 2] 0 "r0" 0, .putRead 0, .putCommit 0 true,
    .casPutRead 1 "b" 5 0, .casPutWrite 1 7 [3, 4] 0 "r1" 0, .casPutRefresh 1 5, .casMerge 1 true,
    .casReadBack 1, .casFinish 1 true,
    .compactStart "s0", .compactNext 0, .compactCopy 0 0, .compactNext 0,
    .compactCommit 0 true, .migrationQueue 0, .compactRoll 0 "s1",
    .casDeleteRead 2 "b" 5 7, .casDeleteStamp 2 8, .casMerge 2 true,
    .compactCopy 0 0, .compactFinish 0 true,
    .recompactStart "s0" "s2", .recompactNext 1, .recompactCopy 1 0, .recompactCommit 1 true,
    .purge "a" "r0"]

theorem rows_shaped_shapeRun :
    ∃ row, (run (step ⟨1, 4⟩) State.init shapeRun).rows "a" = some row ∧
      segmentPlace row = some ("s2", 0) ∧ Shaped row := by
  have hok : RunOk (step ⟨1, 4⟩) (fun _ e => wellNamed e = true) State.init shapeRun := by
    decide +kernel
  have hplace : ((run (step ⟨1, 4⟩) State.init shapeRun).rows "a").bind segmentPlace =
      some ("s2", 0) := by decide +kernel
  obtain ⟨row, hrow, hplace⟩ := Option.bind_eq_some_iff.mp hplace
  exact ⟨row, hrow, hplace, rows_shaped ⟨1, 4⟩ shapeRun hok "a" row hrow⟩

end OCache.Store
