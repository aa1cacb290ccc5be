import OCache.Store.Coverage

/-!
# What the compactor hands over

A run of the compactor is responsible for the files it takes off their rows: from the commit on
until it has queued them. Before the commit it may give up at any time, and the index rows that it
was about to delete stay. So a step of a migration is one of four: it does nothing, starts a
migration, moves one on, or commits its batch (`Moved`), and what moves on keeps what it is
responsible for (`Successor`).
-/

namespace OCache.Store

open Merge Cas

/-- The file is in the deletion queue, or the queue has removed it. -/
def Queued (s : State) (path : String) : Prop := path ∈ s.queued ∨ path ∈ s.unlinked

/-- The files that a migration queues come what may: its commit has taken them off their rows. -/
@[simp] def Migration.handsOver : Migration → List String
  | .rolling c .. => c.ready
  | .finishing ready => ready
  | _ => []

/-- The compactor drops the index row at hand because the row of its key is in a segment. -/
def forfeits (s : State) (key path : String) : Store.Event → Bool
  | .compactNext m =>
    match s.migrations[m]? with
    | some (.compacting c) => c.ready = [] ∧ c.entries.head? = some (key, path) ∧
        s.hasFile path = true ∧ (s.rows key).any (·.valueType = .segment) = true
    | _ => false
  | _ => false

/-- Before the copy of an entry nothing is left to queue. -/
def Migration.Cleared : Migration → Prop
  | .copying c .. => c.ready = []
  | _ => True

/-- Where the operands of a batch come from: a purge of a file that is gone, a copy whose file waits
for the commit, a copy from another segment. -/
def StagedOk (s : State) (x : Migration) : Prop :=
  ∀ key op, (key, op) ∈ x.staged →
    (op.valueType = .rawFile ∧ Queued s op.rawFilePath) ∨
      (op.valueType = .segment ∧ (op.rawFilePath ∈ x.pending ∨ (s.segments op.rawFilePath).isSome))

/-- What a migration takes with it from one position to the next. -/
structure Successor (s : State) (e : Store.Event) (queued : List String) (x y : Migration) : Prop where
  staged : ∀ key op, (key, op) ∈ y.staged → (key, op) ∈ x.staged ∨
    (op.valueType = .rawFile ∧ Queued s op.rawFilePath) ∨
      (op.valueType = .segment ∧ (op.rawFilePath ∈ y.pending ∨ (s.segments op.rawFilePath).isSome))
  pending : (∀ p ∈ x.pending, p ∈ y.pending) ∨ (y.staged = [] ∧ y.drops = [])
  drops : ∀ key p, (key, p) ∈ y.drops → (key, p) ∈ x.drops ∨ p ∈ y.pending ∨ Queued s p ∨
    p ∈ y.reclaims ∨ forfeits s key p e = true
  reclaims : (∀ p ∈ x.reclaims, p ∈ y.reclaims ∨ p ∈ queued) ∨ y.drops = []
  handsOver : ∀ p ∈ x.handsOver, p ∈ y.handsOver ∨ p ∈ queued
  cleared : y.Cleared

/-- What a step of the compactor or the recompactor can do. -/
inductive Moved (s : State) (e : Store.Event) : State → Prop
  | idle : Moved s e s
  | start (segments : String → Option Segment) (x : Migration)
      (hsegments : ∀ p, (s.segments p).isSome → (segments p).isSome) (hstaged : x.staged = [])
      (hdrops : x.drops = []) (hcleared : x.Cleared) :
      Moved s e { s with segments := segments, migrations := s.migrations ++ [x] }
  | move (m : Nat) (x y : Migration) (segments : String → Option Segment) (queued : List String)
      (hm : s.migrations[m]? = some x)
      (hsegments : ∀ p, (s.segments p).isSome → (segments p).isSome)
      (hqueued : ∀ p ∈ s.queued, p ∈ queued) (h : Successor s e queued x y) :
      Moved s e { s with segments := segments, queued := queued, migrations := s.migrations.set m y }
  | commit (m : Nat) (x y : Migration) (dropped : List (String × String))
      (hm : s.migrations[m]? = some x) (hdropped : ∀ d ∈ dropped, d ∈ x.drops)
      (hhands : x.handsOver = []) (hready : x.Cleared → x.reclaims = []) (hstaged : y.staged = [])
      (hdrops : y.drops = [])
      (hpending : ∀ p ∈ x.pending, p ∈ y.handsOver) (hcleared : y.Cleared) :
      Moved s e ((s.commitBatch x.staged dropped).setMigration m y)

section Moved

variable {s : State} {e : Store.Event} {m : Nat}

variable {x y : Migration} {path key : String} {s' : State} {c : Compaction}

lemma Successor.setMigration (hm : s.migrations[m]? = some x) (h : Successor s e s.queued x y) :
    Moved s e (s.setMigration m y) :=
  .move m x y s.segments s.queued hm (fun _ hp => hp) (fun _ hp => hp) h

lemma moved_start (h : s.acquire path = some s') (hstaged : x.staged = []) (hdrops : x.drops = [])
    (hcleared : x.Cleared) : Moved s e (s'.addMigration x) := by
  have hmono : ∀ p, (s.segments p).isSome → (s'.segments p).isSome := by
    rcases State.acquire_eq_some h with ⟨-, rfl⟩ | ⟨rfl, -⟩
    · exact fun p hp => State.isSome_segments_setSegment hp
    · exact fun _ hp => hp
  rw [State.acquire_eq h]
  exact .start s'.segments x hmono hstaged hdrops hcleared

variable {ready : List String} {entry : Entry} {data : List UInt8} {offset : Int64}
  {row : ValueMessage}

/-- An index row is dropped, and purges of files that are gone are added to the batch. -/
theorem successor_drop (entries : List (String × String)) {wb : List (String × ValueMessage)}
    (hready : c.ready = [])
    (hwb : ∀ k op, (k, op) ∈ wb → op.valueType = .rawFile ∧ Queued s op.rawFilePath)
    (hdrop : Queued s path ∨ path ∈ ready ∨ forfeits s key path e = true) :
    Successor s e s.queued (.compacting { c with entries := entries })
      (.compacting { c with
        wb := c.wb ++ wb, dropped := c.dropped ++ [(key, path)], ready := ready }) where
  staged k op hmem := by
    rcases List.mem_append.mp hmem with hold | hnew
    · exact .inl hold
    · exact .inr (.inl (hwb k op hnew))
  pending := .inl fun _ hp => hp
  drops k p hmem := by
    rcases List.mem_append.mp hmem with hold | hnew
    · exact .inl hold
    · obtain ⟨rfl, rfl⟩ : k = key ∧ p = path := by simpa using hnew
      exact .inr (.inr hdrop)
  reclaims := .inl fun p hp => by simp [hready] at hp
  handsOver := by simp
  cleared := trivial

lemma queued_purgeDanglingMeta {k : String} {op : ValueMessage} (hqueued : Queued s path)
    (h : (k, op) ∈ purgeDanglingMeta s key path) :
    op.valueType = .rawFile ∧ Queued s op.rawFilePath := by
  unfold purgeDanglingMeta at h
  split at h
  · simp only [List.mem_singleton, Prod.mk.injEq] at h
    exact h.2 ▸ ⟨rfl, hqueued⟩
  · simp at h

lemma successor_processed (hI : Ownership s) (entries : List (String × String))
    (hready : c.ready = []) (hentry : Indexed s key path)
    (hforfeits : ∀ row, s.hasFile path = true → s.rows key = some row → row.valueType = .segment →
      forfeits s key path e = true) (hx : Processed s c key path x) :
    Successor s e s.queued (.compacting { c with entries := entries }) x := by
  have hdrop : ∀ ready, path ∈ ready ∨ forfeits s key path e = true →
      Successor s e s.queued (.compacting { c with entries := entries })
        (.compacting { c with dropped := c.dropped ++ [(key, path)], ready := ready }) := by
    intro ready h
    have hnone : ∀ k op, (k, op) ∈ ([] : List (String × ValueMessage)) →
        op.valueType = .rawFile ∧ Queued s op.rawFilePath := by simp
    simpa using successor_drop entries hready hnone (.inr h)
  cases hx with
  | stale => exact hdrop [path] (.inl (by simp))
  | moved hfile hrow hsegment => exact hdrop c.ready (.inr (hforfeits _ hfile hrow hsegment))
  | short hrow hpath hlength =>
    -- A row says how long its file is.
    exact absurd ((hI.rows key _ hrow).stored.backed path hpath) hlength
  | copying =>
    exact ⟨fun _ _ h => .inl h, .inl fun _ h => h, fun _ _ h => .inl h, .inl fun _ h => .inl h,
      by simp, hready⟩
  | missing hfile =>
    have hqueued : Queued s path := .inr (by simpa [State.hasFile, hentry.file] using hfile)
    exact successor_drop entries hready (fun _ _ h => queued_purgeDanglingMeta hqueued h) (.inl hqueued)

/-- A position that keeps the batch and has nothing to queue. -/
theorem Successor.keep (hstaged : y.staged = x.staged) (hpending : y.pending = x.pending)
    (hdrops : y.drops = x.drops) (hreclaims : y.reclaims = x.reclaims) (hhands : x.handsOver = [])
    (hcleared : y.Cleared) : Successor s e s.queued x y where
  staged _ _ h := .inl (hstaged ▸ h)
  pending := .inl fun _ h => hpending ▸ h
  drops _ _ h := .inl (hdrops ▸ h)
  reclaims := .inl fun _ h => .inl (hreclaims ▸ h)
  handsOver := hhands ▸ nofun
  cleared := hcleared

/-- A position behind a batch that is dropped. -/
theorem Successor.cancel (hhands : x.handsOver = []) (hstaged : y.staged = [])
    (hdrops : y.drops = []) (hcleared : y.Cleared) : Successor s e s.queued x y where
  staged := hstaged ▸ nofun
  pending := .inr ⟨hstaged, hdrops⟩
  drops := by simp [hdrops]
  reclaims := .inr hdrops
  handsOver := hhands ▸ nofun
  cleared := hcleared

lemma moved_writeEntry (hs' : s.writeEntry path entry = some s') (hm : s.migrations[m]? = some x)
    (h : Successor s e s.queued x y) : Moved s e (s'.setMigration m y) := by
  obtain ⟨seg, hseg, -, rfl⟩ := State.writeEntry_eq_some hs'
  exact .move m x y _ s.queued hm (fun p hp => State.isSome_segments_setSegment hp) (fun _ hp => hp) h

lemma moved_compactCopy (hI : Ownership s)
    (hm : s.migrations[m]? = some (.copying c key path row))
    (hs' : s.writeEntry c.seg ⟨key, offset, data⟩ = some s') :
    Moved s e (s'.setMigration m (.compacting { c with
      wb := c.wb ++ [(key, compactionOperand row c.seg offset)]
      dropped := c.dropped ++ [(key, path)]
      pending := c.pending ++ [path] })) := by
  have hpath : rawPath row = some path := (hI.migrationOk hm).wf
  have hfile : row.valueType = .rawFile ∧ row.rawFilePath = path := by simpa [rawPath] using hpath
  refine moved_writeEntry hs' hm ⟨?_, .inl fun _ h => List.mem_append_left _ h, ?_,
    .inl fun _ h => .inl h, by simp, trivial⟩
  · -- The operand names the file that was copied, and the file waits to be handed over.
    intro k op hmem
    rcases List.mem_append.mp hmem with hold | hnew
    · exact .inl hold
    · obtain ⟨-, rfl⟩ : k = key ∧ op = compactionOperand row c.seg offset := by simpa using hnew
      exact .inr (.inr ⟨rfl, .inl (by simp [compactionOperand, hfile.2])⟩)
  · intro k p hmem
    rcases List.mem_append.mp hmem with hold | hnew
    · exact .inl hold
    · obtain ⟨-, rfl⟩ : k = key ∧ p = path := by simpa using hnew
      exact .inr (.inl (by simp))

lemma moved_acquire {full : String} (hs' : (s.finalizeSegment full).acquire path = some s')
    (hm : s.migrations[m]? = some x) (h : Successor s e s.queued x y) :
    Moved s e (s'.setMigration m y) := by
  have hmono : ∀ p, (s.segments p).isSome → (s'.segments p).isSome := by
    intro p hp
    have hp' : ((s.finalizeSegment full).segments p).isSome := by rwa [s.isSome_finalizeSegment full p]
    rcases State.acquire_eq_some hs' with ⟨-, rfl⟩ | ⟨rfl, -⟩
    · exact State.isSome_segments_setSegment hp'
    · exact hp'
  rw [State.acquire_eq hs']
  exact .move m x y s'.segments s.queued hm hmono (fun _ hp => hp) h

lemma moved_recompactCopy (hI : Ownership s) {r : Recompaction}
    (hm : s.migrations[m]? = some (.moving r entry row))
    (hs' : s.writeEntry r.seg ⟨entry.key, offset, data⟩ = some s') :
    Moved s e (s'.setMigration m (.recompacting { r with
      wb := r.wb ++ [(entry.key, recompactionOperand row r.seg offset)] })) := by
  have hok := hI.migrationOk hm
  have hplace : segmentPlace row = some (r.old, entry.offset) := hok.wf
  have hrow : row.valueType = .segment ∧ row.segmentPath = r.old ∧
      row.segmentOffset = entry.offset := by simpa [segmentPlace] using hplace
  refine moved_writeEntry hs' hm ⟨?_, .inl fun _ h => h, fun _ _ h => .inl h,
    .inl fun _ h => .inl h, by simp, trivial⟩
  intro k op hmem
  rcases List.mem_append.mp hmem with hold | hnew
  · exact .inl hold
  · obtain ⟨-, rfl⟩ : k = entry.key ∧ op = recompactionOperand row r.seg offset := by
      simpa using hnew
    -- The operand names the segment that the pass empties, which is still there.
    refine .inr (.inr ⟨hrow.1, .inr ?_⟩)
    rw [show (recompactionOperand row r.seg offset).rawFilePath = r.old from hrow.2.1]
    exact hok.empties r.old rfl

/-- A file is queued: what is left of the list is what was there before it. -/
theorem mem_queue {p : String} {queued : List String} (hp : p ∈ path :: ready) :
    p ∈ ready ∨ p ∈ path :: queued := by
  rcases List.mem_cons.mp hp with rfl | hp
  · exact .inr List.mem_cons_self
  · exact .inl hp

lemma moved_queue (hm : s.migrations[m]? = some x) (hS : Successor s e (path :: s.queued) x y) :
    Moved s e ((s.queue path).setMigration m y) :=
  .move m x y s.segments _ hm (fun _ hp => hp) (fun _ hp => List.mem_cons_of_mem _ hp) hS

lemma Migration.handsOver_of_isOpen (h : x.isOpen = true) : x.handsOver = [] := by
  cases x
  case rolling | removing | finishing => cases h
  all_goals rfl

lemma moved_migrationMove (hI : Ownership s) (hmove : MigrationMove s e s') : Moved s e s' := by
  cases hmove with
  | idle => exact .idle
  | compactStart hs' | recompactStart _ _ hs' => exact moved_start hs' rfl rfl trivial
  | @compactNext m c key path x hm hready hx =>
    have hentry := (hI.migrationOk hm).entries key path List.mem_cons_self
    refine Successor.setMigration hm
      (successor_processed hI _ hready hentry (fun row hfile hrow hseg => ?_) hx)
    simp [forfeits, hm, hready, hfile, hrow, hseg]
  | compactSkip hm | leave _ hm | recompactNext hm | recompactSkip hm | recompactFails hm =>
    exact Successor.setMigration hm (.keep rfl rfl rfl rfl rfl trivial)
  | compactCopy hm _ hs' => exact moved_compactCopy hI hm hs'
  | @compactCommit m c _ _ _ hm =>
    exact .commit m _ _ c.dropped hm (fun _ h => h) rfl id rfl rfl (fun _ h => h) trivial
  | compactRoll hm hready hs' => exact moved_acquire hs' hm (.keep rfl rfl rfl rfl hready hready)
  | @compactFinish m c hm hready =>
    exact .commit m _ _ c.dropped hm (fun _ h => h) rfl (fun _ => hready) rfl rfl (fun _ h => h)
      trivial
  | recompactRoll hm hs' => exact moved_acquire hs' hm (.keep rfl rfl rfl rfl rfl trivial)
  | recompactCopy hm _ hs' => exact moved_recompactCopy hI hm hs'
  | recompactCommit hm =>
    refine .commit _ _ _ [] hm (by simp) rfl (fun _ => rfl) ?_ ?_ (by simp) ?_
    all_goals split
    all_goals first | rfl | trivial
  | @recompactRemove m old hm =>
    exact .move m _ _ _ s.queued hm (fun p hp => by rwa [s.isSome_removeSegment old p])
      (fun _ hp => hp) (.cancel rfl rfl rfl trivial)
  | queueReady hm =>
    exact moved_queue hm ⟨fun _ _ h => .inl h, .inl fun _ h => h, fun _ _ h => .inl h,
      .inl fun p hp => mem_queue hp, by simp, trivial⟩
  | queueRolling hm =>
    exact moved_queue hm ⟨fun _ _ h => .inl h, .inl fun _ h => h, fun _ _ h => .inl h,
      .inl fun p hp => mem_queue hp, fun p hp => mem_queue hp, trivial⟩
  | queueFinishing hm =>
    exact moved_queue hm ⟨fun _ _ h => .inl h, .inl fun _ h => h, fun _ _ h => .inl h, .inr rfl,
      fun p hp => mem_queue hp, trivial⟩
  | cancel _ hm hx =>
    exact Successor.setMigration hm (.cancel (Migration.handsOver_of_isOpen hx) rfl rfl trivial)

/-- What a step of the compactor or the recompactor does. -/
theorem moved_step {cfg : Config} (hI : Ownership s) (he : e.isMigration = true) :
    Moved s e (Store.step cfg s e) :=
  moved_migrationMove hI (migrationMove_step he)

end Moved

section Invariants

variable {s s' : State} {e : Event}

variable {x : Migration}

lemma StagedOk.mono (h : StagedOk s x) (hqueued : ∀ p, Queued s p → Queued s' p)
    (hsegments : ∀ p, (s.segments p).isSome → (s'.segments p).isSome) : StagedOk s' x := by
  intro key op hmem
  rcases h key op hmem with ⟨htype, hq⟩ | ⟨htype, hfrom⟩
  · exact .inl ⟨htype, hqueued _ hq⟩
  · exact .inr ⟨htype, hfrom.imp_right (hsegments _)⟩

/-- What is staged comes along with what is pending. -/
theorem StagedOk.successor {queued : List String} {y : Migration} (h : StagedOk s x)
    (hS : Successor s e queued x y) : StagedOk s y := by
  intro key op hmem
  rcases hS.staged key op hmem with hold | hnew
  · refine (h key op hold).imp_right fun ⟨htype, hfrom⟩ => ⟨htype, hfrom.imp_left fun hp => ?_⟩
    rcases hS.pending with hkept | ⟨hnone, -⟩
    · exact hkept _ hp
    · exact nomatch hnone ▸ hmem
  · exact hnew

namespace Moved

variable (h : Moved s e s')

include h

lemma calls : s'.calls = s.calls := by
  cases h <;> rfl

variable {p : String}

lemma queued (hp : Queued s p) : Queued s' p := by
  cases h with
  | idle | start | commit => exact hp
  | move _ _ _ _ _ _ _ hqueued => exact hp.imp_left (hqueued p)

lemma segments (hp : (s.segments p).isSome) : (s'.segments p).isSome := by
  cases h with
  | idle | commit => exact hp
  | start _ _ hsegments | move _ _ _ _ _ _ hsegments => exact hsegments p hp

lemma stagedOk (hs : ∀ x ∈ s.migrations, StagedOk s x) : ∀ z ∈ s'.migrations, StagedOk s' z := by
  have hmono : ∀ {z}, StagedOk s z → StagedOk s' z := fun hz =>
    hz.mono (fun _ => h.queued) fun _ => h.segments
  intro z hz
  cases h with
  | idle => exact hs z hz
  | start _ x _ hstaged =>
    rcases List.mem_append.mp hz with hold | hnew
    · exact hmono (hs z hold)
    · obtain rfl := List.mem_singleton.mp hnew
      exact fun _ _ h => nomatch hstaged ▸ h
  | move m x y _ _ hm _ _ hS =>
    rcases List.mem_or_eq_of_mem_set hz with hold | rfl
    · exact hmono (hs z hold)
    · exact hmono ((hs x (List.mem_of_getElem? hm)).successor hS)
  | commit m x y _ hm _ _ _ hstaged =>
    rcases List.mem_or_eq_of_mem_set hz with hold | rfl
    · exact hmono (hs z hold)
    · exact fun _ _ h => nomatch hstaged ▸ h

lemma cleared (hs : ∀ x ∈ s.migrations, x.Cleared) : ∀ z ∈ s'.migrations, z.Cleared := by
  intro z hz
  cases h with
  | idle => exact hs z hz
  | start _ x _ _ _ hcleared =>
    rcases List.mem_append.mp hz with hold | hnew
    · exact hs z hold
    · obtain rfl := List.mem_singleton.mp hnew
      exact hcleared
  | move m x y _ _ hm _ _ hS =>
    rcases List.mem_or_eq_of_mem_set hz with hold | rfl
    · exact hs z hold
    · exact hS.cleared
  | commit m x y _ hm _ _ _ _ _ _ hcleared =>
    rcases List.mem_or_eq_of_mem_set hz with hold | rfl
    · exact hs z hold
    · exact hcleared

end Moved

end Invariants

/-! ## What a commit does to a row -/

section Commit

variable {s : State} {x : Migration} {op row : ValueMessage} {key path : String}

/-- A background operand keeps a row, buries the one whose file it purges or moves the one it
copied. -/
theorem mergeRow_background_cases (hop : Background op) (hbase : baseOf (some row) = some row) :
    mergeRow (some row) [op] = row ∨
      (op.valueType = .rawFile ∧ rawPath row = some op.rawFilePath) ∨
      (op.valueType = .segment ∧ pathMatches row op = true ∧
        mergeRow (some row) [op] = migrated row op) := by
  rcases hop.kind with hsegment | hraw
  · rcases mergeRow_migration hop.opType hsegment (some row) with hkept | ⟨base, hrow, hmatch, hmoved⟩
    · exact .inl (by rw [hkept, hbase]; rfl)
    · cases hrow
      exact .inr (.inr ⟨hsegment, hmatch, hmoved⟩)
  · have hmerged := mergeRow_purge hop hraw (some row)
    rw [hbase] at hmerged
    dsimp only at hmerged
    split at hmerged
    · rename_i hsame
      exact .inr (.inl ⟨hraw, by simp [rawPath, hsame]⟩)
    · exact .inl hmerged

variable {wb : List (String × ValueMessage)} {stamp : UInt64}

/-- A batch keeps a row with a raw file that no merge under its key names. -/
theorem applyMerges_eq_or_named (hwb : ∀ key op, (key, op) ∈ wb → Background op)
    (rows : String → Option ValueMessage) (hrow : rows key = some row)
    (hpath : rawPath row = some path) :
    applyMerges rows wb key = some row ∨ ∃ op, (key, op) ∈ wb ∧ op.rawFilePath = path := by
  have hraw : row.valueType = .rawFile ∧ row.rawFilePath = path := by simpa [rawPath] using hpath
  have hbase : baseOf (some row) = some row := baseOf_of_ne_inline (by simp [hraw.1])
  -- A merge under the key that names another file keeps the row, so the next one finds it there.
  induction wb generalizing rows with
  | nil => exact .inl hrow
  | cons e wb ih =>
    obtain ⟨k, op⟩ := e
    by_cases hnamed : k = key ∧ op.rawFilePath = path
    · obtain ⟨rfl, hop⟩ := hnamed
      exact .inr ⟨op, List.mem_cons_self, hop⟩
    · have hkept : Function.update rows k (some (mergeRow (rows k) [op])) key = some row := by
        rcases eq_or_ne key k with rfl | hk
        · rw [Function.update_self, hrow]
          rcases mergeRow_background_cases (hwb key op List.mem_cons_self) hbase with
            hkept | ⟨-, hpurged⟩ | ⟨-, hmatch, -⟩
          · rw [hkept]
          · exact absurd ⟨rfl, Option.some.inj (hpurged.symm.trans hpath)⟩ hnamed
          · refine absurd ⟨rfl, ?_⟩ hnamed
            simpa [pathMatches, hraw, eq_comm] using hmatch
        · rwa [Function.update_of_ne hk]
      rcases ih (fun k' op' h' => hwb k' op' (List.mem_cons_of_mem _ h')) _ hkept with
        hsame | ⟨op', hmem, hop'⟩
      · exact .inl hsame
      · exact .inr ⟨op', List.mem_cons_of_mem _ hmem, hop'⟩

/-- A batch that does not purge the file of a row keeps the stamp of the row. -/
theorem applyMerges_carries (hwb : ∀ key op, (key, op) ∈ wb → Background op)
    (rows : String → Option ValueMessage) (hrow : rows key = some row) (hversion : row.version ≠ 0)
    (hpurge : ∀ op, (key, op) ∈ wb → op.valueType = .rawFile → rawPath row ≠ some op.rawFilePath) :
    carries (applyMerges rows wb key) row.version = true := by
  induction wb generalizing rows row with
  | nil => simp [applyMerges, hrow]
  | cons e wb ih =>
    obtain ⟨k, op⟩ := e
    have hwb' : ∀ key op, (key, op) ∈ wb → Background op :=
      fun k' op' h' => hwb k' op' (List.mem_cons_of_mem _ h')
    have hlater : ∀ op', (key, op') ∈ wb → op'.valueType = .rawFile →
        rawPath row ≠ some op'.rawFilePath :=
      fun op' h' => hpurge op' (List.mem_cons_of_mem _ h')
    rw [applyMerges_cons]
    rcases eq_or_ne key k with rfl | hk
    · have hbase : baseOf (some row) = some row := by
        rw [baseOf, if_neg]
        rintro ⟨⟩
        exact hversion rfl
      rcases mergeRow_background_cases (hwb key op List.mem_cons_self) hbase with
        hkept | ⟨hraw, hpurged⟩ | ⟨hsegment, -, hmoved⟩
      · exact ih hwb' _ (by rw [Function.update_self, hrow, hkept]) hversion hlater
      · exact absurd hpurged (hpurge op List.mem_cons_self hraw)
      · -- The row is in a segment now, and no purge names its file any more.
        have hnow : Function.update rows key (some (mergeRow (rows key) [op])) key =
            some (migrated row op) := by rw [Function.update_self, hrow, hmoved]
        have hcarries := ih hwb' _ hnow hversion (by simp [rawPath, migrated, hsegment])
        exact hcarries
    · exact ih hwb' _ (by rwa [Function.update_of_ne hk]) hversion hlater

/-- The commit takes a file off its row only if the run queues it afterwards, or the file is
queued. -/
theorem referenced_commit (hI : Ownership s) (hx : x ∈ s.migrations) (hstaged : StagedOk s x)
    (hrow : s.rows key = some row) (hpath : rawPath row = some path) :
    applyMerges s.rows x.staged key = some row ∨ Queued s path ∨ path ∈ x.pending := by
  rcases applyMerges_eq_or_named (hI.migrations x hx).staged s.rows hrow hpath with
    hkept | ⟨op, hmem, rfl⟩
  · exact .inl hkept
  · rcases hstaged key op hmem with ⟨-, hqueued⟩ | ⟨-, hpending | hsegment⟩
    · exact .inr (.inl hqueued)
    · exact .inr (.inr hpending)
    · -- A raw file does not have the name of a segment.
      have hfile := ((hI.rows key row hrow).indexed hpath).file
      simp [(hI.names _ hsegment).2] at hfile

/-- The commit keeps the stamps of the rows. -/
theorem carries_commit (hI : Ownership s) (hx : x ∈ s.migrations) (hstaged : StagedOk s x)
    (hstamp : stamp ≠ 0) (h : carries (s.rows key) stamp = true) :
    carries (applyMerges s.rows x.staged key) stamp = true := by
  cases hrow : s.rows key with
  | none => simp [hrow] at h
  | some row =>
    obtain rfl : row.version = stamp := by simpa [hrow] using h
    refine applyMerges_carries (hI.migrations x hx).staged s.rows hrow hstamp fun op hmem hraw => ?_
    rcases hstaged key op hmem with ⟨-, hqueued⟩ | ⟨hsegment, -⟩
    · exact (hI.queue _ hqueued).none key row hrow
    · simp [hsegment] at hraw

/-- The commit adds no stamp. -/
theorem carries_of_commit (hI : Ownership s) (hx : x ∈ s.migrations) (hstamp : stamp ≠ 0)
    (h : carries (applyMerges s.rows x.staged key) stamp = true) :
    carries (s.rows key) stamp = true := by
  cases hrow : applyMerges s.rows x.staged key with
  | none => simp [hrow, -Migration.staged] at h
  | some row =>
    obtain rfl : row.version = stamp := by simpa [hrow, -Migration.staged] using h
    rcases applyMerges_cases (hI.migrations x hx).staged s.rows hrow with
      hkept | ⟨-, -, hzero | ⟨q, hq, hv⟩⟩
    · simp [hkept]
    · exact absurd hzero hstamp
    · simp [hq, hv]

end Commit

end OCache.Store
