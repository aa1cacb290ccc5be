import OCache.Store.OwnershipMigrations

/-!
# Rows that point into segments

A row that points into a segment points at an entry of its key, in a segment that the manager still
tracks. The recompactor removes a segment, so this depends on what it knows of the rows there: while
a pass empties a segment, every row that points into it is at an entry ahead of the pass or has a
merge in its batch that takes it away (`Covered`), and no batch brings a row back
(`Tracked.staged`).
-/

namespace OCache.Store

open Merge

/-! ## The invariant -/

namespace Migration

/-- The entries that a pass of the recompactor has not handled yet. -/
@[simp] def ahead : Migration → List Entry
  | recompacting r => r.entries
  | moving r entry _ => entry :: r.entries
  | _ => []

/-- The pass could not copy an entry. -/
def gaveUp : Migration → Bool
  | recompacting r | moving r .. => r.failed
  | _ => false

end Migration

/-- A tracked segment has an entry of the key at the offset. -/
def At (s : State) (key path : String) (offset : Int64) : Prop :=
  ∃ seg entry, s.segments path = some seg ∧ seg.status ≠ .removed ∧
    seg.entryAt offset = some entry ∧ entry.key = key

/-- The segment exists and takes no more entries. -/
def Closed (s : State) (path : String) : Prop :=
  ∃ seg, s.segments path = some seg ∧ seg.status ≠ .opened

/-- The pass leaves no row behind in the segment it empties. -/
def Covered (s : State) (x : Migration) : Prop :=
  ∀ old, x.empties = some old → x.gaveUp = false →
    ∀ key row offset, s.rows key = some row → segmentPlace row = some (old, offset) →
      (∃ entry ∈ x.ahead, entry.key = key ∧ entry.offset = offset) ∨
        ∃ op, (key, op) ∈ x.staged ∧ op.valueType = .segment ∧ op.rawFilePath = old

/-- Every row that points into a segment points at an entry of its key there. -/
structure Tracked (s : State) : Prop where
  rows : ∀ key row path offset, s.rows key = some row → segmentPlace row = some (path, offset) →
    At s key path offset
  staged : ∀ x ∈ s.migrations, ∀ key op path offset, (key, op) ∈ x.staged →
    segmentPlace op = some (path, offset) → At s key path offset ∧
      ∀ y ∈ s.migrations, y.empties ≠ some path
  closed : ∀ x ∈ s.migrations, ∀ old, x.empties = some old → Closed s old
  covered : ∀ x ∈ s.migrations, Covered s x

/-! ## Segments under updates -/

section Updates

variable {s s' : State} {key path : String} {offset : Int64}

variable {new : Entry} {p : String}

variable {seg : Segment}

lemma entryAt_append {entry : Entry} (h : seg.entryAt offset = some entry) :
    Segment.entryAt { seg with entries := seg.entries ++ [new] } offset = some entry := by
  simp only [Segment.entryAt] at h ⊢
  simp [List.find?_append, h]

/-- Only the status and the end of one segment change. -/
theorem At.setSegment {seg' : Segment} (hseg : s.segments p = some seg)
    (hstatus : seg.status ≠ .removed → seg'.status ≠ .removed)
    (hentries : ∀ o e, seg.entryAt o = some e → seg'.entryAt o = some e)
    (h : At s key path offset) : At (s.setSegment p seg') key path offset := by
  obtain ⟨t, entry, ht, htracked, hat, hkey⟩ := h
  by_cases hp : path = p
  · subst hp
    rw [hseg, Option.some.injEq] at ht
    subst ht
    exact ⟨seg', entry, by simp, hstatus htracked, hentries _ _ hat, hkey⟩
  · exact ⟨t, entry, by simpa [hp] using ht, htracked, hat,
      hkey⟩

lemma At.acquire (h : At s key path offset) (hs' : s.acquire p = some s') :
    At s' key path offset := by
  rcases State.acquire_eq_some hs' with ⟨hnone, rfl⟩ | ⟨rfl, -⟩
  · obtain ⟨seg, entry, hseg, hrest⟩ := h
    have hp : path ≠ p := by
      rintro rfl
      simp [hnone] at hseg
    exact ⟨seg, entry, by simpa [hp] using hseg, hrest⟩
  · exact h

lemma Closed.acquire (h : Closed s path) (hs' : s.acquire p = some s') : Closed s' path := by
  rcases State.acquire_eq_some hs' with ⟨hnone, rfl⟩ | ⟨rfl, -⟩
  · obtain ⟨seg, hseg, hstatus⟩ := h
    have hp : path ≠ p := by
      rintro rfl
      simp [hnone] at hseg
    exact ⟨seg, by simpa [hp] using hseg, hstatus⟩
  · exact h

lemma At.finalizeSegment (h : At s key path offset) (p : String) :
    At (s.finalizeSegment p) key path offset := by
  obtain ⟨seg, entry, hseg, htracked, hat, hkey⟩ := h
  by_cases hp : path = p
  · subst hp
    refine ⟨_, entry, by simp [hseg]; rfl, ?_, ?_, hkey⟩
    · split
      · simp
      · exact htracked
    · split
      all_goals exact hat
  · exact ⟨seg, entry, by simpa [hp] using hseg,
      htracked, hat, hkey⟩

lemma Closed.finalizeSegment (h : Closed s path) (p : String) :
    Closed (s.finalizeSegment p) path := by
  obtain ⟨seg, hseg, hstatus⟩ := h
  by_cases hp : path = p
  · subst hp
    exact ⟨seg, by simp [hseg, hstatus], hstatus⟩
  · exact ⟨seg, by simpa [hp] using hseg, hstatus⟩

/-- Writing an entry keeps what is there. -/
theorem At.writeEntry (h : At s key path offset) (hs' : s.writeEntry p new = some s') :
    At s' key path offset := by
  obtain ⟨seg, hseg, -, rfl⟩ := State.writeEntry_eq_some hs'
  exact h.setSegment hseg id fun _ _ => entryAt_append

lemma Closed.writeEntry (h : Closed s path) (hs' : s.writeEntry p new = some s') :
    Closed s' path := by
  obtain ⟨seg, hseg, hopen, rfl⟩ := State.writeEntry_eq_some hs'
  obtain ⟨t, ht, hstatus⟩ := h
  have hp : path ≠ p := by
    rintro rfl
    rw [hseg, Option.some.injEq] at ht
    exact hstatus (ht ▸ hopen)
  exact ⟨t, by simpa [hp] using ht, hstatus⟩

/-- The entry just written is there. -/
theorem at_writeEntry (hfree : s.freeAt path new.offset = true)
    (hs' : s.writeEntry path new = some s') : At s' new.key path new.offset ∧ ¬Closed s path := by
  obtain ⟨seg, hseg, hopen, rfl⟩ := State.writeEntry_eq_some hs'
  have hnone : seg.entryAt new.offset = none := by
    simpa [State.freeAt, hseg] using (of_decide_eq_true hfree).2
  refine ⟨⟨_, new, by simp; rfl, by simp [hopen], ?_, rfl⟩, ?_⟩
  · simp only [Segment.entryAt] at hnone ⊢
    simp [List.find?_append, hnone]
  · rintro ⟨t, ht, hstatus⟩
    rw [hseg, Option.some.injEq] at ht
    exact hstatus (ht ▸ hopen)

end Updates

/-! ## Batches -/

section Batch

variable {wb : List (String × ValueMessage)}

variable {op row : ValueMessage} {place : String × Int64} {key : String}

/-- A background operand moves a row only to the place it names. -/
theorem place_background {row : Option ValueMessage} {new : ValueMessage} (hop : Background op)
    (h : mergeRow row [op] = new) (hplace : segmentPlace new = some place) :
    row = some new ∨ segmentPlace op = some place := by
  rcases mergeRow_background hop row with htomb | hkept | ⟨hsegment, base, -, -, hmoved⟩
  · rw [htomb] at h
    subst h
    simp [segmentPlace, tombstone] at hplace
  · exact .inl (by rw [hkept, h])
  · rw [hmoved] at h
    subst h
    exact .inr hplace

variable (hwb : ∀ key op, (key, op) ∈ wb → Background op)

include hwb

/-- After a batch a row is where it was or where a merge of the batch put it. -/
theorem applyMerges_place (rows : String → Option ValueMessage)
    (h : applyMerges rows wb key = some row) (hplace : segmentPlace row = some place) :
    rows key = some row ∨ ∃ op, (key, op) ∈ wb ∧ segmentPlace op = some place := by
  induction wb generalizing rows with
  | nil => exact .inl h
  | cons e wb ih =>
    obtain ⟨k, op⟩ := e
    rcases ih (fun k' op' h' => hwb k' op' (List.mem_cons_of_mem _ h')) _ h with
      hkept | ⟨op', hmem, hop'⟩
    · dsimp only at hkept
      by_cases hk : key = k
      · subst hk
        rw [Function.update_self, Option.some.injEq] at hkept
        rcases place_background (hwb _ _ List.mem_cons_self) hkept hplace with hrow | hop
        · exact .inl hrow
        · exact .inr ⟨op, List.mem_cons_self, hop⟩
      · exact .inl (by rwa [Function.update_of_ne hk] at hkept)
    · exact .inr ⟨op', List.mem_cons_of_mem _ hmem, hop'⟩

/-- A segment that a merge of the batch names is off its row, unless a merge points back there. -/
theorem applyMerges_place_ne (rows : String → Option ValueMessage) {old : String} {offset : Int64}
    (hmem : (key, op) ∈ wb) (hsegment : op.valueType = .segment) (hold : op.rawFilePath = old)
    (hback : ∀ k op' o, (k, op') ∈ wb → segmentPlace op' ≠ some (old, o))
    (h : applyMerges rows wb key = some row) : segmentPlace row ≠ some (old, offset) := by
  induction wb generalizing rows with
  | nil => simp at hmem
  | cons e wb ih =>
    have hwb' : ∀ k op', (k, op') ∈ wb → Background op' :=
      fun k op' h' => hwb k op' (List.mem_cons_of_mem _ h')
    have hback' : ∀ k op' o, (k, op') ∈ wb → segmentPlace op' ≠ some (old, o) :=
      fun k op' o h' => hback k op' o (List.mem_cons_of_mem _ h')
    rcases List.mem_cons.mp hmem with rfl | hlater
    · intro hplace
      have hop : Background op := hwb _ _ List.mem_cons_self
      rcases applyMerges_place hwb' _ h hplace with hkept | ⟨op', hmem', hop'⟩
      · -- The merge itself moved the row.
        dsimp only at hkept
        rw [Function.update_self, Option.some.injEq] at hkept
        rcases place_background hop hkept hplace with hrow | hop'
        · have hmatch : pathMatches row op = true := by
            have htype : row.valueType = .segment ∧ row.segmentPath = old ∧
                row.segmentOffset = offset := by simpa [segmentPlace] using hplace
            simp [pathMatches, htype.1, htype.2.1, hold]
          rw [hrow, mergeRow_of_pathMatches hop hsegment hmatch] at hkept
          have hmoved : segmentPlace op = some (old, offset) := by
            rw [← hkept] at hplace
            exact hplace
          exact hback _ _ _ List.mem_cons_self hmoved
        · exact hback _ _ _ List.mem_cons_self hop'
      · exact hback' _ _ _ hmem' hop'
    · exact ih hwb' _ hlater hback' h

end Batch

/-! ## Steps -/

section Steps

variable {s s' : State}

namespace Tracked

/-- A step that moves no row into a segment and leaves segments and migrations alone. -/
theorem call (h : Tracked s) (hsegments : s'.segments = s.segments)
    (hmigrations : s'.migrations = s.migrations)
    (hrows : ∀ key row, s'.rows key = some row → segmentPlace row ≠ none → s.rows key = some row) :
    Tracked s' := by
  have hat : ∀ key path offset, At s key path offset → At s' key path offset := by
    rintro key path offset ⟨seg, entry, hseg, hrest⟩
    exact ⟨seg, entry, hsegments ▸ hseg, hrest⟩
  refine ⟨?_, ?_, ?_, ?_⟩
  · intro key row path offset hrow hplace
    exact hat _ _ _ (h.rows key row path offset (hrows key row hrow (by simp [hplace])) hplace)
  · rw [hmigrations]
    intro x hx key op path offset he hplace
    obtain ⟨hthere, hkeep⟩ := h.staged x hx key op path offset he hplace
    exact ⟨hat _ _ _ hthere, hkeep⟩
  · rw [hmigrations]
    intro x hx old hold
    obtain ⟨seg, hseg, hstatus⟩ := h.closed x hx old hold
    exact ⟨seg, hsegments ▸ hseg, hstatus⟩
  · rw [hmigrations]
    intro x hx old hold hgave key row offset hrow hplace
    exact h.covered x hx old hold hgave key row offset (hrows key row hrow (by simp [hplace])) hplace

variable {m : Nat} {x y : Migration}

/-- A step of the migration `x`, which goes on as `y`. -/
theorem move (h : Tracked s) (hx : s.migrations[m]? = some x)
    (hmigrations : s'.migrations = s.migrations.set m y)
    (hat : ∀ key path offset, At s key path offset → At s' key path offset)
    (hclosed : ∀ path, Closed s path → Closed s' path)
    (hrows : ∀ key row path offset, s'.rows key = some row →
      segmentPlace row = some (path, offset) → s.rows key = some row ∨
        ∃ op, (key, op) ∈ x.staged ∧ segmentPlace op = some (path, offset))
    (hstaged : ∀ key op, (key, op) ∈ y.staged → (key, op) ∈ x.staged ∨
      ∀ path offset, segmentPlace op = some (path, offset) → At s' key path offset ∧ ¬Closed s path)
    (hempties : ∀ old, y.empties = some old → x.empties = some old) (hcovered : Covered s' y) :
    Tracked s' := by
  have hmem : x ∈ s.migrations := List.mem_of_getElem? hx
  -- What is emptied now was emptied before.
  have hemptied : ∀ z ∈ s'.migrations, ∀ old, z.empties = some old →
      ∃ z' ∈ s.migrations, z'.empties = some old := by
    intro z hz old hold
    rw [hmigrations] at hz
    rcases List.mem_or_eq_of_mem_set hz with hz | rfl
    · exact ⟨z, hz, hold⟩
    · exact ⟨x, hmem, hempties old hold⟩
  -- What was staged before is where it was, and stays.
  have hkept : ∀ z ∈ s.migrations, ∀ key op path offset, (key, op) ∈ z.staged →
      segmentPlace op = some (path, offset) → At s' key path offset ∧
        ∀ z ∈ s'.migrations, z.empties ≠ some path := by
    intro z hz key op path offset he hplace
    obtain ⟨hthere, hkeep⟩ := h.staged z hz key op path offset he hplace
    refine ⟨hat _ _ _ hthere, fun z' hz' hold => ?_⟩
    obtain ⟨z'', hz'', hold'⟩ := hemptied z' hz' path hold
    exact hkeep z'' hz'' hold'
  refine ⟨?_, ?_, ?_, ?_⟩
  · intro key row path offset hrow hplace
    rcases hrows key row path offset hrow hplace with hold | ⟨op, he, hop⟩
    · exact hat _ _ _ (h.rows key row path offset hold hplace)
    · exact (hkept x hmem key op path offset he hop).1
  · intro z hz key op path offset he hplace
    rw [hmigrations] at hz
    rcases List.mem_or_eq_of_mem_set hz with hz | rfl
    · exact hkept z hz key op path offset he hplace
    · rcases hstaged key op he with hold | hnew
      · exact hkept x hmem key op path offset hold hplace
      · obtain ⟨hthere, hopen⟩ := hnew path offset hplace
        refine ⟨hthere, fun z' hz' hold => hopen ?_⟩
        obtain ⟨z'', hz'', hold'⟩ := hemptied z' hz' path hold
        exact h.closed z'' hz'' path hold'
  · intro z hz old hold
    obtain ⟨z', hz', hold'⟩ := hemptied z hz old hold
    exact hclosed old (h.closed z' hz' old hold')
  · intro z hz
    rw [hmigrations] at hz
    rcases List.mem_or_eq_of_mem_set hz with hz | rfl
    · intro old hold hgave key row offset hrow hplace
      rcases hrows key row old offset hrow hplace with hkeep | ⟨op, he, hop⟩
      · exact h.covered z hz old hold hgave key row offset hkeep hplace
      · exact absurd hold ((h.staged x hmem key op old offset he hop).2 z hz)
    · exact hcovered

/-- The migration `x` goes on as `y` and only segments change. -/
theorem moveSegments (h : Tracked s) (hx : s.migrations[m]? = some x)
    (hmigrations : s'.migrations = s.migrations) (hrows : s'.rows = s.rows)
    (hat : ∀ key path offset, At s key path offset → At s' key path offset)
    (hclosed : ∀ path, Closed s path → Closed s' path)
    (hstaged : ∀ key op, (key, op) ∈ y.staged → (key, op) ∈ x.staged ∨
      ∀ path offset, segmentPlace op = some (path, offset) → At s' key path offset ∧ ¬Closed s path)
    (hempties : ∀ old, y.empties = some old → x.empties = some old) (hcovered : Covered s y) :
    Tracked (s'.setMigration m y) := by
  refine h.move hx (by simp [hmigrations]) hat hclosed
    (fun _ _ _ _ hr _ => .inl (hrows ▸ hr)) hstaged hempties ?_
  intro old hold hgave key row offset hrow hplace
  exact hcovered old hold hgave key row offset (hrows ▸ hrow) hplace

/-- A migration that changes its position and nothing else. -/
theorem setMigration (h : Tracked s) (hx : s.migrations[m]? = some x)
    (hstaged : ∀ key op, (key, op) ∈ y.staged → (key, op) ∈ x.staged ∨ segmentPlace op = none)
    (hempties : ∀ old, y.empties = some old → x.empties = some old) (hcovered : Covered s y) :
    Tracked (s.setMigration m y) := by
  refine h.moveSegments hx rfl rfl (fun _ _ _ h => h) (fun _ h => h) (fun key op he => ?_) hempties
    hcovered
  refine (hstaged key op he).imp_right fun hnone path offset hplace => ?_
  simp [hnone] at hplace

end Tracked

variable {x : Migration} {key path : String}

/-- Only a pass of the recompactor has something to cover. -/
theorem covered_of_empties_none (h : x.empties = none) : Covered s x := by
  intro old hold
  cases h.symm.trans hold

/-- A run of the compactor that changes its position. -/
theorem Tracked.setCompaction (h : Tracked s) {m : Nat} {y : Migration}
    (hx : s.migrations[m]? = some x) (hy : y.empties = none)
    (hstaged : ∀ key op, (key, op) ∈ y.staged → (key, op) ∈ x.staged ∨ segmentPlace op = none) :
    Tracked (s.setMigration m y) :=
  h.setMigration hx hstaged (hy ▸ nofun) (covered_of_empties_none hy)

variable {k : String} {op : ValueMessage} {c : Compaction}

lemma place_purgeDanglingMeta (h : (k, op) ∈ purgeDanglingMeta s key path) :
    segmentPlace op = none := by
  unfold purgeDanglingMeta at h
  split at h
  · simp only [List.mem_singleton, Prod.mk.injEq] at h
    exact h.2 ▸ rfl
  · simp at h

lemma staged_processed (hx : Processed s c key path x) (h : (k, op) ∈ x.staged) :
    (k, op) ∈ c.wb ∨ segmentPlace op = none := by
  cases hx with
  | stale | moved | copying => exact .inl h
  | short | missing => exact (List.mem_append.mp h).imp_right place_purgeDanglingMeta

lemma empties_processed (hx : Processed s c key path x) : x.empties = none := by
  cases hx <;> rfl

/-- A migration that starts. -/
theorem Tracked.add (h : Tracked s) (hstaged : x.staged = [])
    (hclosed : ∀ old, x.empties = some old → Closed s old)
    (hfree : ∀ old, x.empties = some old → ∀ y ∈ s.migrations, ∀ key op offset,
      (key, op) ∈ y.staged → segmentPlace op ≠ some (old, offset)) (hcovered : Covered s x) :
    Tracked (s.addMigration x) := by
  refine ⟨h.rows, ?_, ?_, ?_⟩
  · intro y hy key op path offset he hplace
    rcases List.mem_append.mp hy with hy | hy
    · obtain ⟨hthere, hkeep⟩ := h.staged y hy key op path offset he hplace
      refine ⟨hthere, fun z hz hold => ?_⟩
      rcases List.mem_append.mp hz with hz | hz
      · exact hkeep z hz hold
      · rw [List.mem_singleton.mp hz] at hold
        exact hfree path hold y hy key op offset he hplace
    · rw [List.mem_singleton.mp hy, hstaged] at he
      simp at he
  · intro y hy old hold
    rcases List.mem_append.mp hy with hy | hy
    · exact h.closed y hy old hold
    · rw [List.mem_singleton.mp hy] at hold
      exact hclosed old hold
  · intro y hy
    rcases List.mem_append.mp hy with hy | hy
    · exact h.covered y hy
    · rw [List.mem_singleton.mp hy]
      exact hcovered

lemma Tracked.acquire (h : Tracked s) (hs' : s.acquire path = some s') : Tracked s' := by
  have heq := State.acquire_eq hs'
  have hrows : s'.rows = s.rows := by rw [heq]
  have hmigrations : s'.migrations = s.migrations := by rw [heq]
  refine ⟨?_, ?_, ?_, ?_⟩
  · rw [hrows]
    exact fun key row p o hrow hplace => (h.rows key row p o hrow hplace).acquire hs'
  · rw [hmigrations]
    intro x hx key op p o he hplace
    obtain ⟨hthere, hkeep⟩ := h.staged x hx key op p o he hplace
    exact ⟨hthere.acquire hs', hkeep⟩
  · rw [hmigrations]
    exact fun x hx old hold => (h.closed x hx old hold).acquire hs'
  · rw [hmigrations]
    intro x hx old hold hgave key row o hrow hplace
    rw [hrows] at hrow
    exact h.covered x hx old hold hgave key row o hrow hplace

lemma Tracked.finalizeSegment (h : Tracked s) (path : String) : Tracked (s.finalizeSegment path) :=
  ⟨fun key row p o hrow hplace => (h.rows key row p o hrow hplace).finalizeSegment path,
    fun x hx key op p o he hplace =>
      ⟨(h.staged x hx key op p o he hplace).1.finalizeSegment path,
        (h.staged x hx key op p o he hplace).2⟩,
    fun x hx old hold => (h.closed x hx old hold).finalizeSegment path,
    fun x hx old hold hgave key row o hrow hplace =>
      h.covered x hx old hold hgave key row o hrow hplace⟩

end Steps

/-! ## Calls -/

section Calls

variable {cfg : Config} {s : State} {i : Nat}

variable {key : String}

variable {prev : Option ValueMessage}

lemma tracked_putCommit (h : Tracked s) (hI : Ownership s) {row : ValueMessage}
    (hpc : s.calls i = .putRead key row prev) (c : Call) :
    Tracked (((s.setRow key (some row)).indexRaw cfg key row).setCall i c) := by
  refine h.call rfl rfl fun k r hr hplace => ?_
  by_cases hk : k = key
  · -- The row of a put has its value in the row or in a raw file.
    subst hk
    have heq : row = r := by simpa using hr
    have hplain := ((hI.calls i).writes row (by simp [hpc])).plain
    exact absurd (heq ▸ hplain) hplace
  · simpa [hk] using hr

lemma tracked_casMerge (h : Tracked s) (hI : Ownership s) {operand : ValueMessage}
    (hpc : s.calls i = .casMerging key operand prev) (c : Call) :
    Tracked ((s.setRow key (some (mergeRow (s.rows key) [operand]))).setCall i c) := by
  have hcall := hI.calls i
  rw [hpc] at hcall
  have hplain : segmentPlace (casResult operand) = none := (hcall.writes _ rfl).plain
  refine h.call rfl rfl fun k r hr hplace => ?_
  by_cases hk : k = key
  · subst hk
    have hmerged : mergeRow (s.rows k) [operand] = r := by
      simpa using hr
    rw [mergeRow_cas hcall.wf.1] at hmerged
    split at hmerged
    · exact absurd (hmerged ▸ hplain) hplace
    · cases hbase : baseOf (s.rows k) with
      | none =>
        rw [hbase] at hmerged
        subst hmerged
        exact absurd rfl hplace
      | some base =>
        rw [hbase] at hmerged
        rw [eq_some_of_baseOf hbase]
        exact congrArg some hmerged
  · simpa [hk] using hr

lemma tracked_purge (h : Tracked s) {path : String} (hne : path ≠ "") :
    Tracked (s.setRow key (some (mergeRow (s.rows key) [purgeOperand path]))) := by
  refine h.call rfl rfl fun k r hr hplace => ?_
  by_cases hk : k = key
  · subst hk
    obtain ⟨place, hsome⟩ := Option.ne_none_iff_exists'.mp hplace
    rcases place_background (background_purgeOperand hne)
      (by simpa using hr) hsome with hrow | hop
    · exact hrow
    · simp [segmentPlace, purgeOperand] at hop
  · simpa [hk] using hr

lemma tracked_callMove {s' : State} {e : Event} (h : Tracked s) (hI : Ownership s)
    (hmove : CallMove cfg s e s') : Tracked s' := by
  cases hmove
  case purge hpath => exact tracked_purge h hpath
  case putCommit hc => exact tracked_putCommit h hI hc _
  case casMerge hc => exact tracked_casMerge h hI hc _
  case remove hrows _ => exact h.call rfl rfl fun k r hr _ => hrows k r hr
  -- No other move writes a row.
  all_goals exact h.call rfl rfl fun _ _ hr _ => hr

end Calls

/-! ## Migrations -/

section Migrations

variable {s s' : State} {m : Nat}

variable {dropped : List (String × String)} {offset : Int64} {row : ValueMessage} {old : String}
  {entry : Entry}

variable (h : Tracked s)

include h

lemma tracked_compactCopy {c : Compaction} {key path : String}
    (hm : s.migrations[m]? = some (.copying c key path row)) {data : List UInt8}
    (hfree : s.freeAt c.seg offset = true) (hs' : s.writeEntry c.seg ⟨key, offset, data⟩ = some s')
    {pending : List String} :
    Tracked (s'.setMigration m (.compacting { c with
      wb := c.wb ++ [(key, compactionOperand row c.seg offset)]
      dropped := dropped, pending := pending })) := by
  have hwritten := at_writeEntry hfree hs'
  have heq := State.writeEntry_eq hs'
  refine h.moveSegments hm (by rw [heq]) (by rw [heq]) (fun _ _ _ hat => hat.writeEntry hs')
    (fun _ hc => hc.writeEntry hs') (fun k op he => ?_) (by simp)
    (covered_of_empties_none rfl)
  rcases List.mem_append.mp he with hold | hnew
  · exact .inl hold
  · -- The merge points at the entry just written, in an open segment.
    simp only [List.mem_singleton, Prod.mk.injEq] at hnew
    obtain ⟨rfl, rfl⟩ := hnew
    refine .inr fun p o hplace => ?_
    obtain ⟨rfl, rfl⟩ : c.seg = p ∧ offset = o := by
      simpa [segmentPlace, compactionOperand] using hplace
    exact hwritten

/-- A batch is committed by a migration that is done with it. -/
theorem Tracked.commit {x y : Migration} (hok : MigrationOk s x) (hx : s.migrations[m]? = some x)
    (hy : y.staged = []) (hempties : ∀ old, y.empties = some old → x.empties = some old)
    (hcovered : Covered ((s.commitBatch x.staged dropped).setMigration m y) y) :
    Tracked ((s.commitBatch x.staged dropped).setMigration m y) :=
  h.move hx rfl (fun _ _ _ hat => hat) (fun _ hc => hc)
    (fun _ _ _ _ hrow hplace => applyMerges_place hok.staged s.rows hrow hplace)
    (fun _ _ he => nomatch hy ▸ he) hempties hcovered

lemma tracked_recompactStart {seg : String} {oldSeg : Segment}
    (hpublished : publishedFirst s (.recompactStart old seg) = true)
    (hold : s.segments old = some oldSeg) (hstatus : oldSeg.status = .closed)
    (hs' : s.acquire seg = some s') :
    Tracked (s'.addMigration (.recompacting ⟨old, seg, [], oldSeg.entries, false⟩)) := by
  have heq := State.acquire_eq hs'
  have hclosed : Closed s old := ⟨oldSeg, hold, by simp [hstatus]⟩
  refine (h.acquire hs').add rfl ?_ ?_ ?_
  · rintro p hp
    obtain rfl : old = p := by simpa using hp
    exact hclosed.acquire hs'
  · rintro p hp y hy key op offset he hplace
    obtain rfl : old = p := by simpa using hp
    rw [heq] at hy
    simp only [publishedFirst, List.all_eq_true, decide_eq_true_eq] at hpublished
    exact hpublished y hy (key, op) he (by simp [hplace])
  · -- Every row there is at an entry, and all entries are ahead.
    intro p hp _ key row offset hrow hplace
    obtain rfl : old = p := by simpa using hp
    rw [heq] at hrow
    obtain ⟨t, entry, ht, -, hat, hkey⟩ := h.rows key row old offset hrow hplace
    rw [hold, Option.some.injEq] at ht
    subst ht
    refine .inl ⟨entry, List.mem_of_find?_eq_some hat, hkey, ?_⟩
    simpa using List.find?_some hat

variable {r : Recompaction}

/-- An entry that its row is not at is not needed for the cover. -/
theorem tracked_recompactSkip
    (hm : s.migrations[m]? = some (.recompacting { r with entries := entry :: r.entries }))
    (helsewhere : ∀ row, s.rows entry.key = some row →
      segmentPlace row ≠ some (r.old, entry.offset)) :
    Tracked (s.setMigration m (.recompacting r)) := by
  refine h.setMigration hm (fun _ _ he => .inl he) (fun _ hold => hold) ?_
  intro p hp hgave key row offset hrow hplace
  obtain rfl : r.old = p := by simpa using hp
  rcases h.covered _ (List.mem_of_getElem? hm) r.old rfl hgave key row offset hrow hplace with
    ⟨e, he, hkey, hoff⟩ | hstaged
  · rcases List.mem_cons.mp he with rfl | he
    · subst hkey hoff
      exact absurd hplace (helsewhere row hrow)
    · exact .inl ⟨e, he, hkey, hoff⟩
  · exact .inr hstaged

lemma tracked_recompactCopy (hI : Ownership s)
    (hm : s.migrations[m]? = some (.moving r entry row)) (hfree : s.freeAt r.seg offset = true)
    (hs' : s.writeEntry r.seg ⟨entry.key, offset, entry.data⟩ = some s') :
    Tracked (s'.setMigration m (.recompacting { r with
      wb := r.wb ++ [(entry.key, recompactionOperand row r.seg offset)] })) := by
  have hok := hI.migrationOk hm
  have hwritten := at_writeEntry hfree hs'
  have heq := State.writeEntry_eq hs'
  have hplace : segmentPlace row = some (r.old, entry.offset) := hok.wf
  obtain ⟨hop, hpath⟩ : Background (recompactionOperand row r.seg offset) ∧
      (recompactionOperand row r.seg offset).rawFilePath = r.old :=
    background_recompactionOperand
      (hok.knows entry.key row (by simp)).stored.opType hplace
      (hI.names r.old (hok.empties r.old rfl)).1
  have hsegment : (recompactionOperand row r.seg offset).valueType = .segment := by
    by_contra htype
    simp [segmentPlace, show row.valueType ≠ .segment from htype] at hplace
  refine h.moveSegments hm (by rw [heq]) (by rw [heq]) (fun _ _ _ hat => hat.writeEntry hs')
    (fun _ hc => hc.writeEntry hs') ?_ (fun _ hold => hold) ?_
  · intro k op he
    rcases List.mem_append.mp he with hold | hnew
    · exact .inl hold
    · simp only [List.mem_singleton, Prod.mk.injEq] at hnew
      obtain ⟨rfl, rfl⟩ := hnew
      refine .inr fun p o hp => ?_
      have hnew : segmentPlace (recompactionOperand row r.seg offset) = some (r.seg, offset) :=
        if_pos hsegment
      obtain ⟨rfl, rfl⟩ : r.seg = p ∧ offset = o := by simpa [hnew] using hp
      exact hwritten
  · -- The entry leaves the cover, its merge joins it.
    intro p hp hgave key r' o hrow hplace'
    obtain rfl : r.old = p := by simpa using hp
    rcases h.covered _ (List.mem_of_getElem? hm) r.old rfl hgave key r' o hrow hplace' with
      ⟨e, he, hkey, hoff⟩ | ⟨op, hmem, hrest⟩
    · rcases List.mem_cons.mp he with rfl | he
      · subst hkey
        exact .inr ⟨_, List.mem_append_right _ (List.mem_singleton.mpr rfl), hsegment, hpath⟩
      · exact .inl ⟨e, he, hkey, hoff⟩
    · exact .inr ⟨op, List.mem_append_left _ hmem, hrest⟩

lemma tracked_recompactCommit (hI : Ownership s) (hm : s.migrations[m]? = some (.recompacting r))
    (hdone : r.entries = []) :
    Tracked ((s.commitBatch r.wb []).setMigration m
      (if r.failed then .finishing [] else .removing r.old)) := by
  have hok := hI.migrationOk hm
  have hmem := List.mem_of_getElem? hm
  split
  · exact h.commit hok hm rfl (by simp) (covered_of_empties_none rfl)
  · rename_i hcomplete
    refine h.commit hok hm rfl (fun _ hold => hold) ?_
    -- A row that is still there had a merge in the batch, which took it away.
    intro p hp _ key row offset hrow hplace
    obtain rfl : r.old = p := by simpa using hp
    have hback : ∀ k op o, (k, op) ∈ r.wb → segmentPlace op ≠ some (r.old, o) := by
      intro k op o he hop
      exact (h.staged _ hmem k op r.old o he hop).2 _ hmem rfl
    rcases applyMerges_place hok.staged s.rows hrow hplace with hkept | ⟨op, he, hop⟩
    · have hgave : (Migration.recompacting r).gaveUp = false := by
        simpa [Migration.gaveUp] using hcomplete
      rcases h.covered _ hmem r.old rfl hgave key row offset hkept hplace with
        ⟨e, he, -⟩ | ⟨op, he, hsegment, hpath⟩
      · simp [hdone] at he
      · exact absurd hplace (applyMerges_place_ne hok.staged s.rows he hsegment hpath hback hrow)
    · exact absurd hop (hback key op offset he)

lemma tracked_recompactRemove (hm : s.migrations[m]? = some (.removing old)) :
    Tracked ((s.removeSegment old).setMigration m (.finishing [old])) := by
  have hmem := List.mem_of_getElem? hm
  -- Nothing points into the segment, now or after a commit.
  have hempty : ∀ key row offset, s.rows key = some row →
      segmentPlace row ≠ some (old, offset) := by
    intro key row offset hrow hplace
    rcases h.covered _ hmem old rfl rfl key row offset hrow hplace with ⟨e, he, -⟩ | ⟨op, he, -⟩
    all_goals simp at he
  have hother : ∀ key path offset, path ≠ old → At s key path offset →
      At ((s.removeSegment old).setMigration m (.finishing [old])) key path offset := by
    rintro key path offset hne ⟨seg, entry, hseg, hrest⟩
    refine ⟨seg, entry, ?_, hrest⟩
    simpa [hne] using hseg
  refine ⟨?_, ?_, ?_, ?_⟩
  · intro key row path offset hrow hplace
    have hne : path ≠ old := by
      rintro rfl
      exact hempty key row offset hrow hplace
    exact hother _ _ _ hne (h.rows key row path offset hrow hplace)
  · intro x hx key op path offset he hplace
    rcases List.mem_or_eq_of_mem_set hx with hx | rfl
    · obtain ⟨hthere, hkeep⟩ := h.staged x hx key op path offset he hplace
      have hne : path ≠ old := by
        rintro rfl
        exact hkeep _ hmem rfl
      refine ⟨hother _ _ _ hne hthere, fun y hy hold => ?_⟩
      rcases List.mem_or_eq_of_mem_set hy with hy | rfl
      · exact hkeep y hy hold
      · simp at hold
    · simp at he
  · intro x hx p hold
    rcases List.mem_or_eq_of_mem_set hx with hx | rfl
    · obtain ⟨seg, hseg, hstatus⟩ := h.closed x hx p hold
      by_cases hp : p = old
      · subst hp
        exact ⟨{ seg with status := .removed },
          by simp [hseg], by simp⟩
      · refine ⟨seg, ?_, hstatus⟩
        simpa [hp] using hseg
    · simp at hold
  · intro x hx
    rcases List.mem_or_eq_of_mem_set hx with hx | rfl
    · exact fun p hp hgave key row o hrow hplace => h.covered x hx p hp hgave key row o hrow hplace
    · exact covered_of_empties_none rfl

lemma tracked_migrationMove {e : Event} (hI : Ownership s)
    (hpublished : publishedFirst s e = true) (hmove : MigrationMove s e s') : Tracked s' := by
  have hqueue : ∀ path, Tracked (s.queue path) := fun path => h.call rfl rfl fun _ _ hr _ => hr
  cases hmove with
  | idle => exact h
  | compactStart hs' =>
    exact (h.acquire hs').add rfl (by simp) (by simp)
      (covered_of_empties_none rfl)
  | compactNext hm _ hx =>
    refine h.setCompaction hm (empties_processed hx) fun key op he => ?_
    have hstaged := staged_processed hx he
    exact hstaged
  | compactSkip hm | leave _ hm => exact h.setCompaction hm rfl fun _ _ he => .inl he
  | compactCopy hm hfree hs' => exact tracked_compactCopy h hm hfree hs'
  | compactCommit hm | compactFinish hm =>
    exact h.commit (hI.migrationOk hm) hm rfl (by simp)
      (covered_of_empties_none rfl)
  | @compactRoll m c key path seg row s' hm _ hs' =>
    have hm' : s'.migrations[m]? = some (.rolling c key path row) := by rwa [State.acquire_eq hs']
    exact ((h.finalizeSegment c.seg).acquire hs').setCompaction hm' rfl fun _ _ he => .inl he
  | recompactStart hold hclosed hs' => exact tracked_recompactStart h hpublished hold hclosed hs'
  | recompactNext hm =>
    have hcovered := h.covered _ (List.mem_of_getElem? hm)
    exact h.setMigration hm (fun _ _ he => .inl he) (fun _ hold => hold) hcovered
  | recompactSkip hm hplace => exact tracked_recompactSkip h hm hplace
  | @recompactRoll m r entry row seg s' hm hs' =>
    have h' := (h.finalizeSegment r.seg).acquire hs'
    have hm' : s'.migrations[m]? = some (.moving r entry row) := by rwa [State.acquire_eq hs']
    have hcovered := h'.covered _ (List.mem_of_getElem? hm')
    exact h'.setMigration hm' (fun _ _ he => .inl he) (fun _ hold => hold) hcovered
  | recompactCopy hm hfree hs' => exact tracked_recompactCopy h hI hm hfree hs'
  | recompactFails hm =>
    refine h.setMigration hm (fun _ _ he => .inl he) (fun _ hold => hold) fun p _ hgave => ?_
    simp [Migration.gaveUp] at hgave
  | recompactCommit hm hdone => exact tracked_recompactCommit h hI hm hdone
  | recompactRemove hm => exact tracked_recompactRemove h hm
  | queueReady hm | queueRolling hm | queueFinishing hm =>
    exact (hqueue _).setCompaction hm rfl fun _ _ he => .inl he
  | cancel _ hm => exact h.setCompaction hm rfl fun _ _ he => by simp at he

end Migrations

/-! ## Runs -/

lemma tracked_init : Tracked State.init :=
  ⟨by simp, by simp, by simp, by simp⟩

/-- Every step keeps the invariant, if passes of the recompactor start on published segments. -/
theorem tracked_step (cfg : Config) {s : State} {e : Event} (h : Tracked s) (hI : Ownership s)
    (hpublished : publishedFirst s e = true) : Tracked (step cfg s e) := by
  rcases move_step cfg s e with hmove | hmove
  · exact tracked_callMove h hI hmove
  · exact tracked_migrationMove h hI hpublished hmove

end OCache.Store
