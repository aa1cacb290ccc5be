import OCache.Store.NoDangling

/-!
# Migrations are invisible

A run of `Put`, `DeleteKey` and `Get` calls with migrations is compared with the same run without
them. Where the second run has a row with a raw file, the first may have a row that points at a copy
of the file in a segment (`Copy`), and where the second has no row, the first may have the tombstone
that a stale merge leaves on a missing row.

That tombstone is where the two can part. The row of an empty value without a time to live is stored
as no bytes at all, so a stale merge takes it for a missing row and buries it; and a `DeleteKey`
that reads the tombstone removes whatever row it finds at its commit, while in the second run it
returns at once.
-/

namespace OCache.Store

open Merge EventSystem

/-! ## Rows -/

/-- `row` points at an entry with the bytes that the raw file of `put` has. -/
structure Copy (s : State) (key : String) (row put : ValueMessage) (path file : String)
    (offset : Int64) (entry : Entry) : Prop where
  place : segmentPlace row = some (path, offset)
  raw : rawPath put = some file
  path_ne : file ≠ ""
  found : ∃ seg, s.segments path = some seg ∧ seg.entryAt offset = some entry
  nonneg : 0 ≤ offset
  key_eq : entry.key = key
  data : s.rawFiles file = some entry.data
  expiry : row.expiry = put.expiry
  length : row.valueLength = put.valueLength
  live : put.expiry ≠ tombstoneExpiry

/-- The row of a key with migrations, and without. -/
inductive RowSim (s : State) (key : String) : Option ValueMessage → Option ValueMessage → Prop
  | absent : RowSim s key none none
  | buried : RowSim s key (some (tombstone 0)) none
  | same {row : ValueMessage} (hplain : segmentPlace row = none)
      (hlive : row.expiry ≠ tombstoneExpiry) : RowSim s key (some row) (some row)
  | moved {row put : ValueMessage} {path file : String} {offset : Int64} {entry : Entry}
      (h : Copy s key row put path file offset entry) : RowSim s key (some row) (some put)

/-- Files and segments are only added to. -/
structure Grows (s s' : State) : Prop where
  rawFiles : ∀ p data, s.rawFiles p = some data → s'.rawFiles p = some data
  segments : ∀ p seg, s.segments p = some seg →
    ∃ seg', s'.segments p = some seg' ∧ seg.entries <+: seg'.entries

/-- Entries are found at their offsets. -/
def Layout (s : State) : Prop :=
  ∀ path seg, s.segments path = some seg → ∀ e ∈ seg.entries,
    seg.entryAt e.offset = some e ∧ 0 ≤ e.offset

section Rows

variable {s s' t : State} {key : String}

variable {entry : Entry} {offset : Int64} {file path : String} {row : ValueMessage}
  {row' : Option ValueMessage}

lemma entryAt_of_isPrefix {seg seg' : Segment} (hext : seg.entries <+: seg'.entries)
    (h : seg.entryAt offset = some entry) : seg'.entryAt offset = some entry := by
  obtain ⟨rest, hrest⟩ := hext
  simp only [Segment.entryAt] at h ⊢
  simp [← hrest, List.find?_append, h]

variable {put : ValueMessage}

lemma Copy.mono (h : Copy s key row put path file offset entry) (hgrow : Grows s s') :
    Copy s' key row put path file offset entry := by
  obtain ⟨seg, hseg, hat⟩ := h.found
  obtain ⟨seg', hseg', hext⟩ := hgrow.segments path seg hseg
  exact { h with
    found := ⟨seg', hseg', entryAt_of_isPrefix hext hat⟩
    data := hgrow.rawFiles file _ h.data }

lemma RowSim.mono {row : Option ValueMessage} (h : RowSim s key row row') (hgrow : Grows s s') :
    RowSim s' key row row' := by
  cases h with
  | absent => exact .absent
  | buried => exact .buried
  | same hplain hlive => exact .same hplain hlive
  | moved h => exact .moved (h.mono hgrow)

lemma RowSim.eq_none (h : RowSim s key none row') : row' = none := by
  cases h
  rfl

/-- A row that is in no segment and is no tombstone is the same in both runs. -/
theorem RowSim.eq_some (h : RowSim s key (some row) row') (hfile : rawPath row = some file) :
    row' = some row ∧ row.expiry ≠ tombstoneExpiry := by
  cases h with
  | buried => simp [rawPath, tombstone] at hfile
  | same hplain hlive => exact ⟨rfl, hlive⟩
  | moved h =>
    have hraw : row.valueType = .rawFile ∧ row.rawFilePath = file := by simpa [rawPath] using hfile
    have hplace := h.place
    simp [segmentPlace, hraw.1] at hplace

/-- A row in a segment is a copy. -/
theorem RowSim.copy (h : RowSim s key (some row) row')
    (hplace : segmentPlace row = some (path, offset)) :
    ∃ put file entry, row' = some put ∧ Copy s key row put path file offset entry := by
  cases h with
  | buried => simp [segmentPlace, tombstone] at hplace
  | same hplain => simp [hplain] at hplace
  | moved h =>
    rename_i put p file o entry
    have hsame : p = path ∧ o = offset := by
      have := h.place
      rw [hplace] at this
      simpa [eq_comm] using this
    obtain ⟨rfl, rfl⟩ := hsame
    exact ⟨put, file, entry, rfl, h⟩

/-- A copy reads as the file it was made from. -/
theorem Copy.read_eq (h : Copy s key row put path file offset entry) (hkey : key ≠ "")
    (hpath : path ≠ "") (htracked : ∀ seg, s.segments path = some seg → seg.status ≠ .removed)
    (hraw : t.rawFiles = s.rawFiles) (hunlinked : t.unlinked = []) :
    s.readEntry key row.segmentPath row.segmentOffset row.valueLength =
      t.readRaw put.rawFilePath put.valueLength := by
  have hrow : row.valueType = .segment ∧ row.segmentPath = path ∧ row.segmentOffset = offset := by
    simpa [segmentPlace] using h.place
  have hput : put.valueType = .rawFile ∧ put.rawFilePath = file := by
    simpa [rawPath] using h.raw
  obtain ⟨seg, hseg, hat⟩ := h.found
  have hoffset : ¬offset < 0 := Int64.not_lt.mpr h.nonneg
  rw [hrow.2.1, hrow.2.2, hput.2, h.length]
  simp [State.readEntry, State.readRaw, hkey, hpath, hoffset, h.path_ne, hunlinked, hseg,
    htracked seg hseg, hat, h.key_eq, hraw, h.data]

/-- `Get` cannot tell the two rows apart. -/
theorem get_eq_of_rowSim (hI : Sound s) {now : Int64} (h : RowSim s key (s.rows key) (t.rows key))
    (hraw : t.rawFiles = s.rawFiles) (hs : s.unlinked = []) (ht : t.unlinked = []) (hkey : key ≠ "")
    (hnow : 1 ≤ now) : get s key now = get t key now := by
  unfold get
  generalize hrow : s.rows key = row at h ⊢
  generalize hrow' : t.rows key = row' at h ⊢
  cases h with
  | absent => rfl
  | buried =>
    have hexpired : expired now (tombstone 0) = true := by
      have hpos : (0 : Int64) < tombstoneExpiry := by decide
      simp only [expired, tombstone, hpos, true_and, decide_eq_true_eq]
      exact hnow
    simp [hexpired]
  | same hplain hlive =>
    rename_i row
    have hraw' : t.readRaw = s.readRaw := by
      funext p l
      simp [State.readRaw, hraw, hs, ht]
    have htype : row.valueType ≠ .segment := by
      intro hseg
      simp [segmentPlace, hseg] at hplain
    simp only [hraw']
    cases hkind : row.valueType with
    | segment => exact absurd hkind htype
    | _ => rfl
  | moved hcopy =>
    rename_i row put path file offset entry
    have hseg : row.valueType = .segment := by
      by_contra hne
      have := hcopy.place
      simp [segmentPlace, hne] at this
    have hput : put.valueType = .rawFile := by
      by_contra hne
      have := hcopy.raw
      simp [rawPath, hne] at this
    obtain ⟨seg, _, hfound, htracked, -⟩ := hI.tracked.rows key row path offset hrow hcopy.place
    have hpath : path ≠ "" := (hI.ownership.names path (by simp [hfound])).1
    have hread := hcopy.read_eq hkey hpath (fun seg' h' => by
      rw [hfound, Option.some.injEq] at h'
      exact h' ▸ htracked) hraw ht
    have hexpired : expired now row = expired now put := by simp [expired, hcopy.expiry]
    simp only [hexpired, hseg, hput, hread]

end Rows

/-! ## Calls and migrations -/

/-- A call with migrations, and without. A `DeleteKey` that read the tombstone of a stale merge has
returned already in the run without. -/
inductive CallSim : Call → Call → Prop
  | idle : CallSim .idle .idle
  | putWritten (key : String) {row : ValueMessage} (hlive : row.expiry ≠ tombstoneExpiry) :
      CallSim (.putWritten key row) (.putWritten key row)
  | putRead (key : String) {row : ValueMessage} (prev prev' : Option ValueMessage)
      (hlive : row.expiry ≠ tombstoneExpiry) :
      CallSim (.putRead key row prev) (.putRead key row prev')
  | deleting (key : String) (read read' : ValueMessage) :
      CallSim (.deleting key read) (.deleting key read')
  | returned (key : String) : CallSim (.deleting key (tombstone 0)) (.reclaiming [])
  | reclaiming (paths paths' : List String) : CallSim (.reclaiming paths) (.reclaiming paths')

/-- The paths that the merges of a migration take rows away from. -/
@[simp] def Migration.origins (x : Migration) : List String := x.pending ++ x.empties.toList

/-- The row has its value at the path. -/
def Located (row : ValueMessage) (path : String) : Prop :=
  rawPath row = some path ∨ ∃ offset, segmentPlace row = some (path, offset)

lemma located_of_pathMatches {row op : ValueMessage} (h : pathMatches row op = true) :
    Located row op.rawFilePath := by
  simp only [pathMatches, decide_eq_true_eq] at h
  rcases h with h | h
  · exact .inl (by simp [rawPath, h.1, h.2])
  · exact .inr ⟨row.segmentOffset, by simp [segmentPlace, h.1, h.2]⟩

/-- The merges of a migration change where a value is and not what it is. -/
structure Faithful (s t : State) (x : Migration) : Prop where
  origin : ∀ key op, (key, op) ∈ x.staged → op.valueType = .segment ∧ op.rawFilePath ∈ x.origins
  files : ∀ p ∈ x.pending, (s.rawFiles p).isSome
  target : ∀ key op row, (key, op) ∈ x.staged → s.rows key = some row → pathMatches row op = true →
    RowSim s key (some (migrated row op)) (t.rows key)
  ahead : ∀ old, x.empties = some old → ∀ e ∈ x.ahead,
    ∃ seg, s.segments old = some seg ∧ e ∈ seg.entries
  /-- A pass works on the row that it read as long as the key has a row in the old segment. -/
  current : ∀ key row, (key, row) ∈ x.knows → ∀ old, x.empties = some old → ∀ q offset,
    s.rows key = some q → segmentPlace q = some (old, offset) → q = row

/-- A run with migrations and a run without. -/
structure Sim (s t : State) : Prop where
  rawFiles : t.rawFiles = s.rawFiles
  observed : t.observed = s.observed
  unlinked : s.unlinked = []
  unlinked' : t.unlinked = []
  rows : ∀ key, RowSim s key (s.rows key) (t.rows key)
  calls : ∀ i, CallSim (s.calls i) (t.calls i)
  layout : Layout s
  migrations : ∀ x ∈ s.migrations, Faithful s t x

section Migrations

variable {s s' t t' : State}

variable {x : Migration}

/-- A migration stays faithful if no row comes to a path that it moves rows away from. -/
theorem Faithful.mono (h : Faithful s t x) (hgrow : Grows s s')
    (hrows : ∀ p ∈ x.origins, ∀ key row, s'.rows key = some row → Located row p →
      s.rows key = some row ∧ t'.rows key = t.rows key) : Faithful s' t' x where
  origin := h.origin
  files p hp := by
    obtain ⟨data, hdata⟩ := Option.isSome_iff_exists.mp (h.files p hp)
    simp [hgrow.rawFiles p data hdata]
  target key op row he hrow hmatch := by
    obtain ⟨hold, ht⟩ :=
      hrows _ (h.origin key op he).2 key row hrow (located_of_pathMatches hmatch)
    rw [ht]
    exact (h.target key op row he hold hmatch).mono hgrow
  ahead old hold e he := by
    obtain ⟨seg, hseg, hmem⟩ := h.ahead old hold e he
    obtain ⟨seg', hseg', hext⟩ := hgrow.segments old seg hseg
    exact ⟨seg', hseg', hext.subset hmem⟩
  current key row he old hold q offset hq hplace := by
    have horigin : old ∈ x.origins := by rw [Migration.origins, hold]; simp
    exact h.current key row he old hold q offset
      (hrows old horigin key q hq (.inr ⟨offset, hplace⟩)).1 hplace

/-- A migration that stages nothing new and is no further than before. -/
theorem Faithful.reposition {y : Migration} (h : Faithful s t x)
    (hstaged : ∀ e ∈ y.staged, e ∈ x.staged) (hpending : y.pending = x.pending)
    (hempties : y.empties = x.empties) (hahead : ∀ e ∈ y.ahead, e ∈ x.ahead)
    (hcurrent : ∀ key row, (key, row) ∈ y.knows → (key, row) ∈ x.knows ∨ s.rows key = some row ∨
      y.empties = none) : Faithful s t y where
  origin key op he := by
    simpa only [Migration.origins, hpending, hempties] using h.origin key op (hstaged _ he)
  files := hpending ▸ h.files
  target key op row he := h.target key op row (hstaged _ he)
  ahead old hold e he := h.ahead old (hempties ▸ hold) e (hahead e he)
  current key row he old hold q offset hq hplace := by
    rcases hcurrent key row he with hx | hrow | hnone
    · exact h.current key row hx old (hempties ▸ hold) q offset hq hplace
    · rw [hrow, Option.some.injEq] at hq
      exact hq.symm
    · cases hnone.symm.trans hold

/-- A migration with an empty batch that empties no segment, or is about to remove it. -/
theorem faithful_of_staged_nil (hstaged : x.staged = [])
    (hfiles : ∀ p ∈ x.pending, (s.rawFiles p).isSome) (hahead : x.ahead = [])
    (hknows : x.empties = none ∨ x.knows = []) : Faithful s t x where
  origin key op he := nomatch hstaged ▸ he
  files := hfiles
  target key op row he := nomatch hstaged ▸ he
  ahead old _ e he := nomatch hahead ▸ he
  current key row he old hold := by
    rcases hknows with hnone | hnil
    · cases hnone.symm.trans hold
    · exact nomatch hnil ▸ he

end Migrations

/-! ## Segments -/

section Segments

variable {s s' t : State}

lemma Grows.of_eq (hraw : s'.rawFiles = s.rawFiles) (hsegments : s'.segments = s.segments) :
    Grows s s' where
  rawFiles := by simp [hraw]
  segments p seg hseg := ⟨seg, hsegments ▸ hseg, List.prefix_refl _⟩

/-- Opening, closing and removing a segment leaves the entries of all segments as they are. -/
theorem Grows.of_entries (hraw : s'.rawFiles = s.rawFiles)
    (h : ∀ p, (s'.segments p).map (·.entries) = (s.segments p).map (·.entries)) : Grows s s' where
  rawFiles := by simp [hraw]
  segments p seg hseg := by
    have hp := h p
    rw [hseg] at hp
    obtain ⟨seg', hseg', hentries⟩ := Option.map_eq_some_iff.mp hp
    exact ⟨seg', hseg', hentries ▸ List.prefix_refl _⟩

lemma Layout.of_entries (hlayout : Layout s)
    (h : ∀ p, (s'.segments p).map (·.entries) = (s.segments p).map (·.entries)) : Layout s' := by
  intro path seg hseg e he
  have hp := h path
  rw [hseg] at hp
  obtain ⟨seg', hseg', hentries⟩ := Option.map_eq_some_iff.mp hp.symm
  have hmem : e ∈ seg'.entries := by rwa [hentries]
  have hfound := hlayout path seg' hseg' e hmem
  simp only [Segment.entryAt] at hfound ⊢
  rwa [hentries] at hfound

lemma entries_finalizeSegment (s : State) (path p : String) :
    ((s.finalizeSegment path).segments p).map (·.entries) = (s.segments p).map (·.entries) := by
  by_cases hp : p = path
  · subst hp
    cases hseg : s.segments p with
    | none => simp [hseg]
    | some seg =>
      by_cases hopen : seg.status = .opened <;> simp [hseg, hopen]
  · simp [hp]

lemma entries_removeSegment (s : State) (path p : String) :
    ((s.removeSegment path).segments p).map (·.entries) = (s.segments p).map (·.entries) := by
  by_cases hp : p = path
  · subst hp
    cases hseg : s.segments p with
    | none | some seg => simp [hseg]
  · simp [hp]

variable {path : String}

lemma grows_acquire (h : s.acquire path = some s') : Grows s s' := by
  rcases State.acquire_eq_some h with ⟨hnone, rfl⟩ | ⟨rfl, -⟩
  · refine ⟨fun _ _ h => h, fun p seg hseg => ⟨seg, ?_, List.prefix_refl _⟩⟩
    have hp : p ≠ path := by
      rintro rfl
      simp [hnone] at hseg
    simpa [hp] using hseg
  · exact .of_eq rfl rfl

lemma Layout.acquire (hlayout : Layout s) (h : s.acquire path = some s') : Layout s' := by
  rcases State.acquire_eq_some h with ⟨-, rfl⟩ | ⟨rfl, -⟩
  · intro p seg hseg e he
    by_cases hp : p = path
    · subst hp
      simp only [State.setSegment, Function.update_self, Option.some.injEq] at hseg
      simp [← hseg] at he
    · exact hlayout p seg (by simpa [hp] using hseg) e he
  · exact hlayout

variable {entry : Entry}

lemma grows_writeEntry (h : s.writeEntry path entry = some s') : Grows s s' := by
  obtain ⟨seg, hseg, -, rfl⟩ := State.writeEntry_eq_some h
  refine ⟨fun _ _ h => h, fun p q hq => ?_⟩
  by_cases hp : p = path
  · subst hp
    rw [hseg, Option.some.injEq] at hq
    subst hq
    exact ⟨_, by simp; rfl, List.prefix_append _ _⟩
  · exact ⟨q, by simpa [hp] using hq, List.prefix_refl _⟩

/-- The new entry is found at its offset, and the old ones still are. -/
theorem Layout.writeEntry (hlayout : Layout s) (h : s.writeEntry path entry = some s')
    (hfree : s.freeAt path entry.offset = true) :
    Layout s' ∧ ∃ seg, s'.segments path = some seg ∧ seg.entryAt entry.offset = some entry := by
  obtain ⟨seg, hseg, -, rfl⟩ := State.writeEntry_eq_some h
  have hoffset := of_decide_eq_true hfree
  have hnone : seg.entryAt entry.offset = none := by simpa [hseg] using hoffset.2
  have hnew : Segment.entryAt { seg with entries := seg.entries ++ [entry] } entry.offset =
      some entry := by
    simp only [Segment.entryAt] at hnone ⊢
    simp [List.find?_append, hnone]
  refine ⟨fun p q hq e he => ?_, _, by simp, hnew⟩
  by_cases hp : p = path
  · subst hp
    simp only [State.setSegment, Function.update_self, Option.some.injEq] at hq
    subst hq
    rcases List.mem_append.mp he with hold | hlast
    · obtain ⟨hat, hnonneg⟩ := hlayout p seg hseg e hold
      exact ⟨entryAt_append hat, hnonneg⟩
    · obtain rfl := List.mem_singleton.mp hlast
      exact ⟨hnew, hoffset.1⟩
  · exact hlayout p q (by simpa [hp] using hq) e he

end Segments

/-! ## Steps of migrations -/

namespace Sim

variable {s s' t : State} {m : Nat}

variable (h : Sim s t)

include h

/-- A step of the segment manager. -/
theorem segmentStep (heq : s' = { s with segments := s'.segments }) (hgrow : Grows s s')
    (hlayout : Layout s') : Sim s' t := by
  have hrows : s'.rows = s.rows := by rw [heq]
  exact
    { rawFiles := by rw [heq]; exact h.rawFiles
      observed := by rw [heq]; exact h.observed
      unlinked := by rw [heq]; exact h.unlinked
      unlinked' := h.unlinked'
      rows := fun key => hrows ▸ (h.rows key).mono hgrow
      calls := by rw [heq]; exact h.calls
      layout := hlayout
      migrations := by
        intro x hx
        have hx' : x ∈ s.migrations := by rwa [heq] at hx
        exact (h.migrations x hx').mono hgrow fun _ _ _ _ hrow _ => ⟨hrows ▸ hrow, rfl⟩ }

lemma acquire {path : String} (hs' : s.acquire path = some s') : Sim s' t :=
  h.segmentStep (State.acquire_eq hs') (grows_acquire hs') (h.layout.acquire hs')

lemma finalizeSegment (path : String) : Sim (s.finalizeSegment path) t :=
  h.segmentStep rfl (.of_entries rfl (entries_finalizeSegment s path))
    (h.layout.of_entries (entries_finalizeSegment s path))

lemma removeSegment (path : String) : Sim (s.removeSegment path) t :=
  h.segmentStep rfl (.of_entries rfl (entries_removeSegment s path))
    (h.layout.of_entries (entries_removeSegment s path))

/-- Rows, files and segments stay. -/
theorem frame {t' : State} (hraw : s'.rawFiles = s.rawFiles) (hsegments : s'.segments = s.segments)
    (hrows : s'.rows = s.rows) (hunlinked : s'.unlinked = s.unlinked)
    (hraw' : t'.rawFiles = t.rawFiles) (hrows' : t'.rows = t.rows)
    (hunlinked' : t'.unlinked = t.unlinked) (hobserved : t'.observed = s'.observed)
    (hcalls : ∀ i, CallSim (s'.calls i) (t'.calls i))
    (hmigrations : ∀ x ∈ s'.migrations, x ∈ s.migrations ∨ Faithful s t x) : Sim s' t' := by
  have hgrow : Grows s s' := .of_eq hraw hsegments
  exact
    { rawFiles := by rw [hraw, hraw', h.rawFiles]
      observed := hobserved
      unlinked := hunlinked.trans h.unlinked
      unlinked' := hunlinked'.trans h.unlinked'
      rows := fun key => by
        rw [hrows, hrows']
        exact (h.rows key).mono hgrow
      calls := hcalls
      layout := h.layout.of_entries fun p => by rw [hsegments]
      migrations := fun x hx => by
        have hx' : Faithful s t x := (hmigrations x hx).elim (h.migrations x) id
        exact hx'.mono hgrow fun _ _ key _ hrow _ => ⟨hrows ▸ hrow, congrFun hrows' key⟩ }

/-- Migrations and the deletion queue are not compared. -/
theorem setMigrations (migrations : List Migration) (queued : List String)
    (hx : ∀ x ∈ migrations, x ∈ s.migrations ∨ Faithful s t x) :
    Sim { s with migrations := migrations, queued := queued } t :=
  h.frame rfl rfl rfl rfl rfl rfl rfl h.observed h.calls hx

variable {x : Migration}

lemma setMigration (hx : Faithful s t x) : Sim (s.setMigration m x) t :=
  h.setMigrations _ s.queued fun y hy => by
    rcases List.mem_or_eq_of_mem_set hy with hold | rfl
    · exact .inl hold
    · exact .inr hx

lemma queueFile (path : String) (hx : Faithful s t x) : Sim ((s.queue path).setMigration m x) t :=
  h.setMigrations _ (path :: s.queued) fun y hy => by
    rcases List.mem_or_eq_of_mem_set hy with hold | rfl
    · exact .inl hold
    · exact .inr hx

lemma addMigration (hx : Faithful s t x) : Sim (s.addMigration x) t :=
  h.setMigrations _ s.queued fun y hy => by
    rcases List.mem_append.mp hy with hold | hnew
    · exact .inl hold
    · exact .inr (List.mem_singleton.mp hnew ▸ hx)

lemma faithful (hx : s.migrations[m]? = some x) : Faithful s t x :=
  h.migrations x (List.mem_of_getElem? hx)

end Sim

/-! ### Batches -/

variable {s t : State} {e : Event}

/-- The rows after a batch match if the moved rows do: a merge that finds another row than it was
built from leaves it, and one that finds none leaves a tombstone. -/
theorem rowSim_applyMerges {wb : List (String × ValueMessage)}
    (hwb : ∀ key op, (key, op) ∈ wb → Background op ∧ op.valueType = .segment)
    (hcross : ∀ key op key' op', (key, op) ∈ wb → (key', op') ∈ wb →
      op.segmentPath ≠ op'.rawFilePath) (rows : String → Option ValueMessage)
    (hempty : ∀ key op, (key, op) ∈ wb → rows key ≠ some {})
    (htarget : ∀ key op row, (key, op) ∈ wb → rows key = some row → pathMatches row op = true →
      RowSim s key (some (migrated row op)) (t.rows key))
    (hrows : ∀ key, RowSim s key (rows key) (t.rows key)) (key : String) :
    RowSim s key (applyMerges rows wb key) (t.rows key) := by
  induction wb generalizing rows with
  | nil => exact hrows key
  | cons e wb ih =>
    obtain ⟨k, op⟩ := e
    obtain ⟨hop, hsegment⟩ := hwb k op List.mem_cons_self
    have hbase : baseOf (rows k) = rows k := by
      simp [baseOf, hempty k op List.mem_cons_self]
    -- What the first merge leaves at its key.
    have hmerged : (rows k = none ∧ mergeRow (rows k) [op] = tombstone 0) ∨
        rows k = some (mergeRow (rows k) [op]) ∨
        ∃ row, rows k = some row ∧ pathMatches row op = true ∧
          mergeRow (rows k) [op] = migrated row op := by
      rcases mergeRow_migration hop.opType hsegment (rows k) with hkept | hmoved
      · rw [hbase] at hkept
        cases hrow : rows k with
        | none => exact .inl ⟨rfl, by rw [hrow] at hkept; exact hkept⟩
        | some row => exact .inr (.inl (by rw [hrow] at hkept; rw [hkept]; rfl))
      · exact .inr (.inr hmoved)
    rw [applyMerges_cons]
    refine ih (fun k' op' h' => hwb k' op' (List.mem_cons_of_mem _ h'))
      (fun k' op' k'' op'' h' h'' => hcross k' op' k'' op'' (List.mem_cons_of_mem _ h')
        (List.mem_cons_of_mem _ h'')) _ ?_ ?_ ?_
    · intro k' op' h'
      by_cases hk : k' = k
      · subst hk
        rw [Function.update_self]
        rcases hmerged with ⟨-, htomb⟩ | hkept | ⟨row, -, -, hmoved⟩
        · rw [htomb]
          decide
        · rw [← hkept]
          exact hempty k' op List.mem_cons_self
        · rw [hmoved]
          intro hdefault
          have htype := congrArg ValueMessage.valueType (Option.some.inj hdefault)
          simp [migrated, hsegment] at htype
      · rw [Function.update_of_ne hk]
        exact hempty k' op' (List.mem_cons_of_mem _ h')
    · intro k' op' row' h' hrow' hmatch
      by_cases hk : k' = k
      · subst hk
        rw [Function.update_self, Option.some.injEq] at hrow'
        rcases hmerged with ⟨-, htomb⟩ | hkept | ⟨row, -, -, hmoved⟩
        · rw [← hrow', htomb] at hmatch
          exact absurd hmatch (by simp [pathMatches, tombstone])
        · exact htarget k' op' row' (List.mem_cons_of_mem _ h') (by rw [hkept, hrow']) hmatch
        · -- The row is at its new place, which no merge of the batch moves rows away from.
          rw [← hrow', hmoved] at hmatch
          have hplace : op.segmentPath = op'.rawFilePath := by
            simpa [pathMatches, migrated, hsegment] using hmatch
          exact absurd hplace (hcross k' op k' op' List.mem_cons_self (List.mem_cons_of_mem _ h'))
      · rw [Function.update_of_ne hk] at hrow'
        exact htarget k' op' row' (List.mem_cons_of_mem _ h') hrow' hmatch
    · intro k'
      by_cases hk : k' = k
      · subst hk
        rw [Function.update_self]
        rcases hmerged with ⟨hnone, htomb⟩ | hkept | ⟨row, hrow, hmatch, hmoved⟩
        · have hrow := hrows k'
          rw [hnone] at hrow
          rw [htomb, hrow.eq_none]
          exact .buried
        · rw [← hkept]
          exact hrows k'
        · rw [hmoved]
          exact htarget k' op row List.mem_cons_self hrow hmatch
      · rw [Function.update_of_ne hk]
        exact hrows k'

/-! ### Conditions -/

/-- The steps of `Put`, `DeleteKey` and `Get` and of migrations. Files that are queued stay on disk,
the clock is past the tombstone mark and expiries are not the mark itself. -/
def inScope : Event → Bool
  | .get key now => key ≠ "" ∧ 1 ≤ now
  | .putWrite _ _ _ expiry _ _ => expiry ≠ tombstoneExpiry
  | .putRead _ | .putCommit .. | .deleteRead .. | .deleteCommit .. | .reclaim _ => true
  | e => e.isMigration

/-- No batch that is committed has a merge for a key whose row is stored as no bytes at all. -/
def sparesEmpty (s : State) : Event → Bool
  | .compactCommit m true | .compactFinish m true | .recompactCommit m true =>
    (s.migrations[m]?).all fun x => x.staged.all fun e => s.rows e.1 ≠ some {}
  | _ => true

/-- A `DeleteKey` that read the tombstone of a stale merge finds no newer row at its commit. -/
def sparesNewer (s : State) : Event → Bool
  | .deleteCommit i true =>
    match s.calls i with
    | .deleting key read =>
      read = tombstone 0 → s.rows key = none ∨ s.rows key = some (tombstone 0)
    | _ => true
  | _ => true

/-- The conditions on a step together. -/
def erasable (s : State) (e : Event) : Bool :=
  inScope e && published s e && sparesEmpty s e && sparesNewer s e

lemma staged_ne_of_all {m : Nat}
    (h : ((s.migrations[m]?).all fun x => x.staged.all fun e => s.rows e.1 ≠ some {}) = true)
    (x : Migration) (hx : s.migrations[m]? = some x) : ∀ e ∈ x.staged, s.rows e.1 ≠ some {} := by
  intro e he
  simp only [hx, Option.all_some, List.all_eq_true] at h
  exact of_decide_eq_true (h e he)

section Steps

variable {s s' t : State} {m : Nat}

variable {key path : String} {offset : Int64} {x : Migration}

variable {y : Migration} {dropped : List (String × String)} {c : Compaction} {row : ValueMessage}
  {entry : Entry}

/-- No row comes to a path that a migration moves rows away from: it is a raw file that another row
had, or a segment that is being emptied. -/
theorem origins_ne_of_staged (h : Sim s t) (hI : Sound s) (hx : x ∈ s.migrations)
    (hy : y ∈ s.migrations) {p : String} {op : ValueMessage} (he : (key, op) ∈ x.staged)
    (hplace : segmentPlace op = some (p, offset)) : p ∉ y.origins := by
  obtain ⟨⟨seg, _, hseg, -⟩, hkeep⟩ := hI.tracked.staged x hx key op p offset he hplace
  intro hp
  rcases List.mem_append.mp hp with hpending | hempties
  · have hfile := (h.migrations y hy).files p hpending
    simp [(hI.ownership.names p (by simp [hseg])).2] at hfile
  · exact hkeep y hy (by simpa using hempties)

/-- A migration commits its batch. -/
theorem Sim.commit (h : Sim s t) (hI : Sound s) (hx : s.migrations[m]? = some x)
    (hempty : ∀ e ∈ x.staged, s.rows e.1 ≠ some {})
    (hy : Faithful (s.commitBatch x.staged dropped) t y) :
    Sim ((s.commitBatch x.staged dropped).setMigration m y) t := by
  have hmem : x ∈ s.migrations := List.mem_of_getElem? hx
  have hok := hI.ownership.migrationOk hx
  have hgrow : Grows s (s.commitBatch x.staged dropped) := .of_eq rfl rfl
  have hplace : ∀ key op, (key, op) ∈ x.staged →
      segmentPlace op = some (op.segmentPath, op.segmentOffset) := by
    intro key op he
    simp [segmentPlace, ((h.migrations x hmem).origin key op he).1]
  have hcommitted : Sim (s.commitBatch x.staged dropped) t := by
    refine { h with rows := fun key => ?_, layout := h.layout, migrations := fun z hz => ?_ }
    · refine RowSim.mono ?_ hgrow
      refine rowSim_applyMerges
        (fun key op he => ⟨hok.staged key op he, ((h.migrations x hmem).origin key op he).1⟩)
        (fun k op k' op' he he' heq => ?_) s.rows (fun k op he => hempty (k, op) he)
        (h.migrations x hmem).target h.rows key
      exact origins_ne_of_staged h hI hmem hmem he (hplace k op he)
        (heq ▸ ((h.migrations x hmem).origin k' op' he').2)
    · refine (h.migrations z hz).mono hgrow fun p hp k row hrow hlocated => ⟨?_, rfl⟩
      rcases hlocated with hraw | ⟨offset, hseg⟩
      · rcases applyMerges_cases hok.staged s.rows hrow with hkept | ⟨hnone, -⟩
        · exact hkept
        · simp [hnone] at hraw
      · rcases applyMerges_place hok.staged s.rows hrow hseg with hkept | ⟨op, he, hop⟩
        · exact hkept
        · exact absurd hp (origins_ne_of_staged h hI hmem hz he hop)
  exact hcommitted.setMigration hy

/-! ### Compaction -/

lemma faithful_finishing (ready : List String) : Faithful s t (.finishing ready) :=
  faithful_of_staged_nil rfl (by simp) rfl (.inl rfl)

variable (h : Sim s t)

include h

/-- While all files are on disk, looking at an index row stages nothing. -/
theorem processed_spec (hI : Sound s) (hentry : Indexed s key path)
    (hx : Processed s c key path x) : x.staged = c.wb ∧ x.pending = c.pending ∧ x.ahead = [] := by
  cases hx with
  | stale | moved | copying => exact ⟨rfl, rfl, rfl⟩
  | short hrow hpath hlength =>
    -- A row says how long its file is.
    exact absurd ((hI.ownership.rows key _ hrow).stored.backed path hpath) hlength
  | missing hfile => exact absurd (by simp [State.hasFile, hentry.file, h.unlinked]) hfile

/-- The merge that the compactor stages for a copied file. -/
theorem faithful_copy (hI : Sound s)
    (hm : s.migrations[m]? = some (.copying c key path row)) (hfree : s.freeAt c.seg offset = true)
    (hs' : s.writeEntry c.seg ⟨key, offset, (s.rawFiles path).getD []⟩ = some s')
    {ready : List String} (hsim : Sim s' t) :
    Faithful s' t (.compacting { c with
      wb := c.wb ++ [(key, compactionOperand row c.seg offset)]
      dropped := dropped, pending := c.pending ++ [path], ready := ready }) := by
  obtain ⟨seg, hfound, hentry⟩ := (h.layout.writeEntry hs' hfree).2
  have heq := State.writeEntry_eq hs'
  have hrows : s'.rows = s.rows := by rw [heq]
  have hraw : s'.rawFiles = s.rawFiles := by rw [heq]
  have hold : Faithful s' t (.copying c key path row) :=
    hsim.faithful (by rw [heq]; exact hm)
  have hok := hI.ownership.migrationOk hm
  have hknown : Known s key row := hok.knows key row (by simp)
  have hpath : rawPath row = some path := hok.wf
  obtain ⟨data, hdata⟩ := Option.isSome_iff_exists.mp (hknown.indexed hpath).file
  refine ⟨?_, ?_, ?_, by simp, by simp⟩
  · intro k op he
    rcases List.mem_append.mp he with he | he
    · obtain ⟨htype, horigin⟩ := hold.origin k op he
      refine ⟨htype, ?_⟩
      simp only [Migration.origins, Migration.pending, Migration.empties] at horigin ⊢
      simp only [Option.toList_none, List.append_nil] at horigin ⊢
      exact List.mem_append_left _ horigin
    · simp only [List.mem_singleton, Prod.mk.injEq] at he
      obtain ⟨rfl, rfl⟩ := he
      have hfile : row.rawFilePath = path := by
        have : row.valueType = .rawFile ∧ row.rawFilePath = path := by simpa [rawPath] using hpath
        exact this.2
      exact ⟨rfl, by simp [compactionOperand, hfile]⟩
  · intro p hp
    rcases List.mem_append.mp hp with hp | hp
    · exact hold.files p hp
    · rw [List.mem_singleton.mp hp, hraw, hdata]
      rfl
  · intro k op q he hq hmatch
    rcases List.mem_append.mp he with he | he
    · exact hold.target k op q he hq hmatch
    · simp only [List.mem_singleton, Prod.mk.injEq] at he
      obtain ⟨rfl, rfl⟩ := he
      rw [hrows] at hq
      have hfile : row.valueType = .rawFile ∧ row.rawFilePath = path := by
        simpa [rawPath] using hpath
      -- The row at hand is the one the run read.
      have hqrow : q = row := by
        have hlocated : Located q path := hfile.2 ▸ located_of_pathMatches hmatch
        rcases hlocated with hqraw | ⟨o, hqseg⟩
        · exact (hknown.only path hpath k q hq hqraw).2
        · obtain ⟨sg, _, hsg, -⟩ := hI.tracked.rows k q path o hq hqseg
          have hnone := (hI.ownership.names path (by simp [hsg])).2
          simp [hdata] at hnone
      subst hqrow
      have hrow := h.rows k
      rw [hq] at hrow
      obtain ⟨ht, hlive⟩ := hrow.eq_some hpath
      rw [ht]
      exact .moved
        { place := rfl
          raw := hpath
          path_ne := hknown.stored.path path hpath
          found := ⟨seg, hfound, hentry⟩
          nonneg := (of_decide_eq_true hfree).1
          key_eq := rfl
          data := by simp [hraw, hdata]
          expiry := rfl
          length := rfl
          live := hlive }

lemma Sim.writeEntry (hfree : s.freeAt path entry.offset = true)
    (hs' : s.writeEntry path entry = some s') : Sim s' t :=
  h.segmentStep (State.writeEntry_eq hs') (grows_writeEntry hs') (h.layout.writeEntry hs' hfree).1

lemma sim_recompactStart {old seg : String} {oldSeg : Segment}
    (hold : s.segments old = some oldSeg) (hs' : s.acquire seg = some s') :
    Sim (s'.addMigration (.recompacting ⟨old, seg, [], oldSeg.entries, false⟩)) t := by
  obtain ⟨seg', hseg', hext⟩ := (grows_acquire hs').segments old oldSeg hold
  refine (h.acquire hs').addMigration ⟨by simp, by simp,
    by simp, fun o ho e he => ?_, by simp⟩
  obtain rfl : old = o := by simpa using ho
  exact ⟨seg', hseg', hext.subset he⟩

/-- The merge that the recompactor stages for a copied entry. -/
theorem faithful_recopy (hI : Sound s) {r : Recompaction}
    (hm : s.migrations[m]? = some (.moving r entry row)) (hfree : s.freeAt r.seg offset = true)
    (hs' : s.writeEntry r.seg ⟨entry.key, offset, entry.data⟩ = some s') (hsim : Sim s' t) :
    Faithful s' t (.recompacting { r with
      wb := r.wb ++ [(entry.key, recompactionOperand row r.seg offset)] }) := by
  obtain ⟨seg, hfound, hentry⟩ := (h.layout.writeEntry hs' hfree).2
  have heq := State.writeEntry_eq hs'
  have hrows : s'.rows = s.rows := by rw [heq]
  have hraw : s'.rawFiles = s.rawFiles := by rw [heq]
  have hold : Faithful s' t (.moving r entry row) := hsim.faithful (by rw [heq]; exact hm)
  have hok := hI.ownership.migrationOk hm
  have hplace : segmentPlace row = some (r.old, entry.offset) := hok.wf
  have hrow : row.valueType = .segment ∧ row.segmentPath = r.old ∧
      row.segmentOffset = entry.offset := by simpa [segmentPlace] using hplace
  refine ⟨?_, by simp, ?_, ?_, by simp⟩
  · intro k op he
    rcases List.mem_append.mp he with he | he
    · exact hold.origin k op he
    · simp only [List.mem_singleton, Prod.mk.injEq] at he
      obtain ⟨rfl, rfl⟩ := he
      exact ⟨hrow.1, by
        simp [recompactionOperand, hrow.2.1]⟩
  · intro k op q he hq hmatch
    rcases List.mem_append.mp he with he | he
    · exact hold.target k op q he hq hmatch
    · simp only [List.mem_singleton, Prod.mk.injEq] at he
      obtain ⟨rfl, rfl⟩ := he
      rw [hrows] at hq
      -- The row at hand is the one the pass read.
      have hqrow : q = row := by
        have hlocated : Located q r.old := hrow.2.1 ▸ located_of_pathMatches hmatch
        rcases hlocated with hqraw | ⟨o, hqseg⟩
        · have hun := hI.ownership.unreferenced_segment (hok.empties r.old rfl)
          exact absurd hqraw (hun.none entry.key q hq)
        · exact (h.faithful hm).current entry.key row (by simp) r.old rfl q o hq
            hqseg
      subst hqrow
      have hrowSim := h.rows entry.key
      rw [hq] at hrowSim
      obtain ⟨put, file, entry', ht, hcopy⟩ := hrowSim.copy hplace
      -- The copy is of the entry that the pass has.
      have hsame : entry' = entry := by
        obtain ⟨sg, hsg, hat⟩ := hcopy.found
        obtain ⟨sg', hsg', hmem⟩ := (h.faithful hm).ahead r.old rfl entry
          (by simp)
        obtain rfl : sg = sg' := Option.some.inj (hsg.symm.trans hsg')
        have hlayout := (h.layout r.old sg hsg entry hmem).1
        exact Option.some.inj (hat.symm.trans hlayout)
      subst hsame
      rw [ht]
      exact .moved
        { place := by simp [segmentPlace, migrated, recompactionOperand, hrow.1]
          raw := hcopy.raw
          path_ne := hcopy.path_ne
          found := ⟨seg, hfound, hentry⟩
          nonneg := (of_decide_eq_true hfree).1
          key_eq := rfl
          data := by rw [hraw]; exact hcopy.data
          expiry := hcopy.expiry
          length := hcopy.length
          live := hcopy.live }
  · exact fun o ho e he => hold.ahead o ho e (List.mem_cons_of_mem _ he)

/-- A move of a migration is matched by no step. -/
theorem sim_migrationMove (hI : Sound s) {e : Event} (hempty : sparesEmpty s e = true)
    (hmove : MigrationMove s e s') : Sim s' t := by
  cases hmove with
  | idle => exact h
  | compactStart hs' =>
    exact (h.acquire hs').addMigration
      (faithful_of_staged_nil rfl (by simp) rfl (.inl rfl))
  | compactNext hm _ hx =>
    have hentry := (hI.ownership.migrationOk hm).entries _ _ List.mem_cons_self
    obtain ⟨hstaged, hpending, hahead⟩ := processed_spec h hI hentry hx
    refine h.setMigration ((h.faithful hm).reposition (fun e he => ?_) hpending
      (empties_processed hx) (hahead ▸ nofun) fun _ _ _ => .inr (.inr (empties_processed hx)))
    rwa [hstaged] at he
  | compactSkip hm | leave _ hm =>
    exact h.setMigration ((h.faithful hm).reposition (fun _ he => he) rfl rfl (fun _ he => he)
      (by simp))
  | compactCopy hm hfree hs' =>
    have hsim := h.writeEntry hfree hs'
    exact hsim.setMigration (faithful_copy h hI hm hfree hs' hsim)
  | compactCommit hm =>
    exact h.commit hI hm (staged_ne_of_all hempty _ hm)
      (faithful_of_staged_nil rfl (by simp) rfl (.inl rfl))
  | @compactRoll m c key path seg row s' hm _ hs' =>
    have hsim : Sim s' t := (h.finalizeSegment c.seg).acquire hs'
    have hm' : s'.migrations[m]? = some (.rolling c key path row) := by rwa [State.acquire_eq hs']
    exact hsim.setMigration ((hsim.faithful hm').reposition (fun _ he => he) rfl rfl
      (fun _ he => he) fun _ _ _ => .inr (.inr rfl))
  | compactFinish hm => exact h.commit hI hm (staged_ne_of_all hempty _ hm) (faithful_finishing _)
  | recompactStart hold _ hs' => exact sim_recompactStart h hold hs'
  | recompactNext hm hrow =>
    refine h.setMigration ((h.faithful hm).reposition (fun _ he => he) rfl rfl (fun _ he => he)
      fun key q he => .inr (.inl ?_))
    simp only [Migration.knows, List.mem_singleton, Prod.mk.injEq] at he
    obtain ⟨rfl, rfl⟩ := he
    exact hrow
  | recompactSkip hm | recompactFails hm =>
    exact h.setMigration ((h.faithful hm).reposition (fun _ he => he) rfl rfl
      (fun _ he => List.mem_cons_of_mem _ he) (by simp))
  | @recompactRoll m r entry row seg s' hm hs' =>
    have hsim : Sim s' t := (h.finalizeSegment r.seg).acquire hs'
    have hm' : s'.migrations[m]? = some (.moving r entry row) := by rwa [State.acquire_eq hs']
    exact hsim.setMigration ((hsim.faithful hm').reposition (fun _ he => he) rfl rfl
      (fun _ he => he) fun _ _ he => .inl he)
  | recompactCopy hm hfree hs' =>
    have hsim := h.writeEntry hfree hs'
    exact hsim.setMigration (faithful_recopy h hI hm hfree hs' hsim)
  | recompactCommit hm =>
    refine h.commit hI hm (staged_ne_of_all hempty _ hm) ?_
    split
    · exact faithful_finishing _
    · exact faithful_of_staged_nil rfl (by simp) rfl (.inr rfl)
  | recompactRemove => exact (h.removeSegment _).setMigration (faithful_finishing _)
  | queueReady hm =>
    exact h.queueFile _ ((h.faithful hm).reposition (fun _ he => he) rfl rfl (fun _ he => he)
      (by simp))
  | queueRolling hm =>
    exact h.queueFile _ ((h.faithful hm).reposition (fun _ he => he) rfl rfl (fun _ he => he)
      fun _ _ _ => .inr (.inr rfl))
  | queueFinishing => exact h.queueFile _ (faithful_finishing _)
  | cancel => exact h.setMigration (faithful_finishing _)

end Steps

/-! ## Steps of calls -/

section Calls

variable {s t : State} {i : Nat}

/-- A path that a migration moves rows away from is on no row that is yet to be written. -/
theorem settled_of_origins (hI : Sound s) {x : Migration} (hx : x ∈ s.migrations) {p : String}
    (hp : p ∈ x.origins) : Settled s p := by
  have hok := hI.ownership.migrations x hx
  rcases List.mem_append.mp hp with hpending | hempties
  · rcases hok.pending p hpending with hun | ⟨hset, -⟩
    · exact hun.settled
    · exact hset
  · exact (hI.ownership.unreferenced_segment (hok.empties p (by simpa using hempties))).settled

namespace Sim

/-- The calls go on together and no row changes. -/
theorem setCalls (h : Sim s t) {c c' : Call} (hc : CallSim c c') :
    Sim (s.setCall i c) (t.setCall i c') := by
  refine h.frame rfl rfl rfl rfl rfl rfl rfl h.observed (fun j => ?_) fun _ hx => .inl hx
  by_cases hj : j = i
  · subst hj
    simpa using hc
  · simpa [hj] using h.calls j

/-- The compaction index and the deletion queue are not compared. -/
theorem setIndex (h : Sim s t) (index index' : List (String × String))
    (queued queued' : List String) :
    Sim { s with compactionIndex := index, queued := queued }
      { t with compactionIndex := index', queued := queued' } :=
  h.frame rfl rfl rfl rfl rfl rfl rfl h.observed h.calls fun _ hx => .inl hx

/-- Both runs write a row that no migration can take for the one it read. -/
theorem setRow (h : Sim s t) {key : String} {row row' : Option ValueMessage}
    (hrow : RowSim s key row row')
    (hnew : ∀ x ∈ s.migrations, ∀ p ∈ x.origins, ∀ r, row = some r → ¬Located r p) :
    Sim (s.setRow key row) (t.setRow key row') := by
  have hgrow : Grows s (s.setRow key row) := .of_eq rfl rfl
  exact { h with
    rows := fun k => by
      by_cases hk : k = key
      · subst hk
        simpa using hrow.mono hgrow
      · simpa [hk] using (h.rows k).mono hgrow
    layout := h.layout
    migrations := fun x hx => by
      refine (h.migrations x hx).mono hgrow fun p hp k r hr hlocated => ?_
      by_cases hk : k = key
      · subst hk
        exact absurd hlocated (hnew x hx p hp r (by simpa using hr))
      · simpa [hk] using hr }

/-- Both runs write a new raw file. -/
theorem writeRaw (h : Sim s t) {cfg : Config} {data : List UInt8} {path : String}
    {checksum : UInt32} (hfresh : s.rawFiles path = none) :
    Sim (s.writeRaw (cfg.payload data path checksum) data)
      (t.writeRaw (cfg.payload data path checksum) data) := by
  have hgrow : Grows s (s.writeRaw (cfg.payload data path checksum) data) := by
    refine ⟨fun p d hd => ?_, fun p seg hseg => ⟨seg, hseg, List.prefix_refl _⟩⟩
    have hp : p ≠ path := by
      rintro rfl
      simp [hfresh] at hd
    rw [writeRaw_rawFiles_of_ne hp]
    exact hd
  exact { h with
    rawFiles := by
      unfold State.writeRaw
      split
      · exact h.rawFiles
      · simp [h.rawFiles]
    rows := fun key => (h.rows key).mono hgrow
    layout := h.layout
    migrations := fun x hx =>
      (h.migrations x hx).mono hgrow fun _ _ _ _ hrow _ => ⟨hrow, rfl⟩ }

end Sim

variable {key : String}

variable (h : Sim s t)

include h

lemma sim_get (hI : Sound s) {now : Int64} (hkey : key ≠ "") (hnow : 1 ≤ now) :
    Sim { s with observed := get s key now :: s.observed }
      { t with observed := get t key now :: t.observed } := by
  have hget := get_eq_of_rowSim hI (h.rows key) h.rawFiles h.unlinked h.unlinked' hkey hnow
  exact h.frame rfl rfl rfl rfl rfl rfl rfl (by simp [hget, h.observed]) h.calls fun _ hx => .inl hx

variable {cfg : Config} {ok : Bool}

lemma sim_putWrite {path : String} {data : List UInt8} {expiry : Int64} {checksum : UInt32}
    (hlive : expiry ≠ tombstoneExpiry) (hfresh : s.rawFiles path = none) :
    Sim (putWrite cfg s i key data expiry path checksum)
      (putWrite cfg t i key data expiry path checksum) := by
  have hrow : (putRow (cfg.payload data path checksum) expiry).expiry ≠ tombstoneExpiry := by
    cases cfg.payload data path checksum <;> exact hlive
  unfold putWrite
  have hsim := h.calls i
  generalize hc : s.calls i = c at hsim ⊢
  generalize hc' : t.calls i = c' at hsim ⊢
  cases hsim with
  | idle => exact (h.writeRaw hfresh).setCalls (.putWritten key hrow)
  | _ => exact h

lemma sim_putRead : Sim (putRead s i) (putRead t i) := by
  unfold putRead
  have hsim := h.calls i
  generalize hc : s.calls i = c at hsim ⊢
  generalize hc' : t.calls i = c' at hsim ⊢
  cases hsim with
  | putWritten key hlive => exact h.setCalls (.putRead key _ _ hlive)
  | _ => exact h

lemma sim_putCommit (hI : Sound s) : Sim (putCommit cfg s i ok) (putCommit cfg t i ok) := by
  unfold putCommit
  have hsim := h.calls i
  generalize hc : s.calls i = c at hsim ⊢
  generalize hc' : t.calls i = c' at hsim ⊢
  cases hsim with
  | putRead key prev prev' hlive =>
    rename_i row
    cases ok with
    | false => exact h.setCalls (.reclaiming _ _)
    | true =>
      have hwrites : (s.calls i).writes = some row := by rw [hc]; rfl
      have hplain : segmentPlace row = none := ((hI.ownership.calls i).writes row hwrites).plain
      have hrow : Sim (s.setRow key (some row)) (t.setRow key (some row)) := by
        refine h.setRow (.same hplain hlive) fun x hx p hp r hr => ?_
        obtain rfl := Option.some.inj hr
        rintro (hraw | ⟨offset, hplace⟩)
        · exact (settled_of_origins hI hx hp).free i _ hwrites hraw
        · simp [hplain] at hplace
      exact (hrow.setIndex _ _ _ _).setCalls (.reclaiming _ _)
  | _ => exact h

lemma sim_deleteRead : Sim (deleteRead s i key) (deleteRead t i key) := by
  unfold deleteRead
  have hsim := h.calls i
  generalize hc : s.calls i = c at hsim ⊢
  generalize hc' : t.calls i = c' at hsim ⊢
  cases hsim with
  | idle =>
    have hrows := h.rows key
    generalize s.rows key = row at hrows ⊢
    generalize t.rows key = row' at hrows ⊢
    cases hrows with
    | absent => exact h.setCalls (.reclaiming _ _)
    | buried => exact h.setCalls (.returned key)
    | same | moved => exact h.setCalls (.deleting key _ _)
  | _ => exact h

/-- A `DeleteKey` that read the tombstone of a stale merge must not find a newer row. -/
theorem sim_deleteCommit (hsame : ok = true → ∀ key, s.calls i = .deleting key (tombstone 0) →
      s.rows key = none ∨ s.rows key = some (tombstone 0)) :
    Sim (deleteCommit s i ok) (deleteCommit t i ok) := by
  unfold deleteCommit
  generalize hc : s.calls i = c at hsame
  generalize hc' : t.calls i = c'
  have hsim := h.calls i
  rw [hc, hc'] at hsim
  cases hsim with
  | deleting key read read' =>
    cases ok with
    | false => exact h.setCalls (.reclaiming _ _)
    | true => exact (h.setRow (.absent : RowSim s key none none) (by simp)).setCalls (.reclaiming _ _)
  | returned key =>
    -- The call is over in the run without migrations, where the key has no row.
    have ht : t.setCall i (.reclaiming []) = t := by
      simp [← hc']
    cases ok with
    | false => exact ht ▸ h.setCalls (.reclaiming [] [])
    | true =>
      have hnone : t.rows key = none := by
        have hrows := h.rows key
        rcases hsame rfl key rfl with hrow | hrow
        · rw [hrow] at hrows
          exact hrows.eq_none
        · rw [hrow] at hrows
          generalize t.rows key = row' at hrows
          cases hrows with
          | buried => rfl
          | same _ hlive => exact absurd rfl hlive
          | moved hcopy =>
            have hplace := hcopy.place
            simp [segmentPlace, tombstone] at hplace
      have htrow : t.setRow key none = t := by
        simp [← hnone]
      have hrow : Sim (s.setRow key none) (t.setRow key none) := h.setRow .absent (by simp)
      rw [htrow] at hrow
      have hdone := hrow.setCalls (.reclaiming [] []) (i := i)
      rwa [ht] at hdone
  | _ => exact h

lemma sim_reclaim : Sim (reclaim s i) (reclaim t i) := by
  unfold reclaim
  have hsim := h.calls i
  generalize hc : s.calls i = c at hsim ⊢
  generalize hc' : t.calls i = c' at hsim ⊢
  cases hsim with
  | reclaiming paths paths' =>
    have hs : ∀ ps, Sim (s.setCall i (.reclaiming ps)) t := by
      intro ps
      have := h.setCalls (.reclaiming ps paths') (i := i)
      rwa [show t.setCall i (.reclaiming paths') = t by simp [← hc']] at this
    have ht : ∀ ps, Sim s (t.setCall i (.reclaiming ps)) := by
      intro ps
      have := h.setCalls (.reclaiming paths ps) (i := i)
      rwa [show s.setCall i (.reclaiming paths) = s by simp [← hc]] at this
    cases paths with
    | nil =>
      cases paths' with
      | nil => exact h
      | cons p' ps' => exact (ht ps').setIndex s.compactionIndex t.compactionIndex s.queued _
    | cons p ps =>
      cases paths' with
      | nil => exact (hs ps).setIndex s.compactionIndex t.compactionIndex _ t.queued
      | cons p' ps' =>
        exact (h.setIndex s.compactionIndex t.compactionIndex _ _).setCalls (.reclaiming ps ps')
  | _ => exact h

end Calls

/-! ## Runs -/

/-- A step of a call is matched by the same step. -/
theorem sim_call (cfg : Config) (h : Sim s t) (hI : Sound s) (hscope : inScope e = true)
    (hfresh : freshNames s e = true) (hnewer : sparesNewer s e = true)
    (he : e.isMigration = false) : Sim (step cfg s e) (step cfg t e) := by
  cases e with
  | get key now =>
    have hcond := of_decide_eq_true hscope
    exact sim_get h hI hcond.1 hcond.2
  | putWrite i key data expiry path checksum =>
    exact sim_putWrite h (of_decide_eq_true hscope) (of_decide_eq_true hfresh).2.1
  | putRead i => exact sim_putRead h
  | putCommit i ok => exact sim_putCommit h hI
  | deleteRead i key => exact sim_deleteRead h
  | deleteCommit i ok =>
    refine sim_deleteCommit h fun hok key hcall => ?_
    subst hok
    simp only [sparesNewer, hcall] at hnewer
    simpa using hnewer
  | reclaim i => exact sim_reclaim h
  | _ => simp_all [inScope, Event.isMigration]

lemma erasable_iff : erasable s e = true ↔
    inScope e = true ∧ freshNames s e = true ∧ publishedFirst s e = true ∧
      sparesEmpty s e = true ∧ sparesNewer s e = true := by
  simp only [erasable, published, Bool.and_eq_true, and_assoc]

lemma sound_of_erasable (cfg : Config) (h : Sound s) (hok : erasable s e = true) :
    Sound (step cfg s e) := by
  have hcond := erasable_iff.mp hok
  refine sound_step cfg h ?_
  simp only [published, hcond.2.1, hcond.2.2.1, Bool.and_true]

lemma sound_sim_call (cfg : Config) (h : Sound s ∧ Sim s t) (hok : erasable s e = true)
    (he : e.isMigration = false) : Sound (step cfg s e) ∧ Sim (step cfg s e) (step cfg t e) := by
  have hcond := erasable_iff.mp hok
  exact ⟨sound_of_erasable cfg h.1 hok,
    sim_call cfg h.2 h.1 hcond.1 hcond.2.1 hcond.2.2.2.2 he⟩

lemma sound_sim_migration (cfg : Config) (h : Sound s ∧ Sim s t) (hok : erasable s e = true)
    (he : e.isMigration = true) : Sound (step cfg s e) ∧ Sim (step cfg s e) t :=
  ⟨sound_of_erasable cfg h.1 hok,
    sim_migrationMove h.2 h.1 (erasable_iff.mp hok).2.2.2.1 (migrationMove_step he)⟩

lemma sim_init : Sim State.init State.init where
  rawFiles := rfl
  observed := rfl
  unlinked := rfl
  unlinked' := rfl
  rows _ := .absent
  calls _ := .idle
  layout := by simp [Layout]
  migrations := by simp

/-- In every run that meets the conditions, the `Get` calls return what they return in the same run
with all steps of migrations left out. -/
theorem observed_erase (cfg : Config) (es : List Event)
    (h : RunOk (step cfg) (fun s e => erasable s e = true) State.init es) :
    (run (step cfg) State.init es).observed =
      (run (step cfg) State.init (es.filter (!·.isMigration))).observed := by
  have hrun : Sound (run (step cfg) State.init es) ∧ Sim (run (step cfg) State.init es)
      (run (step cfg) State.init (es.filter (!·.isMigration))) := by
    refine simulation_filter (R := fun s t => Sound s ∧ Sim s t) (fun s t e hR hok hkeep => ?_)
      (fun s t e hR hok hdrop => ?_) ⟨sound_init, sim_init⟩ h
    · exact sound_sim_call cfg hR hok (by simpa using hkeep)
    · exact sound_sim_migration cfg hR hok (by simpa using hdrop)
  exact hrun.2.observed.symm

/-- A value is being compacted while an empty one replaces it. -/
def buriedRun : List Event :=
  [.putWrite 0 "a" [1, 2] 0 "r0" 0, .putRead 0, .putCommit 0 true,
    .compactStart "s0", .compactNext 0, .compactCopy 0 0,
    .putWrite 1 "a" [] 0 "r1" 0, .putRead 1, .putCommit 1 true,
    .compactFinish 0 true, .get "a" 5]

/-- The same with another value in place of the empty one; the value of the run stays. -/
def keptRun : List Event :=
  [.putWrite 0 "a" [1, 2] 0 "r0" 0, .putRead 0, .putCommit 0 true,
    .putWrite 1 "b" [3, 4] 0 "r1" 0, .putRead 1, .putCommit 1 true,
    .compactStart "s0", .compactNext 0, .compactCopy 0 0, .compactNext 0, .compactCopy 0 10,
    .putWrite 2 "a" [7] 0 "r2" 0, .putRead 2, .putCommit 2 true,
    .compactFinish 0 true, .get "a" 5, .get "b" 5]

/-- A stale merge of the compactor removes an empty value. -/
theorem stale_merge_buries_empty :
    RunOk (step ⟨1, 4⟩) (fun s e => (inScope e && published s e) = true) State.init buriedRun ∧
      (run (step ⟨1, 4⟩) State.init buriedRun).observed = [.notFound] ∧
      (run (step ⟨1, 4⟩) State.init (buriedRun.filter (!·.isMigration))).observed = [.found []] := by
  decide +kernel

theorem observed_erase_keptRun :
    RunOk (step ⟨1, 4⟩) (fun s e => erasable s e = true) State.init keptRun ∧
      (run (step ⟨1, 4⟩) State.init keptRun).observed =
        (run (step ⟨1, 4⟩) State.init (keptRun.filter (!·.isMigration))).observed := by
  have hok : RunOk (step ⟨1, 4⟩) (fun s e => erasable s e = true) State.init keptRun := by
    decide +kernel
  exact ⟨hok, observed_erase ⟨1, 4⟩ keptRun hok⟩

end OCache.Store
