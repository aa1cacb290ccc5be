import OCache.Store.OwnershipMigrations
import OCache.Store.Recovery

/-!
# Which raw files are due for compaction

The compactor finds its work in the compaction index. A put writes the index row of a medium raw
file with the metadata row; `PutIfVersion` writes it after the merge, once it knows that it has won.
The compactor deletes it with the commit that takes the file off its row. So while a process serves,
every medium raw file that a row came to reference has its index row (`Advance`, `Tracked.covered`).
But recovery deletes all index rows at the start, also those of valid files, and nothing writes them
again: what waited for compaction when the process stopped stays a raw file.
-/

namespace OCache.Store

open Merge Cas EventSystem

/-! ## What a step does to raw files -/

/-- The call has merged a row with the file and has yet to index it. -/
@[simp] def Call.books : Call → String → String → Prop
  | .casMerged k operand _, key, path => k = key ∧ rawPath operand = some path
  | .casWon k operand _, key, path => k = key ∧ rawPath operand = some path
  | _, _, _ => False

/-- A `PutIfVersion` stands between its merge and its bookkeeping batch. -/
def AwaitsIndex (s : State) (key path : String) : Prop := ∃ i, (s.calls i).books key path

/-- The index rows that the batch of a run deletes. -/
def Migration.drops : Migration → List (String × String)
  | compacting c | copying c .. | rolling c .. => c.dropped
  | _ => []

/-- No call is about to write a row with the file. -/
structure Landed (s : State) (path : String) : Prop where
  file : (s.rawFiles path).isSome
  free : ∀ i r, (s.calls i).writes = some r → rawPath r ≠ some path

/-- No row has the file, and none will. -/
structure Gone (s : State) (path : String) : Prop where
  landed : Landed s path
  none : ∀ key row, s.rows key = some row → rawPath row ≠ some path

/-- A row with a medium raw file is in the index or about to be. -/
def Due (cfg : Config) (s : State) (key path : String) (row : ValueMessage) : Prop :=
  cfg.isMedium row.valueLength = true → (key, path) ∈ s.compactionIndex ∨ AwaitsIndex s key path

/-- What a step of the store does to raw files, bookings and index rows. -/
structure Advance (cfg : Config) (s s' : State) : Prop where
  files : ∀ p, (s.rawFiles p).isSome → (s'.rawFiles p).isSome
  writes : ∀ i r p, (s'.calls i).writes = some r → rawPath r = some p →
    (s.calls i).writes = some r ∨ s.rawFiles p = none
  /-- A new row was held by a call, and its file is due. -/
  rows : ∀ key row p, s'.rows key = some row → rawPath row = some p →
    s.rows key = some row ∨ ((∃ i, (s.calls i).writes = some row) ∧ Due cfg s' key p row)
  /-- An index row goes only when its file is off the row. -/
  kept : ∀ key p, (key, p) ∈ s.compactionIndex →
    (key, p) ∈ s'.compactionIndex ∨ ∀ row, s'.rows key = some row → rawPath row ≠ some p
  /-- A booking ends with an index row, unless the row is gone. -/
  booked : ∀ i key p, (s.calls i).books key p → (s'.calls i).books key p ∨
    ∀ row, s'.rows key = some row → rawPath row = some p → Due cfg s' key p row
  bookings : ∀ i key p, (s'.calls i).books key p →
    (s.calls i).books key p ∨ ∃ r, (s.calls i).writes = some r ∧ rawPath r = some p
  index : ∀ key p, (key, p) ∈ s'.compactionIndex → (key, p) ∈ s.compactionIndex ∨
    AwaitsIndex s key p ∨ ∃ i r, (s.calls i).writes = some r ∧ rawPath r = some p
  /-- A batch deletes an index row only with the file. -/
  drops : ∀ x' ∈ s'.migrations, ∀ key p, (key, p) ∈ x'.drops →
    p ∈ x'.pending ∨ Gone s p ∨
      ∃ x ∈ s.migrations, (key, p) ∈ x.drops ∧ (p ∈ x.pending → p ∈ x'.pending)

section Advance

variable {cfg : Config} {s s' : State}

variable {p : String}

lemma Landed.advance (h : Landed s p) (hA : Advance cfg s s') : Landed s' p where
  file := hA.files p h.file
  free i r hr hp := by
    rcases hA.writes i r p hr hp with hold | hnew
    · exact h.free i r hold hp
    · have := h.file
      rw [hnew] at this
      cases this

lemma Gone.advance (h : Gone s p) (hA : Advance cfg s s') : Gone s' p where
  landed := h.landed.advance hA
  none key row hrow hp := by
    rcases hA.rows key row p hrow hp with hold | ⟨⟨i, hi⟩, -⟩
    · exact h.none key row hold hp
    · exact h.landed.free i row hi hp

lemma Unreferenced.gone (h : Unreferenced s p) (hfile : (s.rawFiles p).isSome) : Gone s p :=
  ⟨⟨hfile, h.settled.free⟩, h.none⟩

namespace Advance

lemma refl (s : State) : Advance cfg s s where
  files _ hp := hp
  writes _ _ _ hr _ := .inl hr
  rows _ _ _ hr _ := .inl hr
  kept _ _ h := .inl h
  booked _ _ _ h := .inl h
  bookings _ _ _ h := .inl h
  index _ _ h := .inl h
  drops x hx _ _ h := .inr (.inr ⟨x, hx, h, id⟩)

/-- A step of the compactor or the recompactor that writes no rows. -/
theorem migrate (hrows : s'.rows = s.rows) (hcalls : s'.calls = s.calls)
    (hfiles : s'.rawFiles = s.rawFiles) (hindex : s'.compactionIndex = s.compactionIndex)
    (hdrops : ∀ x' ∈ s'.migrations, ∀ key p, (key, p) ∈ x'.drops →
      p ∈ x'.pending ∨ Gone s p ∨
        ∃ x ∈ s.migrations, (key, p) ∈ x.drops ∧ (p ∈ x.pending → p ∈ x'.pending)) :
    Advance cfg s s' where
  files p hp := by rwa [hfiles]
  writes i r p hr _ := .inl (by rwa [hcalls] at hr)
  rows key row p hr _ := .inl (by rwa [hrows] at hr)
  kept key p h := .inl (by rwa [hindex])
  booked i key p h := .inl (by rwa [hcalls])
  bookings i key p h := .inl (by rwa [hcalls] at h)
  index key p h := .inl (by rwa [hindex] at h)
  drops := hdrops

variable {c : Call} {i : Nat}

/-- A step of call `i`, which moves to `c`. -/
theorem callStep (hcalls : s'.calls = Function.update s.calls i c)
    (hmigrations : s'.migrations = s.migrations)
    (hfiles : ∀ p, (s.rawFiles p).isSome → (s'.rawFiles p).isSome)
    (hwrites : ∀ r p, c.writes = some r → rawPath r = some p →
      (s.calls i).writes = some r ∨ s.rawFiles p = none)
    (hrows : ∀ key row p, s'.rows key = some row → rawPath row = some p →
      s.rows key = some row ∨ ((s.calls i).writes = some row ∧ Due cfg s' key p row))
    (hkept : ∀ e ∈ s.compactionIndex, e ∈ s'.compactionIndex)
    (hbooked : ∀ key p, (s.calls i).books key p → c.books key p ∨
      ∀ row, s'.rows key = some row → rawPath row = some p → Due cfg s' key p row)
    (hbookings : ∀ key p, c.books key p →
      (s.calls i).books key p ∨ ∃ r, (s.calls i).writes = some r ∧ rawPath r = some p)
    (hindex : ∀ key p, (key, p) ∈ s'.compactionIndex → (key, p) ∈ s.compactionIndex ∨
      (s.calls i).books key p ∨ ∃ r, (s.calls i).writes = some r ∧ rawPath r = some p) :
    Advance cfg s s' where
  files := hfiles
  writes j r p hr hp := by
    rw [hcalls] at hr
    rcases eq_or_ne j i with rfl | hj
    · rw [Function.update_self] at hr
      exact hwrites r p hr hp
    · rw [Function.update_of_ne hj] at hr
      exact .inl hr
  rows key row p hr hp := (hrows key row p hr hp).imp_right fun h => ⟨⟨i, h.1⟩, h.2⟩
  kept key p h := .inl (hkept _ h)
  booked j key p h := by
    rw [hcalls]
    rcases eq_or_ne j i with rfl | hj
    · rw [Function.update_self]
      exact hbooked key p h
    · rw [Function.update_of_ne hj]
      exact .inl h
  bookings j key p h := by
    rw [hcalls] at h
    rcases eq_or_ne j i with rfl | hj
    · rw [Function.update_self] at h
      exact hbookings key p h
    · rw [Function.update_of_ne hj] at h
      exact .inl h
  index key p h := by
    rcases hindex key p h with hold | hbooks | ⟨r, hr, hp⟩
    · exact .inl hold
    · exact .inr (.inl ⟨i, hbooks⟩)
    · exact .inr (.inr ⟨i, r, hr, hp⟩)
  drops x hx key p h := .inr (.inr ⟨x, by rwa [hmigrations] at hx, h, id⟩)

/-- A call moves on and removes rows at most. It books nothing, before or after. -/
theorem call (hcalls : s'.calls = Function.update s.calls i c)
    (hmigrations : s'.migrations = s.migrations) (hindex : s'.compactionIndex = s.compactionIndex)
    (hfiles : ∀ p, (s.rawFiles p).isSome → (s'.rawFiles p).isSome)
    (hrows : ∀ key row, s'.rows key = some row → s.rows key = some row)
    (hwrites : ∀ r p, c.writes = some r → rawPath r = some p →
      (s.calls i).writes = some r ∨ s.rawFiles p = none) (hold : ∀ key p, ¬(s.calls i).books key p)
    (hnew : ∀ key p, ¬c.books key p) :
    Advance cfg s s' :=
  .callStep hcalls hmigrations hfiles hwrites (fun key row _ hr _ => .inl (hrows key row hr))
    (fun _ he => by rwa [hindex]) (fun key p h => absurd h (hold key p))
    (fun key p h => absurd h (hnew key p)) (fun _ _ h => .inl (by rwa [hindex] at h))

/-- A call that only changes its position. -/
theorem setCall (hwrites : ∀ r, c.writes = some r → (s.calls i).writes = some r)
    (hold : ∀ key p, ¬(s.calls i).books key p) (hnew : ∀ key p, ¬c.books key p) :
    Advance cfg s (s.setCall i c) :=
  .call rfl rfl rfl (fun _ h => h) (fun _ _ h => h) (fun r _ hr _ => .inl (hwrites r hr)) hold hnew

/-- A call that queues files and has nothing to book. -/
theorem reclaiming {paths : List String} (hold : ∀ key p, ¬(s.calls i).books key p) :
    Advance cfg s (s.setCall i (.reclaiming paths)) :=
  .setCall (by simp) hold (by simp)

/-- A migration that changes its position. -/
theorem setMigration {m : Nat} {x x' : Migration} (hm : s.migrations[m]? = some x)
    (hrows : s'.rows = s.rows) (hcalls : s'.calls = s.calls)
    (hfiles : s'.rawFiles = s.rawFiles) (hindex : s'.compactionIndex = s.compactionIndex)
    (hmigrations : s'.migrations = s.migrations.set m x')
    (hdrops : ∀ key p, (key, p) ∈ x'.drops → p ∈ x'.pending ∨ Gone s p ∨
      ((key, p) ∈ x.drops ∧ (p ∈ x.pending → p ∈ x'.pending))) :
    Advance cfg s s' := by
  refine .migrate hrows hcalls hfiles hindex fun y hy key p hp => ?_
  rw [hmigrations] at hy
  rcases List.mem_or_eq_of_mem_set hy with hold | rfl
  · exact .inr (.inr ⟨y, hold, hp, id⟩)
  · rcases hdrops key p hp with h | h | h
    · exact .inl h
    · exact .inr (.inl h)
    · exact .inr (.inr ⟨x, List.mem_of_getElem? hm, h⟩)

end Advance

end Advance

/-! ## Calls -/

section Calls

variable {cfg : Config} {s : State} {i : Nat}

variable {c : Call} {row : ValueMessage}

lemma Call.not_books_of_isReading (h : c.isReading = true) (key p : String) : ¬c.books key p := by
  cases c
  case casMerged | casWon => cases h
  all_goals exact id

lemma Call.not_books_of_own (h : c.own = some row) (key p : String) : ¬c.books key p := by
  cases c
  case casMerged | casWon => cases h
  all_goals exact id

/-- A call stores its bytes under a fresh name. -/
theorem advance_writeRaw {data : List UInt8} {path : String} {checksum : UInt32} {stamp : UInt64}
    (hraw : s.rawFiles path = none) (hold : ∀ key p, ¬(s.calls i).books key p)
    (hrow : c.writes = some row) (hcarries : Carries (cfg.payload data path checksum) row)
    (hnew : ∀ key p, ¬c.books key p) :
    Advance cfg s ({ s.writeRaw (cfg.payload data path checksum) data with
      lastStamp := stamp }.setCall i c) := by
  refine .call rfl rfl rfl ?_ (fun _ _ h => h) ?_ hold hnew
  · intro p hp
    have hne : p ≠ path := by
      rintro rfl
      simp [hraw] at hp
    exact (congrArg Option.isSome (writeRaw_rawFiles_of_ne hne)).trans hp
  · intro r p hr hp
    obtain rfl := Option.some.inj (hrow.symm.trans hr)
    obtain ⟨rfl, -, -⟩ := hcarries.path_eq (s := s) hp
    exact .inr hraw

variable {key : String} {operand : ValueMessage} {prev : Option ValueMessage}

/-- A put writes its row and the index row in one batch. -/
theorem advance_putCommit (hpc : s.calls i = .putRead key row prev) (paths : List String) :
    Advance cfg s (((s.setRow key (some row)).indexRaw cfg key row).setCall i
      (.reclaiming paths)) := by
  have hrow : (s.calls i).writes = some row := by simp [hpc]
  refine .callStep rfl rfl (fun _ h => h) (by simp) ?_
    (fun _ he => List.mem_append_left _ he) (by simp [hpc]) (by simp) ?_
  · intro k r p hr hp
    by_cases hk : k = key
    · subst hk
      have heq : row = r := by simpa using hr
      subst heq
      refine .inr ⟨hrow, fun hmedium => .inl ?_⟩
      simp [hp, hmedium]
    · exact .inl (by
        simpa [hk] using hr)
  · intro k p h
    rcases State.mem_indexRaw _ h with hold | ⟨-, hp⟩
    · exact .inl hold
    · exact .inr (.inr ⟨row, hrow, hp⟩)

/-- A merge that puts a row with a raw file books it. -/
theorem advance_casMerge (hI : Ownership s) (hpc : s.calls i = .casMerging key operand prev) :
    Advance cfg s ((s.setRow key (some (mergeRow (s.rows key) [operand]))).setCall i
      (.casMerged key operand prev)) := by
  have hwrites : (s.calls i).writes = some (casResult operand) := by simp [hpc]
  have hcall := hI.calls i
  rw [hpc] at hcall
  obtain ⟨hcas, hdelete, -⟩ := hcall.wf
  have hbooks : ∀ p, rawPath operand = some p →
      (Call.casMerged key operand prev).books key p := fun p hp => ⟨rfl, hp⟩
  refine .callStep rfl rfl (fun _ h => h) (by simp) ?_ (fun _ he => he)
    (by simp [hpc]) ?_ (fun _ _ h => .inl h)
  · intro k r p hr hp
    by_cases hk : k = key
    · subst hk
      have hmerged : mergeRow (s.rows k) [operand] = r := by
        simpa using hr
      cases rowFrom_casMerge hcas hmerged with
      | kept h => exact .inl h
      | written h =>
        have heq : casResult operand = r := by simpa using h
        subst heq
        rw [rawPath_casResult hdelete] at hp
        exact .inr ⟨hwrites, fun _ => .inr ⟨i, by simpa using hbooks p hp⟩⟩
      | derived hpath => simp [hpath] at hp
    · exact .inl (by simpa [hk] using hr)
  · intro k p h
    exact .inr ⟨casResult operand, hwrites, (rawPath_casResult hdelete).trans h.2⟩

/-- A call reads back: what becomes of its booking is all that matters. -/
theorem advance_readBack (hwrites : c.writes = none)
    (hbookings : ∀ k p, c.books k p → (s.calls i).books k p)
    (hbooked : ∀ k p, (s.calls i).books k p → c.books k p ∨
      ∀ row, s.rows k = some row → rawPath row = some p → Due cfg (s.setCall i c) k p row) :
    Advance cfg s (s.setCall i c) :=
  .callStep rfl rfl (fun _ h => h) (hwrites ▸ nofun) (fun _ _ _ hr _ => .inl hr)
    (fun _ he => he) hbooked (fun k p h => .inl (hbookings k p h)) (fun _ _ h => .inl h)

/-- A loser has no booking: had its row stayed, it would carry the stamp. -/
theorem advance_casLost (hI : Ownership s) (hpc : s.calls i = .casMerged key operand prev)
    (hlost : ¬carries (s.rows key) operand.version = true) (paths : List String) :
    Advance cfg s (s.setCall i (.reclaiming paths)) := by
  refine advance_readBack rfl (by simp) fun k p h => .inr fun row hrow hp => ?_
  obtain ⟨rfl, hpath⟩ : key = k ∧ rawPath operand = some p := by simpa [hpc] using h
  have hmem : p ∈ reclaimable (some operand) := mem_reclaimable.mpr ⟨operand, rfl, hpath⟩
  exact absurd hp ((hI.unreferenced_of_lost hpc hlost hmem).none _ row hrow)

/-- The bookkeeping batch writes the index row of what was booked. -/
theorem advance_casFinish (hI : Ownership s) {replaced : List String}
    (hpc : s.calls i = .casWon key operand replaced) :
    Advance cfg s ((s.indexRaw cfg key operand).setCall i (.reclaiming replaced)) := by
  have hcall := hI.calls i
  rw [hpc] at hcall
  have hput : operand.opType = .casPut := hcall.wf
  have hown : Known s key (casResult operand) := hcall.knows _ _ (by simp)
  have hpath : rawPath (casResult operand) = rawPath operand := rawPath_casResult (by simp [hput])
  refine .callStep rfl rfl (fun _ h => h) (by simp) (fun _ _ _ hr _ => .inl hr)
    (fun _ he => List.mem_append_left _ he) ?_ (by simp) ?_
  · intro k p h
    obtain ⟨rfl, hp⟩ : key = k ∧ rawPath operand = some p := by simpa [hpc] using h
    refine .inr fun row hrow hrp hmedium => .inl ?_
    -- the row is the one that this call merged
    obtain ⟨-, rfl⟩ := hown.only p (hpath.trans hp) _ _ hrow hrp
    have hlength : (casResult operand).valueLength = operand.valueLength := by
      simp [casResult, hput, adopt]
    rw [hlength] at hmedium
    simp [hp, hmedium]
  · intro k p h
    rcases State.mem_indexRaw _ h with hold | ⟨rfl, hp⟩
    · exact .inl hold
    · exact .inr (.inl (by simp [hpc, hp]))

/-- A purge buries a row or leaves it alone. -/
theorem advance_purge {path : String} (hne : path ≠ "") :
    Advance cfg s (s.setRow key (some (mergeRow (s.rows key) [purgeOperand path]))) := by
  have hrefl : Advance cfg s s := .refl s
  refine { hrefl with
    rows := fun k row p hr hp => .inl ?_
    kept := fun _ _ h => .inl h
    booked := fun _ _ _ h => .inl h }
  by_cases hk : k = key
  · subst hk
    have hmerged : mergeRow (s.rows k) [purgeOperand path] = row := by
      simpa using hr
    rcases rowFrom_background (background_purgeOperand hne) hmerged with h | ⟨hnone, -⟩
    · exact h
    · simp [hnone] at hp
  · simpa [hk] using hr

/-- What a move of a call does, the failed bookkeeping batch apart. -/
theorem advance_callMove {s' : State} {e : Event} (hI : Ownership s)
    (hfresh : freshNames s e = true) (hok : ∀ i ok, e = .casFinish i ok → ok = true)
    (hmove : CallMove cfg s e s') : Advance cfg s s' := by
  cases hmove with
  | idle => exact .refl s
  | get | unlink => exact .migrate rfl rfl rfl rfl fun x hx _ _ h => .inr (.inr ⟨x, hx, h, id⟩)
  | purge hpath => exact advance_purge hpath
  | look _ hold hnew =>
    exact .setCall ((Call.of_isReading hnew).1 ▸ nofun) (Call.not_books_of_isReading hold)
      (Call.not_books_of_isReading hnew)
  | remove _ hold hrows =>
    exact .call rfl rfl rfl (fun _ h => h) hrows (by simp)
      (Call.not_books_of_isReading hold) (by simp)
  | abandon _ hown => exact .reclaiming (Call.not_books_of_own hown)
  | putWrite hc =>
    simp only [freshNames, decide_eq_true_eq] at hfresh
    exact advance_writeRaw hfresh.2.1 (by simp [hc]) rfl (carries_putRow _ _)
      (by simp)
  | putRead hc =>
    exact .setCall (by simp [hc]) (by simp [hc]) (by simp)
  | putCommit hc => exact advance_putCommit hc _
  | casPutWrite hc =>
    simp only [freshNames, decide_eq_true_eq] at hfresh
    exact advance_writeRaw hfresh.2.1 (by simp [hc]) rfl (carries_casResult _ _ _ _)
      (by simp)
  | casPutRefresh hc =>
    exact .setCall (fun r hr => by rw [hc]; exact hr) (by simp [hc])
      (by simp)
  | casDeleteRead hc =>
    exact .setCall (by simp) (by simp [hc]) (by simp)
  | casDeleteStamp hc =>
    refine .call rfl rfl rfl (fun _ h => h) (fun _ _ h => h) ?_ (by simp [hc])
      (by simp)
    intro r p hr hp
    cases hr
    simp [casResult, casDeleteOperand, tombstone, rawPath] at hp
  | casMerge hc => exact advance_casMerge hI hc
  | casWon hc =>
    -- a winner keeps its booking
    exact advance_readBack rfl (fun k p h => by simpa [hc] using h)
      fun k p h => .inl (by simpa [hc] using h)
  | @casDeleted i key operand prev hc _ hdelete =>
    refine advance_readBack rfl (by simp) fun k p h => ?_
    have hwf := (hI.calls i).wf
    rw [hc] at hwf
    simp [hc, hwf.2.1 hdelete] at h
  | casLost hc hlost => exact advance_casLost hI hc hlost _
  | casFinish hc => exact advance_casFinish hI hc
  | casFinishFails => exact absurd (hok _ _ rfl) Bool.false_ne_true
  | reclaim hc =>
    exact .call rfl rfl rfl (fun _ h => h) (fun _ _ h => h) (by simp)
      (by simp [hc]) (by simp)

end Calls

/-! ## Migrations -/

section Migrations

variable {cfg : Config} {s : State} {m : Nat}

variable {s' : State} {x : Migration}

/-- A migration that starts drops nothing yet. -/
theorem advance_addMigration {path : String} (h : s.acquire path = some s') (hx : x.drops = []) :
    Advance cfg s (s'.addMigration x) := by
  rw [State.acquire_eq h]
  refine .migrate rfl rfl rfl rfl fun y hy key p hp => ?_
  rcases List.mem_append.mp hy with hold | hnew
  · exact .inr (.inr ⟨y, hold, hp, id⟩)
  · rw [List.mem_singleton.mp hnew, hx] at hp
    cases hp

/-- An index row is dropped only if its file is gone, or waits for the commit. -/
theorem drops_processed (hI : Ownership s) {c : Compaction} {key path k p : String}
    (hentry : Indexed s key path) (hx : Processed s c key path x) (h : (k, p) ∈ x.drops) :
    p ∈ x.pending ∨ Gone s p ∨ ((k, p) ∈ c.dropped ∧ (p ∈ c.pending → p ∈ x.pending)) := by
  -- the new entry is the one at hand
  have hnew : Gone s path → (k, p) ∈ c.dropped ++ [(key, path)] → Gone s p ∨ (k, p) ∈ c.dropped := by
    intro hgone hmem
    rcases List.mem_append.mp hmem with hold | hmem
    · exact .inr hold
    · obtain ⟨-, rfl⟩ : k = key ∧ p = path := by simpa using hmem
      exact .inl hgone
  have hother : (∀ row, s.rows key = some row → rawPath row ≠ some path) → Gone s path :=
    fun hrow => (hentry.unreferenced hrow).gone hentry.file
  cases hx with
  | stale _ hrow => exact .inr ((hnew (hother hrow) h).imp_right fun hold => ⟨hold, id⟩)
  | moved _ hrow hsegment =>
    have hgone := hother fun r hr => by
      obtain rfl := Option.some.inj (hrow.symm.trans hr)
      simp [rawPath, hsegment]
    exact .inr ((hnew hgone h).imp_right fun hold => ⟨hold, id⟩)
  | short =>
    rcases List.mem_append.mp h with hold | hmem
    · exact .inr (.inr ⟨hold, fun hp => List.mem_append_left _ hp⟩)
    · obtain ⟨-, rfl⟩ : k = key ∧ p = path := by simpa using hmem
      exact .inl (by simp)
  | copying => exact .inr (.inr ⟨h, id⟩)
  | missing hfile =>
    -- the file was removed, so nothing references it
    have hunlinked : path ∈ s.unlinked := by simpa [State.hasFile, hentry.file] using hfile
    have hgone := (hI.queue path (.inr hunlinked)).gone hentry.file
    exact .inr ((hnew hgone h).imp_right fun hold => ⟨hold, id⟩)

/-- A commit deletes index rows together with the files on their rows. -/
theorem advance_commit (hI : Ownership s) {y : Migration} (hm : s.migrations[m]? = some x)
    {dropped : List (String × String)}
    (hdropped : ∀ key p, (key, p) ∈ dropped → p ∈ x.pending ∨ Gone s p) (hy : y.drops = []) :
    Advance cfg s ((s.commitBatch x.staged dropped).setMigration m y) := by
  have hok := hI.migrationOk hm
  have hkept : ∀ key row p, applyMerges s.rows x.staged key = some row → rawPath row = some p →
      s.rows key = some row := by
    intro key row p hr hp
    rcases applyMerges_cases hok.staged s.rows hr with h | ⟨hnone, -⟩
    · exact h
    · simp [hnone] at hp
  exact
    { files := fun _ h => h
      writes := fun _ _ _ hr _ => .inl hr
      rows := fun key row p hr hp => .inl (hkept key row p hr hp)
      kept := fun key p h => by
        by_cases hmem : (key, p) ∈ dropped
        · refine .inr fun row hrow hp => ?_
          rcases hdropped key p hmem with hpending | hgone
          · exact (unreferenced_of_commit hok hpending).none key row hrow hp
          · exact hgone.none key row (hkept key row p hrow hp) hp
        · exact .inl (List.mem_filter.mpr ⟨h, by simpa using hmem⟩)
      booked := fun _ _ _ h => .inl h
      bookings := fun _ _ _ h => .inl h
      index := fun _ _ h => .inl (List.mem_of_mem_filter h)
      drops := fun z hz key p hp => by
        rcases List.mem_or_eq_of_mem_set hz with hold | rfl
        · exact .inr (.inr ⟨z, hold, hp, id⟩)
        · rw [hy] at hp
          cases hp }

/-- What a batch deletes from the index, it takes off the rows. -/
def DropsOk (s : State) : Prop :=
  ∀ x ∈ s.migrations, ∀ key p, (key, p) ∈ x.drops → p ∈ x.pending ∨ Gone s p

lemma DropsOk.advance (h : DropsOk s) (hA : Advance cfg s s') : DropsOk s' := by
  intro x' hx' key p hp
  rcases hA.drops x' hx' key p hp with hpending | hgone | ⟨x, hx, hold, hmono⟩
  · exact .inl hpending
  · exact .inr (hgone.advance hA)
  · exact (h x hx key p hold).imp hmono fun hgone => hgone.advance hA

/-- What a move of a migration does. -/
theorem advance_migrationMove {e : Event} (hI : Ownership s) (hD : DropsOk s)
    (hmove : MigrationMove s e s') : Advance cfg s s' := by
  cases hmove with
  | idle => exact .refl s
  | compactStart hs' | recompactStart _ _ hs' => exact advance_addMigration hs' rfl
  | compactNext hm _ hx =>
    have hentry := (hI.migrationOk hm).entries _ _ List.mem_cons_self
    refine .setMigration hm rfl rfl rfl rfl rfl fun k p hp => ?_
    have hdrops := drops_processed hI hentry hx hp
    exact hdrops
  | compactSkip hm | leave _ hm | queueReady hm | queueRolling hm =>
    exact .setMigration hm rfl rfl rfl rfl rfl fun k p hp => .inr (.inr ⟨hp, id⟩)
  | @compactCopy m c key path row offset s' hm _ hs' =>
    -- The entry is copied: its file waits for the commit.
    obtain ⟨seg, -, -, rfl⟩ := State.writeEntry_eq_some hs'
    refine .setMigration hm rfl rfl rfl rfl rfl fun k p hp => ?_
    rcases List.mem_append.mp hp with hold | hmem
    · exact .inr (.inr ⟨hold, fun hpending => List.mem_append_left _ hpending⟩)
    · obtain ⟨-, rfl⟩ : k = key ∧ p = path := by simpa using hmem
      exact .inl (by simp)
  | compactCommit hm | compactFinish hm =>
    exact advance_commit hI hm (hD _ (List.mem_of_getElem? hm)) rfl
  | compactRoll hm _ hs' | recompactRoll hm hs' =>
    rw [State.acquire_eq hs']
    exact .setMigration hm rfl rfl rfl rfl rfl fun k p hp => .inr (.inr ⟨hp, id⟩)
  | recompactCopy hm _ hs' =>
    obtain ⟨seg, -, -, rfl⟩ := State.writeEntry_eq_some hs'
    exact .setMigration hm rfl rfl rfl rfl rfl (by simp [Migration.drops])
  | recompactCommit hm =>
    refine advance_commit hI hm (by simp) ?_
    split <;> rfl
  | recompactNext hm | recompactSkip hm | recompactFails hm | recompactRemove hm | queueFinishing hm
  | cancel _ hm => exact .setMigration hm rfl rfl rfl rfl rfl (by simp [Migration.drops])

end Migrations

/-! ## Steps and runs -/

section Runs

variable {cfg : Config} {s : State}

/-- What a step of a serving process does. -/
theorem advance_step {e : Event} (hI : Ownership s) (hD : DropsOk s)
    (hfresh : freshNames s e = true) (hok : ∀ i ok, e = .casFinish i ok → ok = true) :
    Advance cfg s (step cfg s e) := by
  rcases move_step cfg s e with hmove | hmove
  · exact advance_callMove hI hfresh hok hmove
  · exact advance_migrationMove hI hD hmove

/-- What recovery has found and has yet to do. -/
structure RecoveryOk (s : State) (r : Recovering) : Prop where
  calls : ∀ i, s.calls i = .idle
  migrations : s.migrations = []
  /-- Every index row that is left will be deleted. -/
  index : ∀ e ∈ s.compactionIndex, e ∈ r.entries ∨ ∃ res ∈ r.results, e = (res.key, res.path)
  entries : ∀ key path, (key, path) ∈ r.entries → Indexed s key path
  results : ∀ res ∈ r.results, res.status.deletesRow = false ∧
    (res.status.removesFile = true → Unreferenced s res.path)

/-- The invariant of a process. -/
structure Accounted (cfg : Config) (p : Process) : Prop where
  ownership : Ownership p.store
  drops : DropsOk p.store
  /-- A medium raw file is due, unless its row is from before the start. -/
  covered : ∀ key row path, p.store.rows key = some row → rawPath row = some path →
    Due cfg p.store key path row ∨ p.atStart key = some path
  landed : ∀ key path, p.atStart key = some path → Landed p.store path
  booked : ∀ key path, AwaitsIndex p.store key path → ∀ k, p.atStart k ≠ some path
  /-- Nothing from before the start is in the index. -/
  fresh : p.recovering = none → ∀ k path, p.atStart k = some path →
    ∀ key, (key, path) ∉ p.store.compactionIndex
  recovery : ∀ r, p.recovering = some r → RecoveryOk p.store r ∧
    ∀ key row path, p.store.rows key = some row → rawPath row = some path →
      p.atStart key = some path

namespace Accounted

variable {p : Process}

lemma init : Accounted cfg Process.init where
  ownership := ownership_init
  drops := by simp [DropsOk]
  covered := by simp
  landed := by simp
  booked := by simp
  fresh := by simp
  recovery := by simp

lemma serve (h : Accounted cfg p) {e : Event} (hserving : p.recovering = none)
    (hok : steady p (.serve e) = true) :
    Accounted cfg { p with store := Store.step cfg p.store e } := by
  have hfresh : freshNames p.store e = true ∧ ∀ i ok, e = .casFinish i ok → ok = true := by
    cases e <;> simp_all [steady, freshNames]
  have hA : Advance cfg p.store (Store.step cfg p.store e) :=
    advance_step h.ownership h.drops hfresh.1 hfresh.2
  exact
    { ownership := ownership_step cfg h.ownership hfresh.1
      drops := h.drops.advance hA
      covered := by
        intro key row path hrow hp
        rcases hA.rows key row path hrow hp with hold | ⟨-, hdue⟩
        · refine (h.covered key row path hold hp).imp_left fun hdue hmedium => ?_
          rcases hdue hmedium with hindex | ⟨i, hbooks⟩
          · rcases hA.kept key path hindex with hstays | hnone
            · exact .inl hstays
            · exact absurd hp (hnone row hrow)
          · rcases hA.booked i key path hbooks with hstays | hdone
            · exact .inr ⟨i, hstays⟩
            · exact hdone row hrow hp hmedium
        · exact .inl hdue
      landed := fun key path hstart => (h.landed key path hstart).advance hA
      booked := by
        rintro key path ⟨i, hbooks⟩ k hstart
        rcases hA.bookings i key path hbooks with hold | ⟨r, hr, hp⟩
        · exact h.booked key path ⟨i, hold⟩ k hstart
        · exact (h.landed k path hstart).free i r hr hp
      fresh := by
        intro _ k path hstart key hmem
        rcases hA.index key path hmem with hold | hawaits | ⟨i, r, hr, hp⟩
        · exact h.fresh hserving k path hstart key hold
        · exact h.booked key path hawaits k hstart
        · exact (h.landed k path hstart).free i r hr hp
      recovery := fun r hr => by
        have hr' : p.recovering = some r := hr
        rw [hserving] at hr'
        cases hr' }

/-- A process that starts: the rows reference what they did, and nothing runs. -/
theorem ownership_restart (hI : Ownership s) :
    Ownership { s with calls := fun _ => .idle, migrations := [] } := by
  have hF : Frame s { s with calls := fun _ => .idle, migrations := [] } none :=
    ⟨fun _ _ h => h, fun _ h => h, UInt64.le_refl _, fun _ _ h => .kept h,
      by simp, by simp⟩
  exact
    { rows := fun key row hrow => hF.known (hI.rows key row hrow)
      calls := fun _ => ⟨by simp, by simp, by simp, trivial⟩
      distinct := by simp
      migrations := by simp
      index := fun key path he => hF.indexed (hI.index key path he)
      queue := fun q hq => hF.unreferenced (hI.queue q hq)
      names := hI.names }

lemma restart (h : Accounted cfg p) : Accounted cfg p.restart := by
  have hI := ownership_restart h.ownership
  exact
    { ownership := hI
      drops := by simp [DropsOk]
      covered := fun key row path hrow hp => .inr (by
        have hrow' : p.store.rows key = some row := hrow
        simp [hrow', hp])
      landed := fun key path hstart => by
        obtain ⟨row, hrow, hp⟩ := Option.bind_eq_some_iff.mp hstart
        exact ⟨((hI.rows key row hrow).indexed hp).file, by simp⟩
      booked := by
        rintro key path ⟨i, hbooks⟩
        simp at hbooks
      fresh := by simp
      recovery := fun r hr => by
        obtain rfl : (⟨p.store.compactionIndex, []⟩ : Recovering) = r := by
          simpa using hr
        refine ⟨⟨fun _ => rfl, rfl, fun e he => .inl he, hI.index, by simp⟩, ?_⟩
        intro key row path hrow hp
        have hrow' : p.store.rows key = some row := hrow
        simp [hrow', hp] }

/-- What recovery finds: every file that a row references is whole. -/
theorem validateEntry_cases (hI : Ownership s) {key path : String} (hentry : Indexed s key path) :
    (validateEntry s key path).deletesRow = false ∧
      ((validateEntry s key path).removesFile = true → Unreferenced s path) := by
  unfold validateEntry
  split
  · rename_i hrow
    exact ⟨rfl, fun _ => hentry.unreferenced (by simp [hrow])⟩
  · rename_i row hrow
    split
    · simp
    · rename_i htype
      split
      · simp
      · rename_i hsame
        have hpath : rawPath row = some path := by
          simp only [ne_eq, Decidable.not_not] at htype hsame
          simp [rawPath, htype, hsame]
        have hbacked := (hI.rows key row hrow).stored.backed path hpath
        split
        · split
          · rename_i hlength
            exact absurd hbacked hlength
          · simp
        · rename_i hfile
          -- a file that a row references was not removed
          have hunlinked : path ∈ s.unlinked := by
            simpa [State.hasFile, hentry.file] using hfile
          exact absurd hpath ((hI.queue path (.inr hunlinked)).none key row hrow)

variable (h : Accounted cfg p)

include h

/-- A step of recovery keeps the rows. -/
theorem recoveryStep (store : State) {r r' : Recovering} (hr : p.recovering = some r)
    (hrows : store.rows = p.store.rows) (hcalls : store.calls = p.store.calls)
    (hfiles : store.rawFiles = p.store.rawFiles) (hI : Ownership store) (hR : RecoveryOk store r') :
    Accounted cfg { p with store := store, recovering := some r' } := by
  have hstart : ∀ key row path, store.rows key = some row → rawPath row = some path →
      p.atStart key = some path := by
    rw [hrows]
    exact (h.recovery r hr).2
  exact
    { ownership := hI
      drops := by simp [DropsOk, hR.migrations]
      covered := fun key row path hrow hp => .inr (hstart key row path hrow hp)
      landed := fun key path hpath => by
        have hL := h.landed key path hpath
        exact ⟨by rw [hfiles]; exact hL.file, by rw [hcalls]; exact hL.free⟩
      booked := by
        rintro key path ⟨i, hbooks⟩
        simp [hR.calls i] at hbooks
      fresh := by simp
      recovery := fun r'' hr'' => by
        simp only [Option.some.injEq] at hr''
        exact hr'' ▸ ⟨hR, hstart⟩ }

lemma validate {key path : String} : Accounted cfg (p.validate key path) := by
  unfold Process.validate
  split
  · rename_i r hr
    have hR := (h.recovery r hr).1
    split
    · rename_i hmem
      refine h.recoveryStep _ hr rfl rfl rfl h.ownership
        ⟨hR.calls, hR.migrations, fun e he => ?_, fun k q hq => ?_, fun res hres => ?_⟩
      · rcases hR.index e he with hentry | ⟨res, hres, heq⟩
        · by_cases hsame : e = (key, path)
          · exact .inr ⟨_, List.mem_append_right _ (List.mem_singleton.mpr rfl), hsame⟩
          · exact .inl ((List.mem_erase_of_ne hsame).mpr hentry)
        · exact .inr ⟨res, List.mem_append_left _ hres, heq⟩
      · exact hR.entries k q (List.mem_of_mem_erase hq)
      · rcases List.mem_append.mp hres with hold | hnew
        · exact hR.results res hold
        · rw [List.mem_singleton.mp hnew]
          exact validateEntry_cases h.ownership (hR.entries key path hmem)
    · exact h
  · exact h

lemma removeFile {res : ValidationResult} : Accounted cfg (p.removeFile res) := by
  unfold Process.removeFile
  split
  · rename_i r hr
    have hR := (h.recovery r hr).1
    split
    · rename_i hres
      have hF : Frame p.store { p.store with unlinked := res.path :: p.store.unlinked } none :=
        ⟨fun _ _ h => h, fun _ h => h, UInt64.le_refl _, fun _ _ h => .kept h,
          fun _ _ _ h _ => .inl h, by simp⟩
      have hun := (hR.results res hres.1).2 hres.2
      have hI : Ownership { p.store with unlinked := res.path :: p.store.unlinked } := by
        refine h.ownership.migrate hF rfl (fun _ hx => .inl hx) (fun _ he => he) ?_
          h.ownership.names
        rintro q (hq | hq)
        · exact .inl (.inl hq)
        · rcases List.mem_cons.mp hq with rfl | hq
          · exact .inr (hF.unreferenced hun)
          · exact .inl (.inr hq)
      have hstep := h.recoveryStep { p.store with unlinked := res.path :: p.store.unlinked } hr rfl
        rfl rfl hI ⟨hR.calls, hR.migrations, hR.index,
          fun k q hq => hF.indexed (hR.entries k q hq),
          fun res' hres' => ⟨(hR.results res' hres').1,
            fun hf => hF.unreferenced ((hR.results res' hres').2 hf)⟩⟩
      rw [← hr] at hstep
      exact hstep
    · exact h
  · exact h

lemma deleteBatch {batch : List ValidationResult} : Accounted cfg (p.deleteBatch batch) := by
  unfold Process.deleteBatch
  split
  · rename_i r hr
    have hR := (h.recovery r hr).1
    split
    · rename_i hsub
      -- every file that a row references is whole, so no row is deleted
      have hnone : ∀ key, (batch.any fun res => res.key = key ∧ res.status.deletesRow) = false := by
        intro key
        simp only [List.any_eq_false, decide_eq_true_eq, not_and]
        intro res hres _
        rw [(hR.results res (hsub hres)).1]
        simp
      have hrows : (fun key => if (batch.any fun res => res.key = key ∧ res.status.deletesRow) then none
          else p.store.rows key) = p.store.rows := by
        funext key
        rw [hnone key]
        exact if_neg Bool.false_ne_true
      rw [hrows]
      have hF : Frame p.store { p.store with
          compactionIndex := p.store.compactionIndex.filter fun e =>
            e ∉ batch.map fun res => (res.key, res.path) } none :=
        ⟨fun _ _ h => h, fun _ h => h, UInt64.le_refl _, fun _ _ h => .kept h,
          fun _ _ _ h _ => .inl h, by simp⟩
      refine h.recoveryStep _ hr rfl rfl rfl ?_ ⟨hR.calls, hR.migrations, fun e he => ?_,
        fun k q hq => hF.indexed (hR.entries k q hq), fun res hres => ?_⟩
      · exact h.ownership.migrate hF rfl (fun _ hx => .inl hx) (fun _ he => List.mem_of_mem_filter he)
          (fun _ hq => .inl hq) h.ownership.names
      · obtain ⟨hmem, hkeep⟩ := List.mem_filter.mp he
        rcases hR.index e hmem with hentry | ⟨res, hres, rfl⟩
        · exact .inl hentry
        · refine .inr ⟨res, List.mem_filter.mpr ⟨hres, ?_⟩, rfl⟩
          -- the result of an index row that is still there is not in the batch
          simp only [decide_eq_true_eq, List.mem_map, not_exists, not_and] at hkeep ⊢
          exact fun hin => hkeep res hin rfl
      · have hold := hR.results res (List.mem_of_mem_filter hres)
        exact ⟨hold.1, fun hf => hF.unreferenced (hold.2 hf)⟩
    · exact h
  · exact h

/-- Recovery leaves an empty index. -/
theorem index_eq_nil (hr : p.recovering = some ⟨[], []⟩) : p.store.compactionIndex = [] := by
  apply List.eq_nil_iff_forall_not_mem.mpr
  intro e he
  rcases (h.recovery _ hr).1.index e he with hentry | ⟨res, hres, -⟩
  · cases hentry
  · cases hres

lemma recovered : Accounted cfg p.recovered := by
  unfold Process.recovered
  split
  · rename_i hr
    have hempty := h.index_eq_nil hr
    exact
      { h with
        fresh := fun _ _ _ _ _ => by simp [hempty]
        recovery := by simp }
  · exact h

lemma step {e : ProcessEvent} (hok : steady p e = true) : Accounted cfg (processStep cfg p e) := by
  cases e with
  | serve e =>
    simp only [processStep]
    split
    · rename_i hserving
      exact h.serve (Option.isNone_iff_eq_none.mp hserving) hok
    · exact h
  | restart => exact h.restart
  | validate key path => exact h.validate
  | removeFile res => exact h.removeFile
  | deleteBatch batch => exact h.deleteBatch
  | recovered => exact h.recovered

end Accounted

/-- While a process serves, a medium raw file has an index row that names its key and the file
exactly if its row was not there when the process started, once the `PutIfVersion` that wrote it is
done. -/
theorem indexed_iff_since_start (cfg : Config) (es : List ProcessEvent)
    (h : RunOk (processStep cfg) (fun p e => steady p e = true) Process.init es) (key path : String)
    (row : ValueMessage) (hserving : (run (processStep cfg) Process.init es).recovering = none)
    (hrow : (run (processStep cfg) Process.init es).store.rows key = some row)
    (hpath : rawPath row = some path) (hmedium : cfg.isMedium row.valueLength = true)
    (hdone : ¬AwaitsIndex (run (processStep cfg) Process.init es).store key path) :
    (key, path) ∈ (run (processStep cfg) Process.init es).store.compactionIndex ↔
      (run (processStep cfg) Process.init es).atStart key ≠ some path := by
  have hinv : Accounted cfg (run (processStep cfg) Process.init es) :=
    invariant_run (I := Accounted cfg) (fun _ _ hI hok => hI.step hok) Accounted.init h
  constructor
  · exact fun hmem hstart => hinv.fresh hserving key path hstart key hmem
  · intro hnew
    rcases hinv.covered key row path hrow hpath with hdue | hstart
    · exact (hdue hmedium).resolve_right hdone
    · exact absurd hstart hnew

end Runs

/-- A medium value is put. -/
def mediumPut (key path : String) : List ProcessEvent :=
  [.serve (.putWrite 0 key [1, 2] 0 path 0), .serve (.putRead 0), .serve (.putCommit 0 true)]

/-- A medium value is put and the process restarts. -/
def putAndRestart : List ProcessEvent :=
  mediumPut "k" "f" ++ [.restart, .validate "k" "f", .deleteBatch [⟨"k", "f", .valid⟩], .recovered]

/-- After a restart a medium raw file has no index row, although its row and its file are intact. -/
theorem restart_drops_index :
    RunOk (processStep ⟨1, 4⟩) (fun p e => steady p e = true) Process.init putAndRestart ∧
      (run (processStep ⟨1, 4⟩) Process.init putAndRestart).recovering = none ∧
      ((run (processStep ⟨1, 4⟩) Process.init putAndRestart).store.rows "k").map (fun row =>
        (rawPath row, Config.isMedium ⟨1, 4⟩ row.valueLength)) = some (some "f", true) ∧
      (run (processStep ⟨1, 4⟩) Process.init putAndRestart).store.compactionIndex = [] := by
  decide +kernel

/-- Of a value that was put before a restart and one that was put after it the second is indexed. -/
theorem indexed_iff_since_start_putsAroundRestart :
    let index := (run (processStep ⟨1, 4⟩) Process.init
      (putAndRestart ++ mediumPut "l" "g")).store.compactionIndex
    ("k", "f") ∉ index ∧ ("l", "g") ∈ index := by
  have hdone : ∀ key path, ¬AwaitsIndex (run (processStep ⟨1, 4⟩) Process.init
      (putAndRestart ++ mediumPut "l" "g")).store key path := by
    rintro key path ⟨i, hbooks⟩
    -- only call 0 has moved since the restart
    cases i with
    | zero | succ i => exact hbooks
  have hindexed := fun key path row hrow hpath hmedium => indexed_iff_since_start ⟨1, 4⟩
    (putAndRestart ++ mediumPut "l" "g") (by decide +kernel) key path row (by decide +kernel) hrow
    hpath hmedium (hdone key path)
  exact ⟨fun hmem => (hindexed "k" "f" (putRow (.rawFile "f" 2 0) 0) (by decide +kernel) (by decide)
      (by decide)).mp hmem (by decide +kernel),
    (hindexed "l" "g" (putRow (.rawFile "g" 2 0) 0) (by decide +kernel) (by decide)
      (by decide)).mpr (by decide +kernel)⟩

end OCache.Store
