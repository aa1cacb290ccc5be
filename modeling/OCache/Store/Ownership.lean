import OCache.Store.Step

/-!
# Who owns a raw file

While the call that wrote a raw file has not yet published a row, only that call may reference it
(`Pending`). Afterwards it is `Settled`: rows may lose it, but no row ever comes to reference it
again, since every later row has a file of its own. Once no row references a settled file it is
`Unreferenced` for good, and only then may it go to the deletion queue.

`Frame` says what a step may do to rows and files. Everything known of settled files stays true
(`Frame.known`, `Frame.unreferenced`), so a proof about a step is about the one execution that
moves.
-/

namespace OCache.Store

open Merge

/-! ## What an execution holds -/

namespace Call

/-- The row that the call is about to write. -/
@[simp] def writes : Call → Option ValueMessage
  | putWritten _ row | putRead _ row _ => some row
  | casPutWritten _ operand | casMerging _ operand _ => some (casResult operand)
  | _ => none

/-- The rows that the call has read or written, each with its key. -/
@[simp] def knows : Call → List (String × ValueMessage)
  | putRead key _ prev | casDeleteAdmitted key _ prev | casMerging key _ prev =>
    prev.toList.map (key, ·)
  | casMerged key operand prev => (key, casResult operand) :: prev.toList.map (key, ·)
  | casWon key operand _ => [(key, casResult operand)]
  | deleting key read => [(key, read)]
  | sweeping _ batch | evicting batch => batch
  | _ => []

/-- The files that the call will queue. -/
@[simp] def reclaims : Call → List String
  | casWon _ _ replaced => replaced
  | reclaiming paths => paths
  | _ => []

/-- A compare-and-swap carries an operand of its kind, and its stamp is not the version it read. -/
def Wf : Call → Prop
  | casPutWritten _ operand => operand.opType = .casPut ∧ operand.version ≠ 0
  | casMerging _ operand prev | casMerged _ operand prev =>
    isCas operand = true ∧ (operand.opType ≠ .casPut → rawPath operand = none) ∧
      ∀ r ∈ prev, r.version ≠ operand.version
  | casWon _ operand _ => operand.opType = .casPut
  | _ => True

end Call

namespace Migration

/-- The index rows that the run has ahead of it. -/
@[simp] def entries : Migration → List (String × String)
  | compacting c | copying c .. | rolling c .. => c.entries
  | _ => []

/-- The rows that the run has read and not yet staged. -/
@[simp] def knows : Migration → List (String × ValueMessage)
  | copying _ key _ row | rolling _ key _ row => [(key, row)]
  | moving _ entry row => [(entry.key, row)]
  | _ => []

/-- The files that the run will queue. -/
@[simp] def reclaims : Migration → List String
  | compacting c | copying c .. | rolling c .. => c.ready
  | finishing ready => ready
  | _ => []

/-- The files that the run will queue once its batch is committed. -/
@[simp] def pending : Migration → List String
  | compacting c | copying c .. | rolling c .. => c.pending
  | _ => []

/-- The segment that a pass of the recompactor empties. -/
@[simp] def empties : Migration → Option String
  | recompacting r | moving r .. => some r.old
  | removing old => some old
  | _ => none

/-- The row that is being moved is where the run found it. -/
def Wf : Migration → Prop
  | copying _ _ path row | rolling _ _ path row => rawPath row = some path
  | moving r entry row => segmentPlace row = some (r.old, entry.offset)
  | _ => True

end Migration

/-! ## The phases of a file -/

section Phases

variable (s : State)

/-- The name is taken. -/
def Used (path : String) : Prop := (s.rawFiles path).isSome ∨ (s.segments path).isSome

/-- The name is taken and no call has yet to publish a row with it. -/
structure Settled (path : String) : Prop where
  used : Used s path
  free : ∀ i r, (s.calls i).writes = some r → rawPath r ≠ some path

/-- Only one row can reference the file. -/
def OnlyAt (path key : String) (row : ValueMessage) : Prop :=
  ∀ k r, s.rows k = some r → rawPath r = some path → k = key ∧ r = row

/-- Only the row of one key can reference the file. -/
def OnlyUnder (path key : String) : Prop :=
  ∀ k r, s.rows k = some r → rawPath r = some path → k = key

/-- No row references the file, and none will. -/
structure Unreferenced (path : String) : Prop where
  settled : Settled s path
  none : ∀ k r, s.rows k = some r → rawPath r ≠ some path

/-- A row as the store writes them: its raw file has the length the row says. -/
structure Stored (row : ValueMessage) : Prop where
  opType : row.opType = .none
  version : row.version ≤ s.lastStamp
  path : ∀ p, rawPath row = some p → p ≠ ""
  backed : ∀ p, rawPath row = some p →
    (s.rawFiles p).map (Int64.ofNat ·.length) = some row.valueLength

/-- Two rows share a raw file or a stamp. -/
def Clash (r q : ValueMessage) : Prop :=
  (∃ p, rawPath r = some p ∧ rawPath q = some p) ∨ (r.version ≠ 0 ∧ r.version = q.version)

/-- A row that is yet to be written: neither its file nor its stamp is on a row. -/
structure Pending (row : ValueMessage) : Prop where
  stored : Stored s row
  plain : segmentPlace row = none
  fresh : ∀ k q, s.rows k = some q → ¬Clash row q

/-- A row that was written under the key: its file can be on this row only. -/
structure Known (key : String) (row : ValueMessage) : Prop where
  stored : Stored s row
  settled : ∀ p, rawPath row = some p → Settled s p
  only : ∀ p, rawPath row = some p → OnlyAt s p key row

/-- An index row: the file was published under its key. -/
structure Indexed (key path : String) : Prop where
  settled : Settled s path
  file : (s.rawFiles path).isSome
  only : OnlyUnder s path key

end Phases

/-- The file of a known row can be indexed under its key. -/
theorem Known.indexed {s : State} {key path : String} {row : ValueMessage} (h : Known s key row)
    (hpath : rawPath row = some path) : Indexed s key path where
  settled := h.settled path hpath
  file := by
    obtain ⟨data, hdata, -⟩ := Option.map_eq_some_iff.mp (h.stored.backed path hpath)
    simp [hdata]
  only k r hr hp := (h.only path hpath k r hr hp).1

/-! ## The invariant -/

/-- What holds of a call. -/
structure CallOk (s : State) (c : Call) : Prop where
  writes : ∀ r, c.writes = some r → Pending s r
  knows : ∀ key row, (key, row) ∈ c.knows → Known s key row
  reclaims : ∀ p ∈ c.reclaims, Unreferenced s p
  wf : c.Wf

/-- What holds of a migration. -/
structure MigrationOk (s : State) (x : Migration) : Prop where
  staged : ∀ key op, (key, op) ∈ x.staged → Background op
  entries : ∀ key path, (key, path) ∈ x.entries → Indexed s key path
  knows : ∀ key row, (key, row) ∈ x.knows → Known s key row
  reclaims : ∀ p ∈ x.reclaims, Unreferenced s p
  /-- A file waits for the commit that takes it off its row. -/
  pending : ∀ p ∈ x.pending, Unreferenced s p ∨
    (Settled s p ∧ ∃ key op, (key, op) ∈ x.staged ∧ op.rawFilePath = p ∧ OnlyUnder s p key)
  empties : ∀ old, x.empties = some old → (s.segments old).isSome
  wf : x.Wf

/-- The ownership invariant. -/
structure Ownership (s : State) : Prop where
  rows : ∀ key row, s.rows key = some row → Known s key row
  calls : ∀ i, CallOk s (s.calls i)
  distinct : ∀ i j r q, (s.calls i).writes = some r → (s.calls j).writes = some q → Clash r q →
    i = j
  migrations : ∀ x ∈ s.migrations, MigrationOk s x
  index : ∀ key path, (key, path) ∈ s.compactionIndex → Indexed s key path
  queue : ∀ p, p ∈ s.queued ∨ p ∈ s.unlinked → Unreferenced s p
  /-- Raw files and segments have different names. -/
  names : ∀ p, (s.segments p).isSome → p ≠ "" ∧ s.rawFiles p = none

/-! ## Frames -/

/-- Where a row of the next state comes from: it was there, it is the row `w` that a call was about
to write, or it is a tombstone or a row in a segment that kept its version. -/
inductive RowFrom (s : State) (w : Option (String × ValueMessage)) (key : String)
    (row : ValueMessage) : Prop
  | kept (h : s.rows key = some row)
  | written (h : w = some (key, row))
  | derived (hpath : rawPath row = none) (hop : row.opType = .none)
      (hversion : row.version = 0 ∨ ∃ q, s.rows key = some q ∧ q.version = row.version)

/-- What a step that writes the row `w` does to names, stamps and rows. -/
structure Frame (s s' : State) (w : Option (String × ValueMessage)) : Prop where
  rawFiles : ∀ p data, s.rawFiles p = some data → s'.rawFiles p = some data
  segments : ∀ p, (s.segments p).isSome → (s'.segments p).isSome
  lastStamp : s.lastStamp ≤ s'.lastStamp
  rows : ∀ key row, s'.rows key = some row → RowFrom s w key row
  /-- A call that is about to write a file was so before, or has a new one. -/
  writes : ∀ i r p, (s'.calls i).writes = some r → rawPath r = some p →
    (s.calls i).writes = some r ∨ ¬Used s p
  /-- The row written was held by a call. -/
  owner : ∀ key r, w = some (key, r) → ∃ i, (s.calls i).writes = some r

namespace Frame

variable {s s' : State} {w : Option (String × ValueMessage)} {p key : String} {row : ValueMessage}

variable (hF : Frame s s' w)

include hF

lemma used (h : Used s p) : Used s' p := by
  rcases h with h | h
  · obtain ⟨data, hdata⟩ := Option.isSome_iff_exists.mp h
    exact .inl (by simp [hF.rawFiles p data hdata])
  · exact .inr (hF.segments p h)

lemma settled (h : Settled s p) : Settled s' p where
  used := hF.used h.used
  free i r hr hp := by
    rcases hF.writes i r p hr hp with hold | hnew
    · exact h.free i r hold hp
    · exact hnew h.used

/-- No step gives a settled file to a row. -/
theorem rows_of_settled (h : Settled s p) (hrow : s'.rows key = some row)
    (hp : rawPath row = some p) : s.rows key = some row := by
  cases hF.rows key row hrow with
  | kept hkept => exact hkept
  | written hw =>
    obtain ⟨i, hi⟩ := hF.owner key row hw
    exact absurd hp (h.free i row hi)
  | derived hpath => simp [hpath] at hp

lemma onlyAt (hs : Settled s p) (h : OnlyAt s p key row) : OnlyAt s' p key row :=
  fun k r hr hp => h k r (hF.rows_of_settled hs hr hp) hp

lemma onlyUnder (hs : Settled s p) (h : OnlyUnder s p key) : OnlyUnder s' p key :=
  fun k r hr hp => h k r (hF.rows_of_settled hs hr hp) hp

lemma unreferenced (h : Unreferenced s p) : Unreferenced s' p where
  settled := hF.settled h.settled
  none k r hr hp := h.none k r (hF.rows_of_settled h.settled hr hp) hp

/-- A file is unreferenced once its row is gone from its key. -/
theorem unreferenced_of_replaced (h : Known s key row) (hp : rawPath row = some p)
    (hne : s'.rows key ≠ some row) : Unreferenced s' p where
  settled := hF.settled (h.settled p hp)
  none k r hr hrp := by
    obtain ⟨rfl, rfl⟩ := h.only p hp k r (hF.rows_of_settled (h.settled p hp) hr hrp) hrp
    exact hne hr

lemma stored (h : Stored s row) : Stored s' row where
  opType := h.opType
  version := UInt64.le_trans h.version hF.lastStamp
  path := h.path
  backed p hp := by
    obtain ⟨data, hdata, hlen⟩ := Option.map_eq_some_iff.mp (h.backed p hp)
    simp [hF.rawFiles p data hdata, hlen]

lemma known (h : Known s key row) : Known s' key row where
  stored := hF.stored h.stored
  settled p hp := hF.settled (h.settled p hp)
  only p hp := hF.onlyAt (h.settled p hp) (h.only p hp)

lemma indexed (h : Indexed s key p) : Indexed s' key p where
  settled := hF.settled h.settled
  file := by
    obtain ⟨data, hdata⟩ := Option.isSome_iff_exists.mp h.file
    simp [hF.rawFiles p data hdata]
  only := hF.onlyUnder h.settled h.only

lemma migrationOk {x : Migration} (h : MigrationOk s x) : MigrationOk s' x where
  staged := h.staged
  entries key path he := hF.indexed (h.entries key path he)
  knows key row he := hF.known (h.knows key row he)
  reclaims p hp := hF.unreferenced (h.reclaims p hp)
  pending p hp := by
    rcases h.pending p hp with hun | ⟨hset, key, op, hmem, hpath, honly⟩
    · exact .inl (hF.unreferenced hun)
    · exact .inr ⟨hF.settled hset, key, op, hmem, hpath, hF.onlyUnder hset honly⟩
  empties old hold := hF.segments old (h.empties old hold)
  wf := h.wf

/-- A row to be written stays apart from all rows if it is apart from the row that is written. -/
theorem pending (h : Pending s row) (hw : ∀ k r, w = some (k, r) → ¬Clash row r) :
    Pending s' row where
  stored := hF.stored h.stored
  plain := h.plain
  fresh key q hq hclash := by
    cases hF.rows key q hq with
    | kept hkept => exact h.fresh key q hkept hclash
    | written hwrite => exact hw key q hwrite hclash
    | derived hpath _ hversion =>
      -- Without a file the rows can only share the stamp, which the old row had already.
      rcases hclash with ⟨p, -, hp⟩ | ⟨hne, heq⟩
      · simp [hpath] at hp
      · rcases hversion with hzero | ⟨old, hold, hv⟩
        · exact hne (heq.trans hzero)
        · exact h.fresh key old hold (.inr ⟨hne, heq.trans hv.symm⟩)

lemma callOk {c : Call} (h : CallOk s c)
    (hw : ∀ row k r, c.writes = some row → w = some (k, r) → ¬Clash row r) : CallOk s' c where
  writes row hrow := hF.pending (h.writes row hrow) fun k r hr => hw row k r hrow hr
  knows key row he := hF.known (h.knows key row he)
  reclaims p hp := hF.unreferenced (h.reclaims p hp)
  wf := h.wf

end Frame

end OCache.Store
