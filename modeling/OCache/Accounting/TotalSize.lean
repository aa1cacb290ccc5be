import OCache.Accounting.Removal

/-!
# The total size of the cache

The cleaner counts the bytes of all values. Every operation computes its own difference from a row
that it read before, and adds it to the counter before or after its write. The counter is exact as
long as two things do not happen: `DeleteKey` lowers it before the write, and a write that fails
leaves it too low; and the eviction pass counts a key once for every entry that it evicts the key
through, so a key with two such entries in one batch is counted twice.
-/

namespace OCache.Accounting

open Merge Total EventSystem

/-- The counter is the sum of the lengths of all rows. -/
def Exact (s : State) : Prop := s.totalSize = total size s.rows

instance (s : State) : Decidable (Exact s) := inferInstanceAs (Decidable (_ = _))

/-! ## Migrations -/

/-- Rows may move, and keep their lengths; none is added. -/
structure Moves (s s' : State) : Prop where
  totalSize : s'.totalSize = s.totalSize
  total : total size s'.rows = total size s.rows
  moved : ∀ key row, s.rows.lookup key = some row →
    ∃ row', s'.rows.lookup key = some row' ∧ Moved row row'
  absent : ∀ key, s.rows.lookup key = none → s'.rows.lookup key = none
  rowsOk : RowsOk s → RowsOk s'
  index : s'.index = s.index
  policy : s'.policy = s.policy
  compactionIndex : s'.compactionIndex.Sublist s.compactionIndex

/-- The operands of a batch move rows that are there. -/
def Staged (s : State) (wb : List (String × ValueMessage)) : Prop :=
  ∀ op ∈ wb, ∃ row, s.rows.lookup op.1 = some row ∧ MovesRow row op.2

section Moves

variable {s s₁ s₂ : State} {wb : List (String × ValueMessage)}

/-- Segments and what is said about them may change. -/
theorem Moves.of_eq (hsize : s₁.totalSize = s.totalSize) (hrows : s₁.rows = s.rows)
    (hstamp : s₁.lastStamp = s.lastStamp) (hindex : s₁.index = s.index)
    (hpolicy : s₁.policy = s.policy)
    (hcompaction : s₁.compactionIndex.Sublist s.compactionIndex) : Moves s s₁ where
  totalSize := hsize
  index := hindex
  policy := hpolicy
  compactionIndex := hcompaction
  total := by rw [hrows]
  moved key row hrow := ⟨row, hrows ▸ hrow, .refl row⟩
  absent key hnone := hrows ▸ hnone
  rowsOk hok := hok.of_subset (hstamp ▸ UInt64.le_refl _) fun _ _ hrow => hrows ▸ hrow

lemma Moves.refl (s : State) : Moves s s := .of_eq rfl rfl rfl rfl rfl (.refl _)

lemma Moves.trans (h : Moves s s₁) (h' : Moves s₁ s₂) : Moves s s₂ where
  totalSize := h'.totalSize.trans h.totalSize
  total := h'.total.trans h.total
  moved key row hrow := by
    obtain ⟨row₁, hrow₁, hmoved₁⟩ := h.moved key row hrow
    obtain ⟨row₂, hrow₂, hmoved₂⟩ := h'.moved key row₁ hrow₁
    exact ⟨row₂, hrow₂, hmoved₁.trans hmoved₂⟩
  absent key hnone := h'.absent key (h.absent key hnone)
  rowsOk := h'.rowsOk ∘ h.rowsOk
  index := h'.index.trans h.index
  policy := h'.policy.trans h.policy
  compactionIndex := h'.compactionIndex.trans h.compactionIndex

lemma Staged.of_moves (h : Staged s wb) (hmoves : Moves s s₁) : Staged s₁ wb := by
  intro op hop
  obtain ⟨row, hrow, hmove⟩ := h op hop
  obtain ⟨row', hrow', hmoved⟩ := hmoves.moved op.1 row hrow
  exact ⟨row', hrow', hmove.congr hmoved⟩

lemma moves_mergeRow {key : String} {row op : ValueMessage} (hrow : s.rows.lookup key = some row)
    (h : MovesRow row op) : Moves s (s.setRow key (mergeRow (s.rows.lookup key) [op])) := by
  rw [hrow]
  have hmoved := moved_mergeRow_migration h
  exact {
    totalSize := rfl
    total := by
      rw [State.setRow, total_insert, hrow, weight_some, hmoved.size, sub_add_cancel]
    moved := fun k r hr => by
      by_cases hk : k = key
      · subst hk
        cases hrow.symm.trans hr
        exact ⟨_, AList.lookup_insert _, hmoved⟩
      · exact ⟨r, (AList.lookup_insert_ne hk).trans hr, .refl r⟩
    absent := fun k hnone => by
      have hk : k ≠ key := by
        rintro rfl
        simp [hrow] at hnone
      exact (AList.lookup_insert_ne hk).trans hnone
    rowsOk := fun hok =>
      hok.setRow (rowOk_mergeRow_migration h (hok key row hrow)) (UInt64.le_refl _) rfl
    index := rfl
    policy := rfl
    compactionIndex := .refl _ }

lemma moves_applyMerges (h : Staged s wb) : Moves s (s.applyMerges wb) := by
  induction wb generalizing s with
  | nil => exact .refl s
  | cons op wb ih =>
    obtain ⟨row, hrow, hmove⟩ := h op (by simp)
    have hfirst := moves_mergeRow hrow hmove
    have hrest : Staged s wb := fun op' hop' => h op' (by simp [hop'])
    exact hfirst.trans (ih (hrest.of_moves hfirst))

lemma moves_commitBatch (h : Staged s wb) (dropped : List (String × String)) :
    Moves s (s.commitBatch wb dropped) :=
  have hcompaction : (s.applyMerges wb).compactionIndex = s.compactionIndex :=
    List.foldlRecOn (motive := fun s' : State => s'.compactionIndex = s.compactionIndex) wb _ rfl
      fun _ h _ _ => h
  (moves_applyMerges h).trans (.of_eq rfl rfl rfl rfl rfl (hcompaction ▸ List.filter_sublist))

lemma moves_acquire {path : SegmentPath} (h : s.acquire path = some s₁) : Moves s s₁ := by
  obtain ⟨-, rfl⟩ | ⟨rfl, -⟩ := State.acquire_eq_some h
  · exact .of_eq rfl rfl rfl rfl rfl (.refl _)
  · exact .refl _

lemma moves_finalizeSegment (s : State) (path : String) : Moves s (s.finalizeSegment path) := by
  unfold State.finalizeSegment
  split
  · exact .refl s
  · exact .of_eq rfl rfl rfl rfl rfl (.refl _)

lemma moves_writeEntry {path : String} {e : Entry} (h : s.writeEntry path e = some s₁) :
    Moves s s₁ := by
  obtain ⟨seg, -, -, rfl⟩ := State.writeEntry_eq_some h
  exact .of_eq rfl rfl rfl rfl rfl (.refl _)

end Moves

/-- A migration that started in `s` is in state `s'` with the batch `wb`. -/
structure Keeps (s s' : State) (wb : List (String × ValueMessage)) : Prop where
  moves : Moves s s'
  staged : Staged s' wb

section Keeps

variable {s s₁ s₂ : State} {wb : List (String × ValueMessage)}

lemma keeps_nil (h : Moves s s₁) : Keeps s s₁ [] := ⟨h, by simp [Staged]⟩

lemma Keeps.trans (h : Keeps s s₁ wb) (h' : Moves s₁ s₂) : Keeps s s₂ wb :=
  ⟨h.moves.trans h', h.staged.of_moves h'⟩

/-- A copy is written and its operand joins the batch. -/
theorem Keeps.stage (h : Keeps s s₁ wb) {path : String} {e : Entry}
    (hwrite : s₁.writeEntry path e = some s₂) {key : String} {row op : ValueMessage}
    (hrow : ∃ row', s₁.rows.lookup key = some row' ∧ Moved row row')
    (hop : MovesRow row op) : Keeps s s₂ (wb ++ [(key, op)]) := by
  have hmoves := moves_writeEntry hwrite
  obtain ⟨row₁, hread₁, hmoved₁⟩ := hrow
  obtain ⟨row₂, hread₂, hmoved₂⟩ := hmoves.moved key row₁ hread₁
  refine ⟨h.moves.trans hmoves, fun op' hop' => ?_⟩
  rcases List.mem_append.mp hop' with hop' | hop'
  · exact h.staged.of_moves hmoves op' hop'
  · obtain rfl := List.mem_singleton.mp hop'
    exact ⟨row₂, hread₂, hop.congr (hmoved₁.trans hmoved₂)⟩

end Keeps

namespace Compaction

variable {s : State} {c : Compaction}

lemma keeps_ensureCapacity (h : Staged c.state c.wb) (slot : Slot) :
    Keeps c.state (c.ensureCapacity slot).1.state (c.ensureCapacity slot).1.wb := by
  unfold ensureCapacity
  split
  · exact ⟨.refl _, h⟩
  · split
    · have hclosed : Moves c.state ((c.state.commitBatch c.wb c.dropped).finalizeSegment c.seg) :=
        (moves_commitBatch h c.dropped).trans (moves_finalizeSegment _ _)
      dsimp only
      split
      · rename_i s' hacquire
        exact keeps_nil (hclosed.trans (moves_acquire hacquire))
      · exact keeps_nil hclosed
    · exact ⟨.refl _, h⟩

variable (h : Keeps s c.state c.wb)

include h

lemma keeps_compactEntry (hok : RowsOk s) (slot : Slot) {key : String}
    (path : String) {vm : ValueMessage} (hrow : c.state.rows.lookup key = some vm) :
    Keeps s (c.compactEntry slot key path vm).state (c.compactEntry slot key path vm).wb := by
  have hvm := h.moves.rowsOk hok key vm hrow
  have hroom := keeps_ensureCapacity h.staged slot
  unfold compactEntry
  generalize c.ensureCapacity slot = room at hroom ⊢
  obtain ⟨c', hasRoom⟩ := room
  have hroom' : Keeps s c'.state c'.wb := ⟨h.moves.trans hroom.moves, hroom.staged⟩
  dsimp only
  split
  · split
    · rename_i s' hwrite
      -- A roll commits the batch; the row of this entry keeps its length through that.
      exact hroom'.stage hwrite (hroom.moves.moved key vm hrow) (movesRow_compactionOperand hvm _ _)
    · exact hroom'
  · exact hroom'

lemma keeps_next (hok : RowsOk s) (slot : String × String → Slot)
    (row : String × String) : Keeps s (c.next slot row).state (c.next slot row).wb := by
  unfold next
  split
  · split
    · exact h
    · rename_i vm hrow
      split
      · exact keeps_compactEntry h hok _ _ hrow
      · exact h
  · exact h

lemma keeps_foldl (hok : RowsOk s) (slot : String × String → Slot) (rows : List (String × String)) :
    Keeps s (rows.foldl (next slot) c).state (rows.foldl (next slot) c).wb :=
  List.foldlRecOn _ _ (motive := fun c : Compaction => Keeps s c.state c.wb) h fun _ hc row _ =>
    keeps_next hc hok slot row

end Compaction

variable {s : State}

/-- A run of the compactor moves rows, whatever fails in it. -/
theorem moves_compactFiles (hok : RowsOk s) (seg : SegmentPath) (slot : String × String → Slot)
    (ok : Bool) : Moves s (compactFiles s seg slot ok) := by
  unfold compactFiles
  split
  · exact .refl s
  · rename_i s' hacquire
    have hend := Compaction.keeps_foldl (c := ⟨s', seg, [], []⟩) (keeps_nil (moves_acquire hacquire))
      hok slot s.compactionIndex
    dsimp only
    split
    · exact hend.moves.trans (moves_commitBatch hend.staged _)
    · exact hend.moves

namespace Recompaction

variable {s : State} {r : Recompaction}

lemma moves_ensureCapacity {slot : Slot} {r' : Recompaction}
    (h : r.ensureCapacity slot = some r') : Moves r.state r'.state ∧ r'.wb = r.wb := by
  unfold ensureCapacity at h
  split at h
  · cases h
    exact ⟨.refl _, rfl⟩
  · obtain ⟨s', hacquire, rfl⟩ := Option.map_eq_some_iff.mp h
    have hclosed := moves_finalizeSegment r.state r.seg
    exact ⟨hclosed.trans (moves_acquire hacquire), rfl⟩

variable (h : Keeps s r.state r.wb)

include h

lemma keeps_copyEntry (hok : RowsOk s) (slot : Slot) {e : Entry}
    {vm : ValueMessage} (hrow : r.state.rows.lookup e.key = some vm) {old : String}
    (hplace : Store.segmentPlace vm = some (old, e.offset)) :
    Keeps s (r.copyEntry slot e vm).state (r.copyEntry slot e vm).wb := by
  have hvm := h.moves.rowsOk hok e.key vm hrow
  unfold copyEntry
  split
  · exact h
  · rename_i r' hroom
    obtain ⟨hmoves, hwb⟩ := moves_ensureCapacity hroom
    have hroom' : Keeps s r'.state r'.wb := hwb ▸ h.trans hmoves
    split
    · split
      · rename_i s' hwrite
        exact hroom'.stage hwrite (hmoves.moved e.key vm hrow)
          (movesRow_recompactionOperand hvm hplace _ _)
      · exact hroom'
    · exact hroom'

lemma keeps_next (hok : RowsOk s) (old : String) (slot : Entry → Slot)
    (e : Entry) : Keeps s (r.next old slot e).state (r.next old slot e).wb := by
  unfold next
  split
  · exact h
  · rename_i vm hrow
    split
    · rename_i hplace
      exact keeps_copyEntry h hok _ hrow hplace
    · exact h

lemma keeps_foldl (hok : RowsOk s) (old : String) (slot : Entry → Slot) (entries : List Entry) :
    Keeps s (entries.foldl (next old slot) r).state (entries.foldl (next old slot) r).wb :=
  List.foldlRecOn _ _ (motive := fun r : Recompaction => Keeps s r.state r.wb) h fun _ hr e _ =>
    keeps_next hr hok old slot e

end Recompaction

lemma keeps_moveEntries (hok : RowsOk s) {old : String} {o : Segment} {seg : SegmentPath}
    {slot : Entry → Slot} {r : Recompaction} (h : moveEntries s old o seg slot = some r) :
    Keeps s r.state r.wb := by
  obtain ⟨s', hacquire, rfl⟩ := Option.map_eq_some_iff.mp h
  exact Recompaction.keeps_foldl (r := ⟨s', seg, [], false⟩) (keeps_nil (moves_acquire hacquire)) hok
    old slot o.entries

/-- A pass of the recompactor moves rows, whatever fails in it. -/
theorem moves_recompactSegment (hok : RowsOk s) (old : String) (seg : SegmentPath)
    (slot : Entry → Slot) (ok : Bool) : Moves s (recompactSegment s old seg slot ok) := by
  unfold recompactSegment
  split
  · exact .refl s
  · split
    · exact .refl s
    · split
      · exact .refl s
      · rename_i r hr
        have hend := keeps_moveEntries hok hr
        have hcommit := hend.moves.trans (moves_applyMerges hend.staged)
        split
        · exact hend.moves
        · dsimp only
          split
          · exact hcommit
          · exact hcommit.trans (.of_eq rfl rfl rfl rfl rfl (.refl _))

/-! ## Steps -/

section Steps

variable {cfg : Settings} {s : State}

lemma rowsOk_put (h : RowsOk s) (u : Upload) (now : Nat) (ok : Bool) :
    RowsOk (put cfg s u now ok) := by
  unfold put
  dsimp only
  split
  · exact h.setRow (rowOk_putRow cfg u _) (UInt64.le_refl _) rfl
  · exact h

lemma exact_put (h : Exact s) (u : Upload) (now : Nat) (ok : Bool) :
    Exact (put cfg s u now ok) := by
  unfold put
  dsimp only
  split
  · show s.totalSize + (size _ - weight size _) = total size (s.rows.insert _ _)
    rw [total_insert, h]
    ring
  · exact h

lemma rowsOk_deleteKey (h : RowsOk s) (key : String) (ok : Bool) : RowsOk (deleteKey s key ok) := by
  unfold deleteKey
  split
  · exact h
  · dsimp only
    split
    · refine h.of_subset (UInt64.le_refl _) fun k row hrow => ?_
      exact (lookup_of_eraseAll (l := [(key, row)]) hrow).2
    · exact h

/-- The counter is lowered before the write. -/
theorem exact_deleteKey (h : Exact s) {key : String} {ok : Bool}
    (hok : ok = true ∨ weight size (s.rows.lookup key) = 0) : Exact (deleteKey s key ok) := by
  unfold deleteKey
  split
  · exact h
  · rename_i prev hprev
    rw [hprev, weight_some] at hok
    dsimp only
    split
    · show s.totalSize + -size prev = total size (s.rows.erase key)
      rw [total_erase, hprev, weight_some, h, sub_eq_add_neg]
    · rename_i hfailed
      show s.totalSize + -size prev = total size s.rows
      rw [hok.resolve_left hfailed, h, neg_zero, add_zero]

lemma rowsOk_putIfVersion (h : RowsOk s) (u : Upload) (expected stamp : UInt64)
    (first second : Int64) (now : Nat) (mergeOk bookOk creditOk : Bool) :
    RowsOk (putIfVersion cfg s u expected stamp first second now mergeOk bookOk creditOk) := by
  have hout := putOutcome_putIfVersion cfg h u expected stamp first second now mergeOk
    bookOk creditOk
  generalize putIfVersion cfg s u expected stamp first second now mergeOk bookOk creditOk = s'
    at hout ⊢
  cases hout with
  | kept hle => exact h.of_subset hle fun _ _ hrow => hrow
  | lost hstamp =>
    have hle := UInt64.le_of_lt hstamp
    exact h.setRow ((rowOk_baseOf h u.key).mono hle) hle rfl
  | won hstamp expected =>
    obtain ⟨hrows, hlast, -⟩ := finishWonCASPut_fields cfg
      ({ s with lastStamp := stamp }.setRow u.key
        (adopt (casPutOperand (u.payload cfg) u.expiry stamp expected))) u.key
      (casPutOperand (u.payload cfg) u.expiry stamp expected) (s.rows.lookup u.key) now bookOk creditOk
    refine h.setRow ?_ (hlast ▸ UInt64.le_of_lt hstamp) hrows
    rw [hlast]
    exact rowOk_adopt_casPutOperand cfg u stamp expected

/-- A lost merge leaves the bytes of what was there. -/
theorem exact_lost (h : Exact s) (key : String) (stamp : UInt64) :
    Exact ({ s with lastStamp := stamp }.setRow key
      ((baseOf (s.rows.lookup key)).getD (tombstone 0))) := by
  rw [Exact, State.setRow, total_insert, weight_baseOf isWeight_size, sub_add_cancel]
  exact h

lemma exact_putIfVersion (hrows : RowsOk s) (h : Exact s) (u : Upload) (expected stamp : UInt64)
    (first second : Int64) (now : Nat) (mergeOk bookOk creditOk : Bool) :
    Exact (putIfVersion cfg s u expected stamp first second now mergeOk bookOk creditOk) := by
  have hout := putOutcome_putIfVersion cfg hrows u expected stamp first second now mergeOk
    bookOk creditOk
  generalize putIfVersion cfg s u expected stamp first second now mergeOk bookOk creditOk = s'
    at hout ⊢
  cases hout with
  | kept _ => exact h
  | lost _ => exact exact_lost h u.key stamp
  | won _ expected =>
    -- A win counts the new value and takes the replaced one off.
    rw [Exact, (finishWonCASPut_fields cfg _ _ _ _ _ _ _).1,
      (finishWonCASPut_fields cfg _ _ _ _ _ _ _).2.2, State.setRow, total_insert]
    show s.totalSize + (size _ - weight size _) = _ - weight size _ + size _
    rw [h]
    show _ = _ - _ + size (casPutOperand (u.payload cfg) u.expiry stamp expected)
    ring

lemma rowsOk_deleteIfVersion (h : RowsOk s) (key : String) (expected stamp : UInt64)
    (now : Int64) (cutoff : Nat) (mergeOk creditOk dropOk : Bool) :
    RowsOk (deleteIfVersion s key expected stamp now cutoff mergeOk creditOk dropOk) := by
  have hout := deleteOutcome_deleteIfVersion h key expected stamp now cutoff mergeOk creditOk dropOk
  generalize deleteIfVersion s key expected stamp now cutoff mergeOk creditOk dropOk = s' at hout ⊢
  cases hout with
  | kept hle => exact h.of_subset hle fun _ _ hrow => hrow
  | lost hstamp =>
    have hle := UInt64.le_of_lt hstamp
    exact h.setRow ((rowOk_baseOf h key).mono hle) hle rfl
  | won hstamp =>
    obtain ⟨hrows, hlast, -⟩ := wonDelete_fields s key stamp cutoff creditOk dropOk
    have hle : s.lastStamp ≤ (wonDelete s key stamp cutoff creditOk dropOk).lastStamp := by
      rw [hlast]
      exact UInt64.le_of_lt hstamp
    refine h.setRow ?_ hle hrows
    rw [hlast]
    exact rowOk_tombstone (UInt64.le_refl _)

lemma exact_deleteIfVersion (hrows : RowsOk s) (h : Exact s) (key : String)
    (expected stamp : UInt64) (now : Int64) (cutoff : Nat) (mergeOk creditOk dropOk : Bool) :
    Exact (deleteIfVersion s key expected stamp now cutoff mergeOk creditOk dropOk) := by
  have hout := deleteOutcome_deleteIfVersion hrows key expected stamp now cutoff mergeOk creditOk dropOk
  generalize deleteIfVersion s key expected stamp now cutoff mergeOk creditOk dropOk = s' at hout ⊢
  cases hout with
  | kept _ => exact h
  | lost _ => exact exact_lost h key stamp
  | won _ =>
    -- The tombstone of a win has no bytes.
    obtain ⟨hinsert, -, hsize⟩ := wonDelete_fields s key stamp cutoff creditOk dropOk
    rw [Exact, hsize, hinsert, total_insert, isWeight_size.tombstone, h, add_zero, sub_eq_add_neg]

lemma backfill_fields (cfg : Settings) (s : State) (now : Nat) :
    (backfill cfg s now).rows = s.rows ∧ (backfill cfg s now).lastStamp = s.lastStamp := by
  unfold backfill
  refine List.foldlRecOn s.rows.keys _ (motive := fun s' : State =>
    s'.rows = s.rows ∧ s'.lastStamp = s.lastStamp) ⟨rfl, rfl⟩ fun s' hs' key _ => ?_
  split <;> exact hs'

end Steps

/-! ## Runs -/

/-- Rows keep their shape in every step. -/
theorem rowsOk_step (cfg : Settings) (h : RowsOk s) (e : Event) : RowsOk (step cfg s e) := by
  cases e with
  | put u now ok => exact rowsOk_put h u now ok
  | deleteKey key ok => exact rowsOk_deleteKey h key ok
  | putIfVersion u expected stamp first second now mergeOk bookOk creditOk =>
    exact rowsOk_putIfVersion h u expected stamp first second now mergeOk bookOk creditOk
  | deleteIfVersion key expected stamp now cutoff mergeOk creditOk dropOk =>
    exact rowsOk_deleteIfVersion h key expected stamp now cutoff mergeOk creditOk dropOk
  | cleanupExpiredKeys now retained failing =>
    exact (removal_cleanupExpiredKeys h now retained failing).rowsOk h
  | evictByIndex target now failing uncredited =>
    obtain ⟨gone, hgone⟩ := erases_evictByIndex s target now failing uncredited
    exact hgone.rowsOk h
  | compactFiles seg slot ok => exact (moves_compactFiles h seg slot ok).rowsOk h
  | recompactSegment old seg slot ok => exact (moves_recompactSegment h old seg slot ok).rowsOk h
  | get key now time collected =>
    show RowsOk (get cfg s key now time collected)
    unfold get
    split
    · exact h
    · split <;> exact h
  | flushBatch ok | cleanupOldBuckets cutoff => exact h
  | reconcileFromMetadata now =>
    obtain ⟨hrows, hlast⟩ := backfill_fields cfg s now
    exact h.of_subset (hlast ▸ UInt64.le_refl _) fun _ _ hrow => hrows ▸ hrow
  | restart policy => exact h

/-- The write of a delete succeeds, or there are no bytes to count; the eviction pass finds no key
with two entries to evict it through. After a restart the counter is not read before a reconcile. -/
def countsOnce (s : State) : Event → Bool
  | .deleteKey key ok => ok || weight size (s.rows.lookup key) = 0
  | .evictByIndex _ now _ _ => loneEntries s now
  | .restart _ => false
  | _ => true

lemma exact_step (cfg : Settings) {e : Event} (hrows : RowsOk s) (h : Exact s)
    (hok : countsOnce s e = true) : Exact (step cfg s e) := by
  have hremoval {uncredited : List String} {s' : State} (hcounted : Counted uncredited s s') :
      Exact s' := by
    obtain ⟨gone, hgone, hsize⟩ := hcounted
    rw [Exact, hsize, hgone.total_size, h]
  have hmoves {s' : State} (hmoves : Moves s s') : Exact s' :=
    hmoves.totalSize.trans (h.trans hmoves.total.symm)
  cases e with
  | put u now ok => exact exact_put h u now ok
  | deleteKey key ok => exact exact_deleteKey h (by simpa [countsOnce] using hok)
  | putIfVersion u expected stamp first second now mergeOk bookOk creditOk =>
    exact exact_putIfVersion hrows h ..
  | deleteIfVersion key expected stamp now cutoff mergeOk creditOk dropOk =>
    exact exact_deleteIfVersion hrows h ..
  | cleanupExpiredKeys now retained failing =>
    exact hremoval (removal_cleanupExpiredKeys hrows now retained failing)
  | evictByIndex target now failing uncredited =>
    exact hremoval (removal_evictByIndex hok target failing uncredited)
  | compactFiles seg slot ok => exact hmoves (moves_compactFiles hrows seg slot ok)
  | recompactSegment old seg slot ok => exact hmoves (moves_recompactSegment hrows old seg slot ok)
  | get key now time collected =>
    show Exact (get cfg s key now time collected)
    unfold get
    split
    · exact h
    · split <;> exact h
  | flushBatch ok | cleanupOldBuckets cutoff => exact h
  | reconcileFromMetadata now =>
    show total size s.rows = total size (backfill cfg s now).rows
    rw [(backfill_fields cfg s now).1]
  | restart policy => simp [countsOnce] at hok

/-- In every run in which no delete of bytes fails and no key is evicted twice in a pass, the
counter is the sum of the lengths of the rows after every operation, whichever other writes fail. -/
theorem totalSize_exact (cfg : Settings) (policy : Policy) (es : List Event)
    (h : RunOk (step cfg) (fun s e => countsOnce s e = true) (init policy) es) :
    Exact (run (step cfg) (init policy) es) := by
  have hinv : RowsOk (run (step cfg) (init policy) es) ∧ Exact (run (step cfg) (init policy) es) :=
    invariant_run (I := fun s => RowsOk s ∧ Exact s)
      (fun _ e hI hok => ⟨rowsOk_step cfg hI.1 e, exact_step cfg hI.1 hI.2 hok⟩)
      ⟨rowsOk_init policy, rfl⟩ h
  exact hinv.2

/-- Values of up to one byte stay in their row, up to four bytes are compacted. -/
def smallCache : Settings := { inlineThreshold := 1, compactThreshold := 4, capped := true }

variable (n : Nat)

def rawName : String := "r" ++ toString n

lemma rawName_ne : rawName n ≠ "" := by
  intro h
  have := congrArg String.length h
  simp [rawName] at this

lemma segmentName_ne : "s" ++ toString n ≠ "" := by
  intro h
  have := congrArg String.length h
  simp at this

def segmentName : SegmentPath := ⟨"s" ++ toString n, segmentName_ne n⟩

/-- A value of two bytes, in a raw file of its own. -/
def twoBytes (key : String) (file : Nat) (expiry : Int64) : Upload where
  key := key
  value := ⟨[1, 2], by decide⟩
  expiry := expiry
  path := rawName file
  path_ne := rawName_ne file

/-- A delete whose write fails. -/
def failedDelete : List Event :=
  [.put (twoBytes "a" 0 0) 1 true, .deleteKey "a" false]

/-- Overwrites leave entries behind, a delete takes the last one with the back-reference, and a CAS
whose bookkeeping fails brings the key back without either. -/
def twinEntries : List Event :=
  [.put (twoBytes "a" 0 0) 1 true, .put (twoBytes "a" 1 0) 2 true,
    .put (twoBytes "a" 2 0) 3 true, .deleteKey "a" true,
    .putIfVersion (twoBytes "a" 3 0) 0 2 10 10 4 true false true,
    .evictByIndex 100 (fun _ => 10) [] []]

/-- A delete whose write fails is counted, and the eviction pass counts a key twice. -/
theorem totalSize_drifts :
    ((run (step smallCache) (init .lru) failedDelete).totalSize = 0 ∧
        total size (run (step smallCache) (init .lru) failedDelete).rows = 2) ∧
      (run (step smallCache) (init .lru) twinEntries).totalSize = -2 ∧
        total size (run (step smallCache) (init .lru) twinEntries).rows = 0 := by
  decide +kernel

/-- Every operation, with writes that fail. -/
def mixedRun : List Event :=
  [.put (twoBytes "a" 0 0) 1 true, .put (twoBytes "b" 1 5) 2 true,
    .put (twoBytes "c" 2 0) 3 false,
    .putIfVersion (twoBytes "c" 3 0) 0 2 3 3 4 true false true,
    .putIfVersion (twoBytes "d" 4 0) 0 3 3 3 5 true true true,
    .compactFiles (segmentName 0) (fun row => { offset := if row.1 = "a" then 0 else 40 }) true,
    .deleteIfVersion "c" 2 4 3 6 true false true,
    .cleanupExpiredKeys 6 (fun _ => true) [0], .cleanupExpiredKeys 7 (fun _ => true) [],
    .compactFiles (segmentName 0) (fun _ => ⟨true, some (segmentName 1, true), true, 0⟩) true,
    .recompactSegment "s0" (segmentName 2) (fun e => { offset := e.offset }) true,
    .deleteKey "e" false, .evictByIndex 2 (fun _ => 8) [] [], .deleteKey "d" true]

theorem totalSize_exact_mixedRun :
    RunOk (step smallCache) (fun s e => countsOnce s e = true) (init .lru) mixedRun ∧
      Exact (run (step smallCache) (init .lru) mixedRun) := by
  have hok : RunOk (step smallCache) (fun s e => countsOnce s e = true) (init .lru) mixedRun := by
    decide +kernel
  exact ⟨hok, totalSize_exact smallCache .lru mixedRun hok⟩

end OCache.Accounting
