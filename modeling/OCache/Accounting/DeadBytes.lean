import OCache.Accounting.Ledger
import OCache.Accounting.IndexCoverage

/-!
# The dead bytes of segments

In a sequential run without failures the bytes that the delete index holds for a segment are the
bytes of the segment that no row points at. Every operation keeps the ledger of `Ledger.lean`: puts
and deletes credit what they replace, migrations write a copy and move the row to it, and a segment
that was recompacted goes with its delete index.

The eviction pass credits a key once for every entry that it evicts the key through. Live rows have
a back-reference under a disk cap, so there is one such entry.
-/

namespace OCache.Accounting

open Merge Total EventSystem

/-! ## Live rows and the index of the active policy -/

/-- Rows that are not tombstones have a back-reference. -/
def Indexed (s : State) : Prop :=
  ∀ key row, s.rows.lookup key = some row → row.expiry ≠ tombstoneExpiry →
    (s.index s.policy).backref key ≠ none

/-- With a cap live rows are indexed, without one the index of the active policy is empty. -/
structure Indexes (cfg : Settings) (s : State) : Prop where
  indexed : cfg.capped = true → Indexed s
  unindexed : cfg.capped = false → (s.index s.policy).entries = ∅

lemma indexes_init (cfg : Settings) (policy : Policy) : Indexes cfg (init policy) where
  indexed _ key row h := by simp [init] at h
  unindexed _ := rfl

section Indexes

variable {cfg : Settings} {s s' : State}

variable (h : Indexes cfg s)

include h

lemma Indexes.erases {gone : List (String × ValueMessage)} (hgone : Erases s gone s') :
    Indexes cfg s' where
  indexed hcap key row hrow hlive := by
    obtain ⟨hkept, hread⟩ := hgone.lookup hrow
    rw [hgone.policy, hgone.backref key hkept]
    exact h.indexed hcap key row hread hlive
  unindexed hcap := by
    rw [hgone.policy]
    exact Finset.subset_empty.mp (h.unindexed hcap ▸ hgone.entries)

/-- A row that is live after a migration was live before. -/
theorem Indexes.moves (hmoves : Moves s s') : Indexes cfg s' where
  indexed hcap key row' hrow' hlive := by
    rw [hmoves.index, hmoves.policy]
    cases hrow : s.rows.lookup key with
    | none => simp [hmoves.absent key hrow] at hrow'
    | some row =>
      obtain ⟨row'', hrow'', hmoved⟩ := hmoves.moved key row hrow
      obtain rfl : row' = row'' := Option.some.inj (hrow'.symm.trans hrow'')
      have hexpiry := hmoved.expiry.resolve_right hlive
      exact h.indexed hcap key row hrow (hexpiry ▸ hlive)
  unindexed hcap := by
    rw [hmoves.index, hmoves.policy]
    exact h.unindexed hcap

/-- The row of a key changes with the index of the active policy. -/
theorem Indexes.setRow {key : String} (row : ValueMessage) (hrows : s'.rows = s.rows.insert key row)
    (hpolicy : s'.policy = s.policy) (hself : cfg.capped = true → row.expiry ≠ tombstoneExpiry →
      (s'.index s.policy).backref key ≠ none) (hother : cfg.capped = true → ∀ k, k ≠ key →
      (s'.index s.policy).backref k = (s.index s.policy).backref k)
    (hentries : cfg.capped = false → (s'.index s.policy).entries = ∅) : Indexes cfg s' where
  indexed hcap k r hr hlive := by
    rw [hpolicy]
    rw [hrows] at hr
    by_cases hk : k = key
    · subst hk
      rw [AList.lookup_insert] at hr
      cases hr
      exact hself hcap hlive
    · rw [AList.lookup_insert_ne hk] at hr
      rw [hother hcap k hk]
      exact h.indexed hcap k r hr hlive
  unindexed hcap := by
    rw [hpolicy]
    exact hentries hcap

/-- A put of a key indexes it. -/
theorem Indexes.indexKey (s₁ : State) (key : String) (row : ValueMessage) (now : Nat)
    (hrows : s₁.rows = s.rows.insert key row) (hpolicy : s₁.policy = s.policy)
    (hindex : s₁.index = s.index) : Indexes cfg (s₁.indexKey cfg key now) := by
  refine h.setRow row hrows hpolicy ?_ ?_ ?_
  · intro hcap _
    rw [← hpolicy, backref_indexKey hcap, if_pos rfl]
    simp
  · intro hcap k hk
    rw [← hpolicy, backref_indexKey hcap, if_neg hk, hindex]
  · intro hcap
    have hempty := h.unindexed hcap
    simpa [State.indexKey, hcap, hpolicy, hindex] using hempty

/-- A lost merge leaves the row, or a tombstone where none was. -/
theorem Indexes.lost (key : String) (stamp : UInt64) :
    Indexes cfg ({ s with lastStamp := stamp }.setRow key
      ((baseOf (s.rows.lookup key)).getD (tombstone 0))) := by
  refine h.setRow _ rfl rfl ?_ (fun _ _ _ => rfl) h.unindexed
  intro hcap hlive
  cases hbase : baseOf (s.rows.lookup key) with
  | none => exact absurd (by rw [hbase]; rfl) hlive
  | some row =>
    rw [hbase] at hlive
    exact h.indexed hcap key row (eq_some_of_baseOf hbase) hlive

end Indexes

variable {key : String} {cfg : Settings} {s : State} {wb : List (String × ValueMessage)}
  {u : Upload}

/-- A drop touches one key. -/
theorem backref_dropDeadEvictionGeneration (i : Index) {k : String} (hk : k ≠ key) (cutoff : Nat)
    (deadEntry : Option IndexEntry) :
    (dropDeadEvictionGeneration i key cutoff deadEntry).backref k = i.backref k := by
  unfold dropDeadEvictionGeneration
  dsimp only
  split
  · split
    · simp [BackrefIndex.remove, BackrefIndex.discard, hk]
    · rfl
  · rfl

lemma entries_dropDeadEvictionGeneration (i : Index) (key : String) (cutoff : Nat)
    (deadEntry : Option IndexEntry) :
    (dropDeadEvictionGeneration i key cutoff deadEntry).entries ⊆ i.entries := by
  unfold dropDeadEvictionGeneration
  dsimp only
  split
  · split
    · exact Finset.sdiff_subset.trans Finset.sdiff_subset
    · exact Finset.sdiff_subset
  · exact Finset.sdiff_subset

/-- Under a clock that is past the tombstones' expiry, a live row is evicted through the entry that
its back-reference names. -/
theorem Indexes.loneEntries (h : Indexes cfg s) {now : IndexEntry → Int64}
    (hclock : ∀ e ∈ (s.index s.policy).ordered, tombstoneExpiry ≤ now e) :
    loneEntries s now = true := by
  -- Entries through which a key is evicted are the one its back-reference names.
  have hnamed : cfg.capped = true → ∀ e ∈ (s.index s.policy).ordered,
      evictable s now e = true → (s.index s.policy).backref e.key = some e := by
    intro hcap e he hevict
    simp only [evictable, Bool.and_eq_true, Option.any_eq_true] at hevict
    obtain ⟨⟨row, hrow, hlive⟩, hbackref⟩ := hevict
    have hne : row.expiry ≠ tombstoneExpiry := by
      intro htombstone
      have hexpired : Store.expired (now e) row = true := by
        simp only [Store.expired, htombstone, decide_eq_true_eq]
        exact ⟨by decide, hclock e he⟩
      simp [hexpired] at hlive
    obtain ⟨current, hcurrent⟩ := Option.ne_none_iff_exists'.mp (h.indexed hcap e.key row hrow hne)
    simpa [hcurrent] using hbackref
  cases hcap : cfg.capped with
  -- Without a cap nothing is indexed.
  | false =>
    have hnil : (s.index s.policy).ordered = [] := by
      rw [List.eq_nil_iff_forall_not_mem]
      intro e he
      have := BackrefIndex.mem_ordered.mp he
      simp [h.unindexed hcap] at this
    simp [Accounting.loneEntries, hnil]
  | true =>
    refine List.all_eq_true.mpr fun e he => List.all_eq_true.mpr fun e' he' => ?_
    by_cases hboth : e.key = e'.key ∧ evictable s now e = true ∧ evictable s now e' = true
    · obtain ⟨hkey, hevict, hevict'⟩ := hboth
      have heq := (hnamed hcap e he hevict).symm.trans (hkey ▸ hnamed hcap e' he' hevict')
      simp [Option.some.inj heq]
    · simp only [not_and] at hboth
      by_cases hkey : e.key = e'.key
      · cases hevict : evictable s now e with
        | false => simp
        | true => simp [hboth hkey hevict]
      · simp [hkey]

/-! ## Puts and deletes -/

section Calls

variable {cfg : Settings} {s : State}

lemma segmentPlace_putRow (u : Upload) (expiry : Int64) :
    Store.segmentPlace (Store.putRow (u.payload cfg) expiry) = none := by
  unfold Upload.payload Store.Config.payload
  split <;> simp [Store.segmentPlace, Store.putRow]

lemma segmentPlace_adopt_casPutOperand (u : Upload) (stamp expected : UInt64) :
    Store.segmentPlace (adopt (casPutOperand (u.payload cfg) u.expiry stamp expected)) = none := by
  unfold Upload.payload Store.Config.payload
  split <;> simp [Store.segmentPlace, casPutOperand, adopt]

lemma indexes_put (h : Indexes cfg s) (u : Upload) (now : Nat) (ok : Bool) :
    Indexes cfg (put cfg s u now ok) := by
  unfold put
  dsimp only
  split
  · have hindexed := h.indexKey
      (((s.setRow u.key (Store.putRow (u.payload cfg) u.expiry)).indexRaw cfg u.key
        (Store.putRow (u.payload cfg) u.expiry)).creditReplaced (s.rows.lookup u.key)) u.key
      (Store.putRow (u.payload cfg) u.expiry) now rfl rfl rfl
    exact { hindexed with }
  · exact h

variable (hrows : RowsOk s)

include hrows

lemma ledger_put (h : Ledger none s []) (u : Upload) (now : Nat) :
    Ledger none (put cfg s u now true) [] :=
  h.replace hrows (segmentPlace_putRow u u.expiry) rfl rfl rfl

/-- A lost merge leaves the row as it was, or puts a tombstone where there was no value. -/
theorem ledger_lost (h : Ledger none s []) (key : String) (stamp : UInt64) :
    Ledger none ({ s with lastStamp := stamp }.setRow key
      ((baseOf (s.rows.lookup key)).getD (tombstone 0))) [] := by
  cases hbase : baseOf (s.rows.lookup key) with
  | none =>
    have hdead : s.deleteIndex =
        (s.rows.lookup key).elim s.deleteIndex (credited s.deleteIndex) := by
      unfold baseOf at hbase
      split at hbase
      · rename_i hdefault
        simp [hdefault, credited]
      · simp [hbase]
    have hplace : Store.segmentPlace (tombstone 0) = none := rfl
    exact h.replace hrows hplace rfl hdead rfl
  | some row => exact h.rewrite (eq_some_of_baseOf hbase) rfl rfl rfl

lemma ledger_putIfVersion (h : Ledger none s []) (u : Upload)
    (expected stamp : UInt64) (first second : Int64) (now : Nat) (mergeOk : Bool) :
    Ledger none (putIfVersion cfg s u expected stamp first second now mergeOk true true) [] := by
  have hout := putOutcome_putIfVersion cfg hrows u expected stamp first second now mergeOk true true
  generalize putIfVersion cfg s u expected stamp first second now mergeOk true true = s' at hout ⊢
  cases hout with
  | kept _ => exact { h with staged := by simp }
  | lost _ => exact ledger_lost hrows h u.key stamp
  | won _ expected =>
    exact h.replace hrows (segmentPlace_adopt_casPutOperand u stamp expected) rfl rfl rfl

lemma ledger_deleteIfVersion (h : Ledger none s []) (key : String)
    (expected stamp : UInt64) (now : Int64) (cutoff : Nat) (mergeOk dropOk : Bool) :
    Ledger none (deleteIfVersion s key expected stamp now cutoff mergeOk true dropOk) [] := by
  have hout := deleteOutcome_deleteIfVersion hrows key expected stamp now cutoff mergeOk true dropOk
  generalize deleteIfVersion s key expected stamp now cutoff mergeOk true dropOk = s' at hout ⊢
  cases hout with
  | kept _ => exact { h with staged := by simp }
  | lost _ => exact ledger_lost hrows h key stamp
  | won _ =>
    have hplace : Store.segmentPlace (tombstone stamp) = none := rfl
    cases dropOk <;> exact h.replace hrows hplace rfl rfl rfl

lemma indexes_putIfVersion (h : Indexes cfg s) (u : Upload)
    (expected stamp : UInt64) (first second : Int64) (now : Nat) (mergeOk creditOk : Bool) :
    Indexes cfg (putIfVersion cfg s u expected stamp first second now mergeOk true creditOk) := by
  have hout := putOutcome_putIfVersion cfg hrows u expected stamp first second now mergeOk true
    creditOk
  generalize putIfVersion cfg s u expected stamp first second now mergeOk true creditOk = s'
    at hout ⊢
  cases hout with
  | kept _ => exact { h with }
  | lost _ => exact h.lost u.key stamp
  | won _ expected =>
    have hindexed := h.indexKey
      (({ s with lastStamp := stamp }.setRow u.key
        (adopt (casPutOperand (u.payload cfg) u.expiry stamp expected))).indexRaw cfg u.key
        (casPutOperand (u.payload cfg) u.expiry stamp expected)) u.key
      (adopt (casPutOperand (u.payload cfg) u.expiry stamp expected)) now rfl rfl rfl
    cases creditOk <;> exact { hindexed with }

lemma indexes_deleteIfVersion (h : Indexes cfg s) (key : String)
    (expected stamp : UInt64) (now : Int64) (cutoff : Nat) (mergeOk creditOk dropOk : Bool) :
    Indexes cfg (deleteIfVersion s key expected stamp now cutoff mergeOk creditOk dropOk) := by
  have hout := deleteOutcome_deleteIfVersion hrows key expected stamp now cutoff mergeOk creditOk
    dropOk
  generalize deleteIfVersion s key expected stamp now cutoff mergeOk creditOk dropOk = s' at hout ⊢
  cases hout with
  | kept _ => exact { h with }
  | lost _ => exact h.lost key stamp
  | won _ =>
    refine h.setRow (tombstone stamp) (wonDelete_fields s key stamp cutoff creditOk dropOk).1
      ?_ (fun _ hlive => absurd rfl hlive) ?_ ?_
    · cases creditOk <;> cases dropOk <;> rfl
    · intro _ k hk
      cases creditOk <;> cases dropOk <;>
        simp [wonDelete, backref_dropDeadEvictionGeneration _ hk]
    · intro hcap
      have hempty := h.unindexed hcap
      have hdropped := entries_dropDeadEvictionGeneration (s.index s.policy) key cutoff
        ((s.index s.policy).backref key)
      rw [hempty, Finset.subset_empty] at hdropped
      cases creditOk <;> cases dropOk <;>
        simp [wonDelete, hempty, hdropped]

end Calls

/-! ## Compaction -/

lemma lookup_applyMerges_of_notMem (h : key ∉ wb.map Prod.fst) :
    (s.applyMerges wb).rows.lookup key = s.rows.lookup key := by
  induction wb generalizing s with
  | nil => rfl
  | cons op wb ih =>
    simp only [List.map_cons, List.mem_cons, not_or] at h
    exact (ih h.2).trans (AList.lookup_insert_ne h.1)

/-- The index rows that a committed batch deletes do not count. -/
theorem Ledger.commitBatch {skip : Option String} (h : Ledger skip s wb)
    (dropped : List (String × String)) : Ledger skip (s.commitBatch wb dropped) [] :=
  { h.applyMerges with staged := by simp }

namespace Compaction

/-- A run of the compactor between two rows of the index, with `rest` ahead: what it has staged
names no file that is ahead for the same key. -/
structure Books (s : State) (c : Compaction) (rest : List (String × String)) : Prop where
  keeps : Keeps s c.state c.wb
  ledger : Ledger none c.state c.wb
  behind : ∀ op ∈ c.wb, (op.1, op.2.rawFilePath) ∉ rest

variable {s : State} {c : Compaction} {rest : List (String × String)}

variable {row : String × String} {key : String} {vm : ValueMessage}

lemma Books.tail (h : Books s c (row :: rest)) : Books s c rest :=
  { h with behind := fun op hop hmem => h.behind op hop (List.mem_cons_of_mem _ hmem) }

/-- The row of an index row that is still ahead is not staged. -/
theorem Books.notMem (h : Books s c rest) (hrow : c.state.rows.lookup key = some vm)
    (hraw : vm.valueType = .rawFile) (hahead : (key, vm.rawFilePath) ∈ rest) :
    key ∉ c.wb.map Prod.fst := by
  intro hmem
  obtain ⟨op, hop, rfl⟩ := List.mem_map.mp hmem
  obtain ⟨row, hlands⟩ := h.ledger.staged op hop
  obtain rfl : vm = row := Option.some.inj (hrow.symm.trans hlands.lookup)
  -- A staged operand names the raw file that its row has.
  have hpath : vm.rawFilePath = op.2.rawFilePath := by
    have hmatch := hlands.pathMatches
    simpa [pathMatches, hraw] using hmatch
  exact h.behind op hop (hpath ▸ hahead)

lemma ledger_ensureCapacity (h : Ledger none c.state c.wb) (slot : Slot) :
    Ledger none (c.ensureCapacity slot).1.state (c.ensureCapacity slot).1.wb := by
  unfold ensureCapacity
  split
  · exact h
  · split
    · have hclosed := (h.commitBatch c.dropped).finalizeSegment c.seg
      dsimp only
      split
      · rename_i hacquire
        exact hclosed.acquire hacquire
      · exact hclosed
    · exact h

/-- A roll commits the batch, and keeps the rows that are not in it. -/
theorem ensureCapacity_spec (c : Compaction) (slot : Slot) :
    (∀ key, key ∉ c.wb.map Prod.fst →
      (c.ensureCapacity slot).1.state.rows.lookup key = c.state.rows.lookup key) ∧
      ((c.ensureCapacity slot).1.wb = c.wb ∨ (c.ensureCapacity slot).1.wb = []) := by
  have hcommit : ∀ key, key ∉ c.wb.map Prod.fst →
      ((c.state.commitBatch c.wb c.dropped).finalizeSegment c.seg).rows.lookup key =
        c.state.rows.lookup key := by
    intro key hkey
    rw [State.finalizeSegment_rows]
    exact lookup_applyMerges_of_notMem hkey
  unfold ensureCapacity
  split
  · exact ⟨fun _ _ => rfl, .inl rfl⟩
  · -- The segment is full: the batch is committed and another segment acquired, if there is one.
    split
    · dsimp only
      split
      · rename_i s' hacquire
        refine ⟨fun key hkey => ?_, .inr rfl⟩
        rw [← hcommit key hkey]
        obtain ⟨-, rfl⟩ | ⟨rfl, -⟩ := State.acquire_eq_some hacquire
        · rfl
        · rfl
      · exact ⟨hcommit, .inr rfl⟩
    · exact ⟨fun _ _ => rfl, .inl rfl⟩

lemma Books.compactEntry {path : String} (h : Books s c ((key, path) :: rest)) (hok : RowsOk s)
    (hnew : (key, path) ∉ rest) (slot : Slot) (hrow : c.state.rows.lookup key = some vm)
    (hraw : vm.valueType = .rawFile) (hpath : vm.rawFilePath = path) :
    Books s (c.compactEntry slot key path vm) rest := by
  subst hpath
  have hkeeps := keeps_compactEntry h.keeps hok slot vm.rawFilePath hrow
  have hvm := h.keeps.moves.rowsOk hok key vm hrow
  have hunstaged := h.notMem hrow hraw (by simp)
  have hroom := ledger_ensureCapacity h.ledger slot
  obtain ⟨hrows, hwb⟩ := ensureCapacity_spec c slot
  unfold Compaction.compactEntry at hkeeps ⊢
  generalize c.ensureCapacity slot = room at hkeeps hroom hrows hwb ⊢
  obtain ⟨c', hasRoom⟩ := room
  dsimp only at hkeeps hroom hrows hwb ⊢
  -- What is staged is behind in the index, also if the batch was emptied.
  have hbehind : ∀ op ∈ c'.wb, (op.1, op.2.rawFilePath) ∉ rest := by
    intro op hop
    rcases hwb with hwb | hwb
    · exact h.tail.behind op (hwb ▸ hop)
    · simp [hwb] at hop
  split
  · rename_i hcopy
    rw [if_pos hcopy] at hkeeps
    split
    · rename_i s' hwrite
      simp only [hwrite] at hkeeps
      have hunstaged' : key ∉ c'.wb.map Prod.fst := by
        rcases hwb with hwb | hwb
        · exact hwb ▸ hunstaged
        · simp [hwb]
      refine ⟨hkeeps, ?_, fun op hop => ?_⟩
      · refine hroom.stage hwrite ((hrows key hunstaged).trans hrow) ?_ rfl ?_ rfl ?_
          (by simp) hunstaged'
        · exact ⟨hvm.opType, hvm.path_ne hraw, .inl rfl⟩
        · simp [pathMatches, hraw, compactionOperand]
        · simp [Store.segmentPlace, hraw]
      · rcases List.mem_append.mp hop with hop | hop
        · exact hbehind op hop
        · obtain rfl := List.mem_singleton.mp hop
          exact hnew
    · rename_i hwrite
      simp only [hwrite] at hkeeps
      exact ⟨hkeeps, hroom, hbehind⟩
  · rename_i hcopy
    rw [if_neg hcopy] at hkeeps
    exact ⟨hkeeps, hroom, hbehind⟩

lemma Books.next (h : Books s c (row :: rest)) (hok : RowsOk s) (hnew : row ∉ rest)
    (slot : String × String → Slot) : Books s (c.next slot row) rest := by
  unfold Compaction.next
  split
  · split
    · exact { h.tail with }
    · rename_i vm hrow
      split
      · rename_i hvalid
        exact h.compactEntry hok hnew _ hrow hvalid.1 hvalid.2
      · exact { h.tail with }
  · exact h.tail

lemma Books.foldl (h : Books s c rest) (hok : RowsOk s) (hnodup : rest.Nodup)
    (slot : String × String → Slot) : Books s (rest.foldl (Compaction.next slot) c) [] := by
  induction rest generalizing c with
  | nil => exact h
  | cons row rest ih =>
    obtain ⟨hnew, hrest⟩ := List.nodup_cons.mp hnodup
    exact ih (h.next hok hnew slot) hrest

end Compaction

lemma ledger_compactFiles (hrows : RowsOk s) (h : Ledger none s [])
    (hnodup : s.compactionIndex.Nodup) (seg : SegmentPath) (slot : String × String → Slot) :
    Ledger none (compactFiles s seg slot true) [] := by
  unfold compactFiles
  split
  · exact h
  · rename_i s' hacquire
    have hstart : Compaction.Books s ⟨s', seg, [], []⟩ s.compactionIndex :=
      ⟨keeps_nil (moves_acquire hacquire), h.acquire hacquire, by simp⟩
    have hend := hstart.foldl hrows hnodup slot
    exact hend.ledger.commitBatch _

/-! ## Recompaction -/

variable {row : ValueMessage}

/-- The rows after the merges of a batch: those that are not in it, and those at the copies. -/
theorem Ledger.lookup_applyMerges {skip : Option String} (h : Ledger skip s wb)
    (hrow : (s.applyMerges wb).rows.lookup key = some row) :
    (key ∉ wb.map Prod.fst ∧ s.rows.lookup key = some row) ∨
      ∃ offset path, Store.segmentPlace row = some (path, offset) ∧ skip ≠ some path := by
  induction wb generalizing s with
  | nil => exact .inl ⟨by simp, hrow⟩
  | cons op wb ih =>
    rcases ih h.merge hrow with ⟨hkey, hread⟩ | hplaced
    · -- The merge lands, so the row is at the copy.
      by_cases heq : key = op.1
      · subst heq
        obtain ⟨base, hlands⟩ := h.staged op (by simp)
        rw [State.setRow, AList.lookup_insert, mergeRow_of_lands hlands] at hread
        cases hread
        exact .inr ⟨op.2.segmentOffset, op.2.segmentPath,
          by simp [Store.segmentPlace, migrated, hlands.segment], hlands.target⟩
      · rw [State.setRow, AList.lookup_insert_ne heq] at hread
        exact .inl ⟨by simp [heq, hkey], hread⟩
    · exact .inr hplaced

namespace Recompaction

/-- A pass over the closed segment `o` between two entries, with `rest` ahead. The rows at the
segment are staged, or their entries are ahead. -/
structure Books (s : State) (old : String) (o : Segment) (r : Recompaction) (rest : List Entry) :
    Prop where
  rows : r.state.rows = s.rows
  ledger : Ledger (some old) r.state r.wb
  closed : r.state.segments old = some o
  seg_ne : r.seg.1 ≠ old
  behind : ∀ op ∈ r.wb, ∃ row offset, s.rows.lookup op.1 = some row ∧
    Store.segmentPlace row = some (old, offset) ∧ offset ∉ rest.map (·.offset)
  ahead : r.failed = false → ∀ key row offset, s.rows.lookup key = some row →
    Store.segmentPlace row = some (old, offset) →
      key ∈ r.wb.map Prod.fst ∨ offset ∈ rest.map (·.offset)

variable {s : State} {old : String} {o : Segment} {r : Recompaction} {rest : List Entry}

variable {s s' : State} {vm : ValueMessage}

/-- A segment that is acquired is open, so it is not the one that is recompacted. -/
theorem acquire_spec {path : SegmentPath} (h : s.acquire path = some s')
    (hclosed : s.segments old = some o) (ho : o.opened = false) :
    s'.rows = s.rows ∧ s'.segments old = some o ∧ path.1 ≠ old := by
  obtain ⟨hnone, rfl⟩ | ⟨rfl, seg, hseg, hopened⟩ := State.acquire_eq_some h
  · have hne : path.1 ≠ old := by
      rintro rfl
      simp [hclosed] at hnone
    exact ⟨rfl, by simpa [Function.update_of_ne hne.symm] using hclosed, hne⟩
  · refine ⟨rfl, hclosed, ?_⟩
    rintro rfl
    obtain rfl : o = seg := Option.some.inj (hclosed.symm.trans hseg)
    simp [ho] at hopened

lemma finalizeSegment_other {path : String} (hne : path ≠ old) (s : State) :
    (s.finalizeSegment path).segments old = s.segments old := by
  unfold State.finalizeSegment
  split
  · rfl
  · simp [Function.update_of_ne hne.symm]

lemma Books.ensureCapacity (h : Books s old o r rest) (ho : o.opened = false) {slot : Slot}
    {r' : Recompaction} (hroom : r.ensureCapacity slot = some r') :
    Books s old o r' rest ∧ r'.wb = r.wb := by
  unfold Recompaction.ensureCapacity at hroom
  split at hroom
  · cases hroom
    exact ⟨h, rfl⟩
  · obtain ⟨s', hacquire, rfl⟩ := Option.map_eq_some_iff.mp hroom
    obtain ⟨hrows, hclosed', hne⟩ :=
      acquire_spec hacquire ((finalizeSegment_other h.seg_ne r.state).trans h.closed) ho
    exact ⟨{ h with
      rows := hrows.trans ((r.state.finalizeSegment_rows _).trans h.rows)
      ledger := (h.ledger.finalizeSegment r.seg).acquire hacquire
      closed := hclosed'
      seg_ne := hne }, rfl⟩

variable {e : Entry}

/-- A write to one segment changes neither rows nor other segments. -/
theorem writeEntry_other {seg : SegmentPath} {old : String} (hwrite : s.writeEntry seg e = some s')
    (hne : old ≠ seg) : s'.rows = s.rows ∧ s'.segments old = s.segments old := by
  obtain ⟨seg', -, -, rfl⟩ := State.writeEntry_eq_some hwrite
  exact ⟨rfl, by simp [hne]⟩

section

variable (h : Books s old o r (e :: rest))

include h

/-- The pass goes on without a copy, if no row is at the entry or the copy failed. -/
theorem Books.skip {failed : Bool}
    (hfailed : failed = false → r.failed = false ∧ ∀ key row, s.rows.lookup key = some row →
      Store.segmentPlace row ≠ some (old, e.offset)) :
    Books s old o { r with failed := failed } rest :=
  { h with
    behind := fun op hop => by
      obtain ⟨row, offset, hrow, hplace, hnot⟩ := h.behind op hop
      exact ⟨row, offset, hrow, hplace, fun hmem => hnot (List.mem_cons_of_mem _ hmem)⟩
    ahead := fun hf key row offset hrow hplace => by
      obtain ⟨hr, hnone⟩ := hfailed hf
      refine (h.ahead hr key row offset hrow hplace).imp_right fun hmem => ?_
      refine (List.mem_cons.mp hmem).resolve_left fun heq => ?_
      subst heq
      exact hnone key row hrow hplace }

/-- The row at the next entry is not staged yet. -/
theorem Books.notMem_staged (hrow : s.rows.lookup e.key = some vm)
    (hplace : Store.segmentPlace vm = some (old, e.offset)) : e.key ∉ r.wb.map Prod.fst := by
  intro hmem
  obtain ⟨op, hop, hkey⟩ := List.mem_map.mp hmem
  obtain ⟨row, offset, hread, hat, hnot⟩ := h.behind op hop
  rw [hkey] at hread
  obtain rfl : vm = row := Option.some.inj (hrow.symm.trans hread)
  -- A key has one row, and the row of a staged entry is not at an offset ahead.
  have hoffset : e.offset = offset := by simpa using hplace.symm.trans hat
  exact hnot (by simp [hoffset])

lemma Books.copyEntry (hok : RowsOk s) (ho : o.opened = false)
    (holdne : old ≠ "") (hnew : e.offset ∉ rest.map (·.offset)) (slot : Slot)
    (hrow : s.rows.lookup e.key = some vm) (hplace : Store.segmentPlace vm = some (old, e.offset))
    (he : e.length = vm.valueLength) : Books s old o (r.copyEntry slot e vm) rest := by
  have hplaced : vm.valueType = .segment ∧ vm.segmentPath = old := by
    simp only [Store.segmentPlace, Option.ite_none_right_eq_some, Option.some.injEq,
      Prod.mk.injEq] at hplace
    exact ⟨hplace.1, hplace.2.1⟩
  unfold Recompaction.copyEntry
  split
  · exact h.skip (by simp)
  · rename_i r' hroom
    obtain ⟨h', hwb⟩ := h.ensureCapacity ho hroom
    split
    · split
      · rename_i s' hwrite
        have hunstaged := h'.notMem_staged hrow hplace
        have hgrown := writeEntry_other hwrite h'.seg_ne.symm
        -- The entry is written and the row that points to it is staged.
        have hledger : Ledger (some old) s'
            (r'.wb ++ [(e.key, recompactionOperand vm r'.seg slot.offset)]) := by
          have hrow' : r'.state.rows.lookup e.key = some vm := h'.rows ▸ hrow
          refine h'.ledger.stage ?_ hrow' ?_ hplaced.1 ?_ rfl ?_ ?_ hunstaged
          · rw [← hwrite, he]
            rfl
          · refine ⟨(hok e.key vm hrow).opType, ?_, .inl hplaced.1⟩
            simpa [recompactionOperand, hplaced.2] using holdne
          · simp [pathMatches, hplaced.1, recompactionOperand]
          · intro path offset hat
            have hsame : old = path ∧ e.offset = offset := by simpa using hplace.symm.trans hat
            exact congrArg some hsame.1
          · simpa [recompactionOperand] using h'.seg_ne.symm
        exact {
          rows := hgrown.1.trans h'.rows
          ledger := hledger
          closed := hgrown.2.trans h'.closed
          seg_ne := h'.seg_ne
          behind := fun op hop => by
            rcases List.mem_append.mp hop with hop | hop
            · obtain ⟨row, offset, hread, hat, hnot⟩ := h'.behind op hop
              exact ⟨row, offset, hread, hat, fun hmem => hnot (List.mem_cons_of_mem _ hmem)⟩
            · obtain rfl := List.mem_singleton.mp hop
              exact ⟨vm, e.offset, hrow, hplace, hnew⟩
          ahead := fun hf key row offset hread hat => by
            rcases h'.ahead hf key row offset hread hat with hstaged | hahead
            · exact .inl (by simp [hstaged])
            · rcases List.mem_cons.mp hahead with rfl | hahead
              · -- The row at this entry is the one that was copied.
                obtain ⟨seg, hseg, hentry⟩ := h.ledger.placed e.key vm old e.offset
                  (h.rows ▸ hrow) hplace
                obtain ⟨seg', hseg', hentry'⟩ := h.ledger.placed key row old e.offset
                  (h.rows ▸ hread) hat
                obtain rfl : seg = seg' := Option.some.inj (hseg.symm.trans hseg')
                have heq := h.ledger.eq_of_offset hseg hentry hentry' rfl
                simp only [Entry.mk.injEq] at heq
                exact .inl (by simp [heq.1])
              · exact .inr hahead }
      · exact h'.skip (by simp)
    · exact h'.skip (by simp)

lemma Books.next (hok : RowsOk s) (ho : o.opened = false)
    (he : e ∈ o.entries) (hnew : e.offset ∉ rest.map (·.offset)) (slot : Entry → Slot) :
    Books s old o (r.next old slot e) rest := by
  -- A row at this offset has the key and the length of the entry.
  have hat : ∀ key row, s.rows.lookup key = some row →
      Store.segmentPlace row = some (old, e.offset) → e = ⟨key, e.offset, row.valueLength⟩ := by
    intro key row hrow hplace
    obtain ⟨seg, hseg, hentry⟩ := h.ledger.placed key row old e.offset (h.rows ▸ hrow) hplace
    obtain rfl : o = seg := Option.some.inj (h.closed.symm.trans hseg)
    exact h.ledger.eq_of_offset h.closed he hentry rfl
  unfold Recompaction.next
  split
  · rename_i hnone
    refine h.skip fun hf => ⟨hf, fun key row hrow hplace => ?_⟩
    have hkey := congrArg Entry.key (hat key row hrow hplace)
    rw [h.rows, hkey, hrow] at hnone
    simp at hnone
  · rename_i vm hrow
    rw [h.rows] at hrow
    split
    · rename_i hplace
      exact h.copyEntry hok ho (h.ledger.path_ne h.closed) hnew _ hrow hplace
        (congrArg Entry.length (hat e.key vm hrow hplace))
    · rename_i hplace
      refine h.skip fun hf => ⟨hf, fun key row hread hat' => ?_⟩
      have hkey := congrArg Entry.key (hat key row hread hat')
      rw [hkey, hread] at hrow
      cases hrow
      exact hplace hat'

end

lemma Books.foldl (h : Books s old o r rest) (hok : RowsOk s) (ho : o.opened = false)
    (hrest : ∀ e ∈ rest, e ∈ o.entries) (hoffsets : (rest.map (·.offset)).Nodup)
    (slot : Entry → Slot) : Books s old o (rest.foldl (Recompaction.next old slot) r) [] := by
  induction rest generalizing r with
  | nil => exact h
  | cons e rest ih =>
    obtain ⟨hnew, hrest'⟩ := List.nodup_cons.mp hoffsets
    exact ih (h.next hok ho (hrest e (by simp)) hnew slot) (fun e' he' => hrest e' (by simp [he']))
      hrest'

end Recompaction

/-- Every live entry of the segment could be copied. -/
def copiesAll (s : State) (old : String) (seg : SegmentPath) (slot : Entry → Slot) : Bool :=
  (s.segments old).all fun o => (moveEntries s old o seg slot).all fun r => !r.failed

lemma ledger_recompactSegment (hrows : RowsOk s) (h : Ledger none s []) {old : String}
    {seg : SegmentPath} {slot : Entry → Slot} (hcopies : copiesAll s old seg slot = true) :
    Ledger none (recompactSegment s old seg slot true) [] := by
  unfold recompactSegment
  split
  · exact h
  · rename_i o hold
    split
    · exact h
    · rename_i hopened
      have ho : o.opened = false := by simpa using hopened
      split
      · exact h
      · rename_i r hr
        -- The pass removes the segment only if every entry was copied.
        have hfailed : r.failed = false := by simpa [copiesAll, hold, hr] using hcopies
        obtain ⟨s', hacquire, rfl⟩ := Option.map_eq_some_iff.mp hr
        obtain ⟨hkept, hclosed, hne⟩ := Recompaction.acquire_spec hacquire hold ho
        have hstart : Recompaction.Books s old o ⟨s', seg, [], false⟩ o.entries := {
          rows := hkept
          ledger := (h.forget old).acquire hacquire
          closed := hclosed
          seg_ne := hne
          behind := by simp
          ahead := fun _ key row offset hrow hplace => by
            obtain ⟨seg', hseg', hentry⟩ := h.placed key row old offset hrow hplace
            obtain rfl : o = seg' := Option.some.inj (hold.symm.trans hseg')
            exact .inr (List.mem_map_of_mem (f := Entry.offset) hentry) }
        have hend := hstart.foldl hrows ho (fun _ he => he) (h.segmentOk old o hold).offsets slot
        rw [if_neg (by simp)]
        dsimp only
        rw [if_neg (by simp [hfailed])]
        refine hend.ledger.applyMerges.remove fun key row offset hrow hplace => ?_
        -- The rows of the segment were all staged, and staged rows have left it.
        rcases hend.ledger.lookup_applyMerges hrow with ⟨hunstaged, hread⟩ | ⟨at_, path, hat, hpath⟩
        · rw [hend.rows] at hread
          rcases hend.ahead hfailed key row offset hread hplace with hstaged | hahead
          · exact hunstaged hstaged
          · simp at hahead
        · obtain ⟨rfl, -⟩ : old = path ∧ offset = at_ := by simpa using hplace.symm.trans hat
          exact hpath rfl

/-! ## Runs -/

/-- Nothing fails in the operation, and the raw file of a put is a new one. The clock of an eviction
pass is past the tombstones' expiry. -/
def succeeds (s : State) : Event → Bool
  | .put u _ ok => ok && (u.key, u.path) ∉ s.compactionIndex
  | .deleteKey _ ok => ok
  | .putIfVersion u _ _ _ _ _ mergeOk bookOk creditOk =>
    mergeOk && bookOk && creditOk && (u.key, u.path) ∉ s.compactionIndex
  | .deleteIfVersion _ _ _ _ _ mergeOk creditOk dropOk => mergeOk && creditOk && dropOk
  | .cleanupExpiredKeys _ _ failing => failing = []
  | .evictByIndex _ now failing uncredited =>
    failing = [] && uncredited = [] &&
      (s.index s.policy).ordered.all fun e => tombstoneExpiry ≤ now e
  | .compactFiles _ _ ok => ok
  | .recompactSegment old seg slot ok => ok && copiesAll s old seg slot
  | _ => false

/-- What every operation without a failure keeps. -/
structure DeadBytes (cfg : Settings) (s : State) : Prop where
  rowsOk : RowsOk s
  ledger : Ledger none s []
  indexes : Indexes cfg s
  compactionIndex : s.compactionIndex.Nodup

lemma deadBytes_init (cfg : Settings) (policy : Policy) : DeadBytes cfg (init policy) :=
  ⟨rowsOk_init policy, ledger_init policy, indexes_init cfg policy, List.nodup_nil⟩

/-- A put adds the index row of its own raw file. -/
theorem nodup_indexRaw (cfg : Settings) (h : s.compactionIndex.Nodup)
    (hnew : (u.key, u.path) ∉ s.compactionIndex)
    (hpath : row.valueType = .rawFile → row.rawFilePath = u.path) :
    (s.indexRaw cfg u.key row).compactionIndex.Nodup := by
  unfold State.indexRaw Store.rawPath
  by_cases hraw : row.valueType = .rawFile
  · by_cases hmedium : cfg.isMedium row.valueLength = true
    · simpa [hraw, hmedium, hpath hraw] using
        h.append (List.nodup_singleton _) (List.disjoint_singleton.mpr hnew)
    · simpa [hraw, hmedium] using h
  · simpa [hraw] using h

lemma rawFilePath_payload (cfg : Settings) (u : Upload) (stamp expected : UInt64) :
    ((Store.putRow (u.payload cfg) u.expiry).valueType = .rawFile →
        (Store.putRow (u.payload cfg) u.expiry).rawFilePath = u.path) ∧
      ((casPutOperand (u.payload cfg) u.expiry stamp expected).valueType = .rawFile →
        (casPutOperand (u.payload cfg) u.expiry stamp expected).rawFilePath = u.path) := by
  unfold Upload.payload Store.Config.payload
  split <;> simp [Store.putRow, casPutOperand]

lemma nodup_put (h : s.compactionIndex.Nodup) (hnew : (u.key, u.path) ∉ s.compactionIndex)
    (now : Nat) (ok : Bool) : (put cfg s u now ok).compactionIndex.Nodup := by
  unfold put
  dsimp only
  split
  · exact nodup_indexRaw cfg (s := s.setRow u.key _) h hnew (rawFilePath_payload cfg u 0 0).1
  · exact h

lemma nodup_putIfVersion (hrows : RowsOk s) (h : s.compactionIndex.Nodup)
    (hnew : (u.key, u.path) ∉ s.compactionIndex) (expected stamp : UInt64) (first second : Int64)
    (now : Nat) (mergeOk bookOk creditOk : Bool) :
    (putIfVersion cfg s u expected stamp first second now mergeOk bookOk
      creditOk).compactionIndex.Nodup := by
  have hout := putOutcome_putIfVersion cfg hrows u expected stamp first second now mergeOk bookOk
    creditOk
  generalize putIfVersion cfg s u expected stamp first second now mergeOk bookOk creditOk = s'
    at hout ⊢
  cases hout with
  | kept _ | lost _ => exact h
  | won _ expected =>
    have hindexed := nodup_indexRaw cfg (s := { s with lastStamp := stamp }.setRow u.key
      (adopt (casPutOperand (u.payload cfg) u.expiry stamp expected))) h hnew
      (rawFilePath_payload cfg u stamp expected).2
    cases bookOk <;> cases creditOk
    · exact h
    · exact h
    all_goals exact hindexed

lemma compactionIndex_deleteIfVersion (hrows : RowsOk s) (key : String) (expected stamp : UInt64)
    (now : Int64) (cutoff : Nat) (mergeOk creditOk dropOk : Bool) :
    (deleteIfVersion s key expected stamp now cutoff mergeOk creditOk dropOk).compactionIndex =
      s.compactionIndex := by
  have hout := deleteOutcome_deleteIfVersion hrows key expected stamp now cutoff mergeOk creditOk
    dropOk
  generalize deleteIfVersion s key expected stamp now cutoff mergeOk creditOk dropOk = s' at hout ⊢
  cases hout with
  | kept _ | lost _ => rfl
  | won _ => cases creditOk <;> cases dropOk <;> rfl

namespace DeadBytes

variable {cfg : Settings} {s s' : State}

/-- Rows that go are credited and leave the index. -/
theorem removal (h : DeadBytes cfg s) {gone : List (String × ValueMessage)}
    (hgone : Removal [] s gone s') : DeadBytes cfg s' :=
  ⟨hgone.rowsOk h.rowsOk, h.ledger.removal h.rowsOk hgone, h.indexes.erases hgone.toErases,
    hgone.compactionIndex ▸ h.compactionIndex⟩

lemma moves (h : DeadBytes cfg s) (hmoves : Moves s s') (hledger : Ledger none s' []) :
    DeadBytes cfg s' :=
  ⟨hmoves.rowsOk h.rowsOk, hledger, h.indexes.moves hmoves,
    h.compactionIndex.sublist hmoves.compactionIndex⟩

end DeadBytes

lemma deadBytes_step (cfg : Settings) {e : Event} (h : DeadBytes cfg s)
    (hok : succeeds s e = true) : DeadBytes cfg (step cfg s e) := by
  -- The condition removes the failures from each operation.
  have hrows := rowsOk_step cfg h.rowsOk e
  cases e with
  | put u now ok =>
    simp only [succeeds, Bool.and_eq_true, decide_eq_true_eq] at hok
    obtain ⟨rfl, hnew⟩ := hok
    exact ⟨hrows, ledger_put h.rowsOk h.ledger u now, indexes_put h.indexes u now true,
      nodup_put h.compactionIndex hnew now true⟩
  | deleteKey key ok =>
    obtain rfl : ok = true := hok
    show DeadBytes cfg (deleteKey s key true)
    -- A delete without a row does nothing.
    unfold deleteKey
    split
    · exact h
    · rename_i prev hprev
      exact h.removal ((removal_dropExpired (e := (key, prev)) hprev).updateSize _)
  | putIfVersion u expected stamp first second now mergeOk bookOk creditOk =>
    simp only [succeeds, Bool.and_eq_true, decide_eq_true_eq] at hok
    obtain ⟨⟨⟨rfl, rfl⟩, rfl⟩, hnew⟩ := hok
    exact ⟨hrows, ledger_putIfVersion h.rowsOk h.ledger u expected stamp first second now true,
      indexes_putIfVersion h.rowsOk h.indexes u expected stamp first second now true true,
      nodup_putIfVersion h.rowsOk h.compactionIndex hnew expected stamp first second now true true
        true⟩
  | deleteIfVersion key expected stamp now cutoff mergeOk creditOk dropOk =>
    simp only [succeeds, Bool.and_eq_true] at hok
    obtain ⟨⟨rfl, rfl⟩, rfl⟩ := hok
    refine ⟨hrows, ledger_deleteIfVersion h.rowsOk h.ledger key expected stamp now cutoff true true,
      indexes_deleteIfVersion h.rowsOk h.indexes key expected stamp now cutoff true true true, ?_⟩
    show (deleteIfVersion s key expected stamp now cutoff true true true).compactionIndex.Nodup
    rw [compactionIndex_deleteIfVersion h.rowsOk]
    exact h.compactionIndex
  | cleanupExpiredKeys now retained failing =>
    obtain ⟨gone, hgone, -⟩ := removal_cleanupExpiredKeys h.rowsOk now retained failing
    exact h.removal hgone
  | evictByIndex target now failing uncredited =>
    simp only [succeeds, Bool.and_eq_true, decide_eq_true_eq, List.all_eq_true] at hok
    obtain ⟨⟨rfl, rfl⟩, hclock⟩ := hok
    obtain ⟨gone, hgone, -⟩ := removal_evictByIndex (h.indexes.loneEntries hclock) target [] []
    exact h.removal hgone
  | compactFiles seg slot ok =>
    obtain rfl : ok = true := hok
    exact h.moves (moves_compactFiles h.rowsOk seg slot true)
      (ledger_compactFiles h.rowsOk h.ledger h.compactionIndex seg slot)
  | recompactSegment old seg slot ok =>
    simp only [succeeds, Bool.and_eq_true] at hok
    obtain ⟨rfl, hcopies⟩ := hok
    exact h.moves (moves_recompactSegment h.rowsOk old seg slot true)
      (ledger_recompactSegment h.rowsOk h.ledger hcopies)
  | get | flushBatch | cleanupOldBuckets | reconcileFromMetadata | restart =>
    simp [succeeds] at hok

/-- In every run without failures, the bytes written to a segment are the dead bytes of its delete
index and the bytes of the rows that point into it, and the recompactor's walk finds the former. -/
theorem deadBytes_exact (cfg : Settings) (policy : Policy) (es : List Event)
    (h : RunOk (step cfg) (fun s e => succeeds s e = true) (init policy) es) (path : String)
    (seg : Segment) (hseg : (run (step cfg) (init policy) es).segments path = some seg) :
    seg.dataBytes =
        ((run (step cfg) (init policy) es).deleteIndex path).deletedBytes +
          total (liveAt path) (run (step cfg) (init policy) es).rows ∧
      (walkSegmentLiveness (run (step cfg) (init policy) es) path seg).map Prod.snd =
        some ((run (step cfg) (init policy) es).deleteIndex path).deletedBytes := by
  have hinv : DeadBytes cfg (run (step cfg) (init policy) es) :=
    invariant_run (I := DeadBytes cfg) (fun _ _ hI hok => deadBytes_step cfg hI hok)
      (deadBytes_init cfg policy) h
  have hbalance := hinv.ledger.balance path seg hseg (by simp)
  exact ⟨by simpa [stagedAt] using hbalance, hinv.ledger.walkSegmentLiveness hinv.rowsOk hseg⟩

/-- Two values are compacted and one of them is overwritten; then the segment is closed, recompacted
after a CAS delete, and a value of the new one is evicted. -/
def compactedRun : List Event :=
  [.put (twoBytes "a" 0 0) 1 true, .put (twoBytes "b" 1 0) 2 true,
    .putIfVersion (twoBytes "c" 2 0) 0 2 3 3 3 true true true,
    .compactFiles (segmentName 0)
      (fun row => { offset := if row.1 = "a" then 0 else if row.1 = "b" then 20 else 40 }) true,
    .put (twoBytes "a" 3 0) 4 true,
    .compactFiles (segmentName 0) (fun _ => ⟨true, some (segmentName 1, true), true, 0⟩) true,
    .deleteIfVersion "c" 2 3 5 5 true true true,
    .recompactSegment "s0" (segmentName 1) (fun e => { offset := e.offset + 100 }) true,
    .cleanupExpiredKeys 6 (fun _ => false) [], .evictByIndex 1 (fun _ => 7) [] []]

theorem deadBytes_exact_compactedRun :
    RunOk (step smallCache) (fun s e => succeeds s e = true) (init .lru) compactedRun ∧
      ∃ seg, (run (step smallCache) (init .lru) compactedRun).segments "s1" = some seg ∧
        seg.dataBytes = 4 ∧
        (walkSegmentLiveness (run (step smallCache) (init .lru) compactedRun) "s1" seg).map
          Prod.snd = some 2 := by
  have hok : RunOk (step smallCache) (fun s e => succeeds s e = true) (init .lru) compactedRun := by
    decide +kernel
  obtain ⟨seg, hseg⟩ : ∃ seg,
      (run (step smallCache) (init .lru) compactedRun).segments "s1" = some seg :=
    Option.isSome_iff_exists.mp (by decide +kernel)
  have hbytes : ((run (step smallCache) (init .lru) compactedRun).segments "s1").map
      Segment.dataBytes = some 4 := by decide +kernel
  have hdead : ((run (step smallCache) (init .lru) compactedRun).deleteIndex "s1").deletedBytes = 2 := by
    decide +kernel
  refine ⟨hok, seg, hseg, by simpa [hseg] using hbytes, ?_⟩
  rw [(deadBytes_exact smallCache .lru compactedRun hok "s1" seg hseg).2, hdead]

end OCache.Accounting
