import OCache.Accounting.Removal

/-!
# The ledger of a segment

A segment counts the bytes of the values written to it. Each of them is live, if a row points at it,
or dead, if the row is gone and its bytes were credited to the delete index, or about to be live, if
a migration has copied it and its operand is still in the write batch. Operations that write rows,
segments or the delete index keep this balance.

The recompactor moves the rows of one segment to others without a credit, since the segment goes
with the pass. The balance of that segment is left out until then.
-/

namespace OCache.Accounting

open Merge Total

/-! ## Live and dead bytes -/

/-- The bytes of a row in one segment. -/
def liveAt (path : String) (vm : ValueMessage) : ℤ :=
  if vm.valueType = .segment ∧ vm.segmentPath = path then size vm else 0

variable {path : String} {vm : ValueMessage}

lemma liveAt_of_segmentPlace {offset : Int64} (h : Store.segmentPlace vm = some (path, offset)) :
    liveAt path vm = size vm := by
  simp only [Store.segmentPlace, Option.ite_none_right_eq_some, Option.some.injEq,
    Prod.mk.injEq] at h
  rw [liveAt, if_pos ⟨h.1, h.2.1⟩]

/-- A row is live in the segment that it points into. -/
theorem liveAt_eq_zero (h : ∀ offset, Store.segmentPlace vm ≠ some (path, offset)) :
    liveAt path vm = 0 := by
  rw [liveAt, if_neg]
  rintro ⟨htype, rfl⟩
  exact h vm.segmentOffset (by simp [Store.segmentPlace, htype])

lemma liveAt_nonneg (h : 0 ≤ size vm) (path : String) : 0 ≤ liveAt path vm := by
  unfold liveAt
  split
  · exact h
  · exact le_rfl

variable (d : String → DeadCount)

/-- A credit goes to the segment that the value is live in. -/
theorem deletedBytes_credited (vm : ValueMessage) (hpath : path ≠ "") :
    (credited d vm path).deletedBytes = (d path).deletedBytes + liveAt path vm := by
  unfold credited liveAt
  by_cases hsegment : vm.valueType = .segment
  · by_cases hsame : vm.segmentPath = path
    · simp [hsegment, hsame, hpath]
    · by_cases hempty : vm.segmentPath = ""
      · simp [hsegment, hempty, hpath.symm]
      · simp [hsegment, hsame, hempty, Function.update_of_ne (Ne.symm hsame)]
  · simp [hsegment]

lemma credited_of_segmentPlace
    (h : ∀ offset, Store.segmentPlace vm ≠ some (path, offset)) : credited d vm path = d path := by
  unfold credited
  split
  · rename_i hcredit
    refine Function.update_of_ne (fun heq => ?_) _ _
    exact h vm.segmentOffset (by simp [Store.segmentPlace, hcredit.1, heq])
  · rfl

lemma deletedBytes_creditedAll (batch : List (String × ValueMessage)) (hpath : path ≠ "") :
    (creditedAll d batch path).deletedBytes =
      (d path).deletedBytes + (batch.map fun e => liveAt path e.2).sum := by
  induction batch generalizing d with
  | nil => simp [creditedAll]
  | cons e batch ih =>
    have hcons : creditedAll d (e :: batch) = creditedAll (credited d e.2) batch := rfl
    rw [hcons, ih, deletedBytes_credited d e.2 hpath, List.map_cons, List.sum_cons, add_assoc]

lemma creditedAll_of_segmentPlace {batch : List (String × ValueMessage)}
    (h : ∀ e ∈ batch, ∀ offset, Store.segmentPlace e.2 ≠ some (path, offset)) :
    creditedAll d batch path = d path := by
  induction batch generalizing d with
  | nil => rfl
  | cons e batch ih =>
    have hcons : creditedAll d (e :: batch) = creditedAll (credited d e.2) batch := rfl
    rw [hcons, ih _ fun e' he' => h e' (by simp [he']),
      credited_of_segmentPlace d (h e (by simp))]

/-! ## The balance -/

/-- The segment is tracked and has the entry. -/
def Holds (s : State) (path : String) (e : Entry) : Prop :=
  ∃ seg, s.segments path = some seg ∧ e ∈ seg.entries

/-- A staged operand: it moves the row that is there to the copy that was written for it. `skip` is
the segment that is being emptied, if any. -/
structure Lands (skip : Option String) (s : State) (key : String) (row op : ValueMessage) : Prop where
  lookup : s.rows.lookup key = some row
  background : Background op
  segment : op.valueType = .segment
  pathMatches : pathMatches row op = true
  valueLength : op.valueLength = row.valueLength
  leaves : ∀ path offset, Store.segmentPlace row = some (path, offset) → skip = some path
  holds : Holds s op.segmentPath ⟨key, op.segmentOffset, op.valueLength⟩
  target : skip ≠ some op.segmentPath

/-- The bytes of a segment that the batch will make live. -/
def stagedAt (path : String) (wb : List (String × ValueMessage)) : ℤ :=
  (wb.map fun op => liveAt path op.2).sum

/-- The counters of a segment count its entries, and entries start at different offsets. -/
structure SegmentOk (seg : Segment) : Prop where
  numEntries : seg.numEntries = seg.entries.length
  dataBytes : seg.dataBytes = (seg.entries.map fun e => e.length.toInt).sum
  offsets : (seg.entries.map (·.offset)).Nodup

lemma SegmentOk.append {seg : Segment} (h : SegmentOk seg) {e : Entry}
    (he : e.offset ∉ seg.entries.map (·.offset)) : SegmentOk (seg.append e) where
  numEntries := by simp [Segment.append, h.numEntries]
  dataBytes := by simp [Segment.append, h.dataBytes]
  offsets := by
    simp only [Segment.append, List.map_append, List.map_cons, List.map_nil]
    exact h.offsets.append (List.nodup_singleton _) (List.disjoint_singleton.mpr he)

/-- The bytes written to a segment are dead, live or staged. -/
structure Ledger (skip : Option String) (s : State) (wb : List (String × ValueMessage)) : Prop where
  balance : ∀ path seg, s.segments path = some seg → skip ≠ some path →
    seg.dataBytes =
      (s.deleteIndex path).deletedBytes + total (liveAt path) s.rows + stagedAt path wb
  untracked : ∀ path, s.segments path = none → s.deleteIndex path = {}
  named : s.segments "" = none
  placed : ∀ key row path offset, s.rows.lookup key = some row →
    Store.segmentPlace row = some (path, offset) → Holds s path ⟨key, offset, row.valueLength⟩
  segmentOk : ∀ path seg, s.segments path = some seg → SegmentOk seg
  nonneg : ∀ path, 0 ≤ (s.deleteIndex path).deletedBytes
  staged : ∀ op ∈ wb, ∃ row, Lands skip s op.1 row op.2
  distinct : (wb.map Prod.fst).Nodup

lemma ledger_init (policy : Policy) : Ledger none (init policy) [] where
  balance path seg h := by simp [init] at h
  untracked _ _ := rfl
  named := rfl
  placed key row path offset h := by simp [init] at h
  segmentOk path seg h := by simp [init] at h
  nonneg _ := le_rfl
  staged := by simp
  distinct := List.nodup_nil

namespace Ledger

variable {skip : Option String} {s s' : State} {wb : List (String × ValueMessage)}

variable {key path : String} {row : ValueMessage} {seg : Segment} {entries : List Entry}

/-- A row without a segment of its own, or one whose segment is tracked. -/
theorem segmentPlace_ne (h : Ledger skip s wb) (hrow : s.rows.lookup key = some row)
    (hnone : s.segments path = none) (offset : Int64) :
    Store.segmentPlace row ≠ some (path, offset) := by
  intro hplace
  obtain ⟨seg, hseg, -⟩ := h.placed key row path offset hrow hplace
  simp [hnone] at hseg

lemma total_untracked (h : Ledger skip s wb) (hnone : s.segments path = none) :
    total (liveAt path) s.rows = 0 :=
  total_eq_zero fun _ _ hrow => liveAt_eq_zero fun offset => h.segmentPlace_ne hrow hnone offset

lemma stagedAt_untracked (h : Ledger skip s wb) (hnone : s.segments path = none) :
    stagedAt path wb = 0 := by
  refine List.sum_eq_zero fun n hn => ?_
  obtain ⟨op, hop, rfl⟩ := List.mem_map.mp hn
  obtain ⟨row, hlands⟩ := h.staged op hop
  refine liveAt_eq_zero fun offset hplace => ?_
  simp only [Store.segmentPlace, Option.ite_none_right_eq_some, Option.some.injEq,
    Prod.mk.injEq] at hplace
  obtain ⟨seg, hseg, -⟩ := hlands.holds
  simp [hplace.2.1, hnone] at hseg

/-! ### Rows go and rows change -/

/-- Rows are removed and credited. -/
theorem removal (h : Ledger none s []) (hrows : RowsOk s) {gone : List (String × ValueMessage)}
    (hgone : Removal [] s gone s') : Ledger none s' [] := by
  have hdead : s'.deleteIndex = creditedAll s.deleteIndex gone := by
    rw [hgone.deleteIndex]
    simp
  exact {
    balance := fun path seg hseg hskip => by
      rw [hgone.segments] at hseg
      have hpath : path ≠ "" := by
        rintro rfl
        simp [h.named] at hseg
      rw [hdead, deletedBytes_creditedAll _ _ hpath, hgone.rows,
        total_eraseAll (liveAt path) hgone.picks, h.balance path seg hseg hskip]
      ring
    untracked := fun path hnone => by
      rw [hgone.segments] at hnone
      rw [hdead, creditedAll_of_segmentPlace, h.untracked path hnone]
      exact fun e he => h.segmentPlace_ne (hgone.picks.lookup e he) hnone
    named := hgone.segments ▸ h.named
    placed := fun key row path offset hrow hplace => by
      unfold Holds
      rw [hgone.segments]
      exact h.placed key row path offset (hgone.lookup hrow).2 hplace
    segmentOk := hgone.segments ▸ h.segmentOk
    nonneg := fun path => by
      rw [hdead]
      by_cases hpath : s.segments path = none
      · rw [creditedAll_of_segmentPlace]
        · exact h.nonneg path
        · exact fun e he => h.segmentPlace_ne (hgone.picks.lookup e he) hpath
      · have hne : path ≠ "" := fun heq => hpath (heq ▸ h.named)
        rw [deletedBytes_creditedAll _ _ hne]
        refine add_nonneg (h.nonneg path) (List.sum_nonneg fun n hn => ?_)
        obtain ⟨e, he, rfl⟩ := List.mem_map.mp hn
        exact liveAt_nonneg (hrows e.1 e.2 (hgone.picks.lookup e he)).size_nonneg path
    staged := by simp
    distinct := List.nodup_nil }

/-- The value of a key is replaced by one that is in no segment, and credited. -/
theorem replace (h : Ledger none s []) (hrows : RowsOk s) (hrow : Store.segmentPlace row = none)
    (hinsert : s'.rows = s.rows.insert key row)
    (hdead : s'.deleteIndex = (s.rows.lookup key).elim s.deleteIndex (credited s.deleteIndex))
    (hsegments : s'.segments = s.segments) : Ledger none s' [] := by
  have hlive (path : String) : liveAt path row = 0 := liveAt_eq_zero (by simp [hrow])
  -- The credit, by what was there.
  have hbytes : ∀ path, path ≠ "" → (s'.deleteIndex path).deletedBytes =
      (s.deleteIndex path).deletedBytes + weight (liveAt path) (s.rows.lookup key) := by
    intro path hpath
    rw [hdead]
    cases hprev : s.rows.lookup key with
    | none => simp
    | some prev => exact deletedBytes_credited _ _ hpath
  have hother : ∀ path, s.segments path = none → s'.deleteIndex path = s.deleteIndex path := by
    intro path hnone
    rw [hdead]
    cases hprev : s.rows.lookup key with
    | none => rfl
    | some prev => exact credited_of_segmentPlace _ (h.segmentPlace_ne hprev hnone)
  exact {
    balance := fun path seg hseg hskip => by
      rw [hsegments] at hseg
      have hpath : path ≠ "" := by
        rintro rfl
        simp [h.named] at hseg
      rw [hbytes path hpath, hinsert, total_insert, hlive, h.balance path seg hseg hskip]
      ring
    untracked := fun path hnone => by
      rw [hsegments] at hnone
      rw [hother path hnone, h.untracked path hnone]
    named := hsegments ▸ h.named
    placed := fun k r path offset hr hplace => by
      unfold Holds
      rw [hsegments]
      rw [hinsert] at hr
      by_cases hk : k = key
      · subst hk
        rw [AList.lookup_insert] at hr
        cases hr
        simp [hrow] at hplace
      · rw [AList.lookup_insert_ne hk] at hr
        exact h.placed k r path offset hr hplace
    segmentOk := hsegments ▸ h.segmentOk
    nonneg := fun path => by
      by_cases hpath : s.segments path = none
      · rw [hother path hpath]
        exact h.nonneg path
      · rw [hbytes path fun heq => hpath (heq ▸ h.named)]
        refine add_nonneg (h.nonneg path) ?_
        cases hprev : s.rows.lookup key with
        | none => exact le_rfl
        | some prev => exact liveAt_nonneg (hrows key prev hprev).size_nonneg path
    staged := by simp
    distinct := List.nodup_nil }

/-- The row of a key is written again as it was. -/
theorem rewrite (h : Ledger none s []) (hrow : s.rows.lookup key = some row)
    (hinsert : s'.rows = s.rows.insert key row) (hdead : s'.deleteIndex = s.deleteIndex)
    (hsegments : s'.segments = s.segments) : Ledger none s' [] := by
  have hlookup : ∀ k, s'.rows.lookup k = s.rows.lookup k := by
    intro k
    rw [hinsert]
    by_cases hk : k = key
    · subst hk
      rw [AList.lookup_insert, hrow]
    · rw [AList.lookup_insert_ne hk]
  exact {
    balance := fun path seg hseg hskip => by
      rw [hdead, hinsert, total_insert, hrow, weight_some, sub_add_cancel]
      exact h.balance path seg (hsegments ▸ hseg) hskip
    untracked := fun path hnone => hdead ▸ h.untracked path (hsegments ▸ hnone)
    named := hsegments ▸ h.named
    placed := fun k r path offset hr hplace => by
      unfold Holds
      rw [hsegments]
      exact h.placed k r path offset (hlookup k ▸ hr) hplace
    segmentOk := hsegments ▸ h.segmentOk
    nonneg := hdead ▸ h.nonneg
    staged := by simp
    distinct := List.nodup_nil }

/-! ### Migrations -/

/-- Segments may be added and may grow. -/
structure Grows (s s' : State) : Prop where
  rows : s'.rows = s.rows
  segments : ∀ path seg, s.segments path = some seg →
    ∃ seg', s'.segments path = some seg' ∧ ∀ e ∈ seg.entries, e ∈ seg'.entries

variable {e : Entry} {seg' : Segment} {op : ValueMessage}

lemma Grows.holds (h : Grows s s') (he : Holds s path e) : Holds s' path e := by
  obtain ⟨seg, hseg, he⟩ := he
  obtain ⟨seg', hseg', hentries⟩ := h.segments path seg hseg
  exact ⟨seg', hseg', hentries e he⟩

lemma Grows.placed (h : Grows s s') (hledger : Ledger skip s wb) (key : String)
    (row : ValueMessage) (path : String) (offset : Int64) (hrow : s'.rows.lookup key = some row)
    (hplace : Store.segmentPlace row = some (path, offset)) :
    Holds s' path ⟨key, offset, row.valueLength⟩ :=
  h.holds (hledger.placed key row path offset (h.rows ▸ hrow) hplace)

lemma Grows.staged (h : Grows s s') (hledger : Ledger skip s wb) :
    ∀ op ∈ wb, ∃ row, Lands skip s' op.1 row op.2 := by
  intro op hop
  obtain ⟨row, hlands⟩ := hledger.staged op hop
  exact ⟨row, { hlands with
    lookup := h.rows ▸ hlands.lookup
    holds := h.holds hlands.holds }⟩

lemma grows_setSegment
    (h : ∀ seg, s.segments path = some seg → ∀ e ∈ seg.entries, e ∈ seg'.entries) :
    Grows s (s.setSegment path seg') := by
  refine ⟨rfl, fun p seg hseg => ?_⟩
  by_cases hp : p = path
  · subst hp
    exact ⟨seg', by simp, h seg hseg⟩
  · exact ⟨seg, by simp [hp, hseg], fun _ he => he⟩

section

variable (h : Ledger skip s wb)

include h

/-- One segment changes, and the batch with it. -/
theorem setSegment {wb' : List (String × ValueMessage)} (hpath : path ≠ "")
    (hgrows : Grows s (s.setSegment path seg')) (hok : SegmentOk seg')
    (hbytes : skip ≠ some path → seg'.dataBytes =
      (s.deleteIndex path).deletedBytes + total (liveAt path) s.rows + stagedAt path wb')
    (hother : ∀ p, p ≠ path → stagedAt p wb' = stagedAt p wb)
    (hstaged : ∀ op ∈ wb', ∃ row, Lands skip (s.setSegment path seg') op.1 row op.2)
    (hdistinct : (wb'.map Prod.fst).Nodup) : Ledger skip (s.setSegment path seg') wb' := by
  have hself : (s.setSegment path seg').segments path = some seg' := by simp
  have hne : ∀ p, p ≠ path → (s.setSegment path seg').segments p = s.segments p :=
    fun p hp => by simp [hp]
  exact {
    balance := fun p seg hseg hskip => by
      by_cases hp : p = path
      · subst hp
        obtain rfl : seg' = seg := Option.some.inj (hself.symm.trans hseg)
        exact hbytes hskip
      · rw [hother p hp]
        exact h.balance p seg (hne p hp ▸ hseg) hskip
    untracked := fun p hnone => by
      by_cases hp : p = path
      · simp [hp] at hnone
      · exact h.untracked p (hne p hp ▸ hnone)
    named := (hne "" hpath.symm).trans h.named
    placed := hgrows.placed h
    segmentOk := fun p seg hseg => by
      by_cases hp : p = path
      · subst hp
        obtain rfl : seg' = seg := Option.some.inj (hself.symm.trans hseg)
        exact hok
      · exact h.segmentOk p seg (hne p hp ▸ hseg)
    nonneg := h.nonneg
    staged := hstaged
    distinct := hdistinct }

/-- A segment that is tracked has a name. -/
theorem path_ne (hseg : s.segments path = some seg) : path ≠ "" := by
  rintro rfl
  simp [h.named] at hseg

/-- A new segment is empty. -/
theorem acquire {path : SegmentPath} (hacquire : s.acquire path = some s') : Ledger skip s' wb := by
  obtain ⟨hnone, rfl⟩ | ⟨rfl, -⟩ := State.acquire_eq_some hacquire
  · have hgrows : Grows s (s.setSegment path ⟨true, [], 0, 0⟩) :=
      grows_setSegment fun seg hseg => by simp [hnone] at hseg
    refine h.setSegment path.2 hgrows ⟨rfl, rfl, List.nodup_nil⟩ (fun _ => ?_) (fun _ _ => rfl)
      (hgrows.staged h) h.distinct
    simp [h.untracked _ hnone, h.total_untracked hnone, h.stagedAt_untracked hnone]
  · exact h

/-- Nothing but the flag of the segment changes. -/
theorem finalizeSegment (path : String) : Ledger skip (s.finalizeSegment path) wb := by
  unfold State.finalizeSegment
  split
  · exact h
  · rename_i seg hseg
    have hgrows : Grows s (s.setSegment path { seg with opened := false }) :=
      grows_setSegment fun seg' hseg' e he => by
        obtain rfl : seg = seg' := Option.some.inj (hseg.symm.trans hseg')
        exact he
    have hok := h.segmentOk path seg hseg
    exact h.setSegment (h.path_ne hseg) hgrows ⟨hok.numEntries, hok.dataBytes, hok.offsets⟩
      (fun hskip => h.balance path seg hseg hskip) (fun _ _ => rfl) (hgrows.staged h) h.distinct

/-- An entry is written and the operand for it joins the batch. -/
theorem stage
    (hwrite : s.writeEntry op.segmentPath ⟨key, op.segmentOffset, op.valueLength⟩ = some s')
    (hrow : s.rows.lookup key = some row) (hbackground : Background op)
    (hsegment : op.valueType = .segment) (hmatch : pathMatches row op = true)
    (hlength : op.valueLength = row.valueLength)
    (hleaves : ∀ path offset, Store.segmentPlace row = some (path, offset) → skip = some path)
    (htarget : skip ≠ some op.segmentPath) (hnew : key ∉ wb.map Prod.fst) :
    Ledger skip s' (wb ++ [(key, op)]) := by
  obtain ⟨seg, hseg, hfree, rfl⟩ := State.writeEntry_eq_some hwrite
  have hstaged (p : String) : stagedAt p (wb ++ [(key, op)]) = stagedAt p wb + liveAt p op := by
    simp [stagedAt]
  have hlive : liveAt op.segmentPath op = op.valueLength.toInt := by
    simp [liveAt, hsegment, size]
  have hgrows : Grows s (s.setSegment op.segmentPath
      (seg.append ⟨key, op.segmentOffset, op.valueLength⟩)) :=
    grows_setSegment fun seg' hseg' e he => by
      obtain rfl : seg = seg' := Option.some.inj (hseg.symm.trans hseg')
      exact List.mem_append_left _ he
  refine h.setSegment (h.path_ne hseg) hgrows ((h.segmentOk _ seg hseg).append hfree) ?_ ?_ ?_
    ?_
  · intro hskip
    simp only [Segment.append, hstaged, hlive, h.balance _ seg hseg hskip]
    ring
  · intro p hp
    have hzero : liveAt p op = 0 := by simp [liveAt, Ne.symm hp]
    rw [hstaged, hzero, add_zero]
  · intro op' hop'
    rcases List.mem_append.mp hop' with hop' | hop'
    · exact hgrows.staged h op' hop'
    · obtain rfl := List.mem_singleton.mp hop'
      have hholds : Holds (s.setSegment op.segmentPath (seg.append
          ⟨key, op.segmentOffset, op.valueLength⟩)) op.segmentPath
          ⟨key, op.segmentOffset, op.valueLength⟩ :=
        ⟨_, Function.update_self _ _ _, List.mem_append_right _ (List.mem_singleton_self _)⟩
      exact ⟨row, hrow, hbackground, hsegment, hmatch, hlength, hleaves, hholds, htarget⟩
  · rw [List.map_append]
    exact h.distinct.append (List.nodup_singleton _) (List.disjoint_singleton.mpr hnew)

end

/-- The row that a staged operand leaves. -/
theorem mergeRow_of_lands (h : Lands skip s key row op) :
    mergeRow (s.rows.lookup key) [op] = migrated row op := by
  rw [h.lookup]
  exact mergeRow_of_pathMatches h.background h.segment h.pathMatches

lemma liveAt_migrated (row op : ValueMessage) (path : String) :
    liveAt path (migrated row op) = liveAt path op := rfl

/-- One merge of a batch: a staged copy becomes the row. -/
theorem merge {op : String × ValueMessage} (h : Ledger skip s (op :: wb)) :
    Ledger skip (s.setRow op.1 (mergeRow (s.rows.lookup op.1) [op.2])) wb := by
  obtain ⟨row, hlands⟩ := h.staged op (by simp)
  obtain ⟨hfirst, hrest⟩ := List.nodup_cons.mp h.distinct
  rw [mergeRow_of_lands hlands]
  exact {
    balance := fun path seg hseg hskip => by
      -- The row leaves no segment whose balance counts.
      have hleft : liveAt path row = 0 :=
        liveAt_eq_zero fun offset hplace => hskip (hlands.leaves path offset hplace)
      have hbalance := h.balance path seg hseg hskip
      simp only [stagedAt, List.map_cons, List.sum_cons] at hbalance
      rw [State.setRow, total_insert, hlands.lookup, weight_some, hleft, liveAt_migrated, hbalance,
        stagedAt]
      ring
    untracked := h.untracked
    named := h.named
    placed := fun k r path offset hr hplace => by
      by_cases hk : k = op.1
      · subst hk
        rw [State.setRow, AList.lookup_insert] at hr
        cases hr
        simp only [Store.segmentPlace, migrated, hlands.segment, if_true, Option.some.injEq,
          Prod.mk.injEq] at hplace
        obtain ⟨rfl, rfl⟩ := hplace
        exact hlands.holds
      · rw [State.setRow, AList.lookup_insert_ne hk] at hr
        exact h.placed k r path offset hr hplace
    segmentOk := h.segmentOk
    nonneg := h.nonneg
    staged := fun op' hop' => by
      obtain ⟨row', hlands'⟩ := h.staged op' (by simp [hop'])
      have hne : op'.1 ≠ op.1 := fun heq => hfirst (heq ▸ List.mem_map_of_mem hop')
      exact ⟨row', { hlands' with lookup := (AList.lookup_insert_ne hne).trans hlands'.lookup }⟩
    distinct := hrest }

lemma applyMerges (h : Ledger skip s wb) : Ledger skip (s.applyMerges wb) [] := by
  induction wb generalizing s with
  | nil => exact h
  | cons op wb ih => exact ih h.merge

/-- The emptied segment goes, with its delete index. -/
theorem remove {old : String} (h : Ledger (some old) s [])
    (hempty : ∀ key row offset, s.rows.lookup key = some row →
      Store.segmentPlace row ≠ some (old, offset)) :
    Ledger none { s with
      segments := Function.update s.segments old none
      deleteIndex := Function.update s.deleteIndex old {} } [] where
  balance path seg hseg _ := by
    by_cases hp : path = old
    · simp [hp] at hseg
    · simp only [Function.update_of_ne hp] at hseg ⊢
      exact h.balance path seg hseg fun heq => hp (Option.some.inj heq).symm
  untracked path hnone := by
    by_cases hp : path = old
    · simp [hp]
    · simp only [Function.update_of_ne hp] at hnone ⊢
      exact h.untracked path hnone
  named := by
    by_cases hp : "" = old
    · simp [hp]
    · simpa [hp] using h.named
  placed key row path offset hrow hplace := by
    have hp : path ≠ old := by
      rintro rfl
      exact hempty key row offset hrow hplace
    obtain ⟨seg, hseg, he⟩ := h.placed key row path offset hrow hplace
    exact ⟨seg, by simpa [hp] using hseg, he⟩
  segmentOk path seg hseg := by
    by_cases hp : path = old
    · simp [hp] at hseg
    · simp only [Function.update_of_ne hp] at hseg
      exact h.segmentOk path seg hseg
  nonneg path := by
    by_cases hp : path = old
    · simp [hp]
    · simpa [hp] using h.nonneg path
  staged := by simp
  distinct := List.nodup_nil

/-- Leave a segment out of the balance. -/
theorem forget (h : Ledger none s []) (old : String) : Ledger (some old) s [] :=
  { h with
    balance := fun path seg hseg _ => h.balance path seg hseg (by simp)
    staged := by simp }

/-! ### The walk -/

/-- The entry at an offset is the one that a row at that offset was written with. -/
theorem eq_of_offset (h : Ledger skip s wb) (hseg : s.segments path = some seg) {e' : Entry}
    (he : e ∈ seg.entries) (he' : e' ∈ seg.entries) (hoffset : e.offset = e'.offset) : e = e' :=
  List.inj_on_of_nodup_map (h.segmentOk path seg hseg).offsets he he' hoffset

/-- The entries that the walk finds live, with the rows that point at them. -/
def liveRows (s : State) (path : String) (entries : List Entry) : List (String × ValueMessage) :=
  entries.filterMap fun e => (s.rows.lookup e.key).bind fun vm =>
    if Store.segmentPlace vm = some (path, e.offset) then some (e.key, vm) else none

lemma mem_liveRows {vm : ValueMessage} :
    (key, vm) ∈ liveRows s path entries ↔ s.rows.lookup key = some vm ∧
      ∃ e ∈ entries, e.key = key ∧ Store.segmentPlace vm = some (path, e.offset) := by
  simp only [liveRows, List.mem_filterMap, Option.bind_eq_some_iff, Option.ite_none_right_eq_some,
    Option.some.injEq, Prod.mk.injEq]
  constructor
  · rintro ⟨e, he, vm', hrow, hplace, rfl, rfl⟩
    exact ⟨hrow, e, he, rfl, hplace⟩
  · rintro ⟨hrow, e, he, rfl, hplace⟩
    exact ⟨e, he, vm, hrow, hplace, rfl, rfl⟩

/-- Distinct offsets give distinct keys, since a row points at one of them. -/
theorem nodup_liveRows (h : (entries.map (·.offset)).Nodup) :
    ((liveRows s path entries).map Prod.fst).Nodup := by
  induction entries with
  | nil => exact List.nodup_nil
  | cons e entries ih =>
    obtain ⟨hfirst, hrest⟩ := List.nodup_cons.mp h
    rw [liveRows, List.filterMap_cons]
    split
    · exact ih hrest
    · rename_i entry hentry
      obtain ⟨vm, hrow, hsome⟩ := Option.bind_eq_some_iff.mp hentry
      obtain ⟨hplace, rfl⟩ := Option.ite_none_right_eq_some.mp hsome |>.imp_right Option.some.inj
      refine List.nodup_cons.mpr ⟨fun hmem => ?_, ih hrest⟩
      obtain ⟨⟨key, vm'⟩, hlive, rfl⟩ := List.mem_map.mp hmem
      obtain ⟨hrow', e', he', -, hplace'⟩ := mem_liveRows.mp hlive
      obtain rfl : vm = vm' := Option.some.inj (hrow.symm.trans hrow')
      have hoffset : e.offset = e'.offset := by simpa using hplace.symm.trans hplace'
      exact hfirst (List.mem_map.mpr ⟨e', he', hoffset.symm⟩)

lemma picks_liveRows (h : Ledger skip s wb) (hseg : s.segments path = some seg) :
    Picks s.rows (liveRows s path seg.entries) :=
  ⟨nodup_liveRows (h.segmentOk path seg hseg).offsets, fun _ he => (mem_liveRows.mp he).1⟩

/-- The bytes that rows have in a segment are those of its live entries. -/
theorem total_liveAt (h : Ledger skip s wb) (hseg : s.segments path = some seg) :
    total (liveAt path) s.rows =
      ((liveRows s path seg.entries).map fun e => liveAt path e.2).sum := by
  have herase := total_eraseAll (liveAt path) (h.picks_liveRows hseg)
  -- No other row points into the segment.
  have hzero : total (liveAt path) (eraseAll s.rows (liveRows s path seg.entries)) = 0 := by
    refine total_eq_zero fun key row hrow => liveAt_eq_zero fun offset hplace => ?_
    obtain ⟨hnot, hread⟩ := lookup_of_eraseAll hrow
    obtain ⟨seg', hseg', he⟩ := h.placed key row path offset hread hplace
    obtain rfl : seg = seg' := Option.some.inj (hseg.symm.trans hseg')
    exact hnot (List.mem_map_of_mem (f := Prod.fst)
      (mem_liveRows.mpr ⟨hread, _, he, rfl, hplace⟩))
  rw [hzero] at herase
  exact (sub_eq_zero.mp herase.symm)

/-- The walk sums the lengths of the entries, which are those of their rows. -/
theorem sum_live_entries (h : Ledger skip s wb) (hseg : s.segments path = some seg)
    (hentries : ∀ e ∈ entries, e ∈ seg.entries) :
    ((entries.filter fun e => (s.rows.lookup e.key).any fun vm =>
        Store.segmentPlace vm = some (path, e.offset)).map fun e => e.length.toInt).sum =
      ((liveRows s path entries).map fun e => liveAt path e.2).sum := by
  induction entries with
  | nil => rfl
  | cons e entries ih =>
    have hrest := ih fun e' he' => hentries e' (by simp [he'])
    have hread : liveRows s path (e :: entries) =
        ((s.rows.lookup e.key).bind fun vm =>
          if Store.segmentPlace vm = some (path, e.offset) then some (e.key, vm)
          else none).toList ++ liveRows s path entries := by
      rw [liveRows, List.filterMap_cons]
      split <;> simp_all [liveRows]
    rw [hread, List.map_append, List.sum_append, ← hrest, List.filter_cons]
    cases hrow : s.rows.lookup e.key with
    | none => simp
    | some vm =>
      by_cases hplace : Store.segmentPlace vm = some (path, e.offset)
      · obtain ⟨seg', hseg', he⟩ := h.placed e.key vm path e.offset hrow hplace
        obtain rfl : seg = seg' := Option.some.inj (hseg.symm.trans hseg')
        have hlength : e = ⟨e.key, e.offset, vm.valueLength⟩ :=
          h.eq_of_offset hseg (hentries e (by simp)) he rfl
        have hsize : e.length.toInt = liveAt path vm := by
          rw [liveAt_of_segmentPlace hplace, hlength]
          rfl
        simp [hplace, hsize]
      · simp [hplace]

/-- The recompactor finds the bytes dead that were credited. -/
theorem walkSegmentLiveness (h : Ledger none s []) (hrows : RowsOk s)
    (hseg : s.segments path = some seg) :
    (walkSegmentLiveness s path seg).map Prod.snd = some (s.deleteIndex path).deletedBytes := by
  have hbalance := h.balance path seg hseg (by simp)
  have hlive := (h.total_liveAt hseg).trans (h.sum_live_entries hseg fun _ he => he).symm
  have hdead := h.nonneg path
  have hnonneg : 0 ≤ total (liveAt path) s.rows := by
    rw [h.total_liveAt hseg]
    refine List.sum_nonneg fun n hn => ?_
    obtain ⟨e, he, rfl⟩ := List.mem_map.mp hn
    exact liveAt_nonneg (hrows e.1 e.2 ((h.picks_liveRows hseg).lookup e he)).size_nonneg path
  have hok := h.segmentOk path seg hseg
  simp only [stagedAt, List.map_nil, List.sum_nil, add_zero] at hbalance
  unfold Accounting.walkSegmentLiveness
  dsimp only
  split
  · rename_i hnone
    simp only [Option.map_some, Option.some.injEq]
    rcases hnone with hnone | hnone
    · -- A segment without entries has no live bytes either.
      have hnil : seg.entries = [] := List.length_eq_zero_iff.mp (hok.numEntries.symm.trans hnone)
      have hzero : seg.dataBytes = 0 := by rw [hok.dataBytes, hnil, List.map_nil, List.sum_nil]
      omega
    · omega
  · rw [if_neg (not_not.mpr hok.numEntries.symm), Option.map_some, ← hlive, hbalance]
    congr 1
    omega

end Ledger

end OCache.Accounting
