import OCache.Accounting.Rows

/-!
# Removals

`DeleteKey`, the TTL sweep and the eviction pass take rows away. A batch of the sweep names a key
once, because the scan does. A batch of the eviction pass names a key once for every entry it evicts
through: a key with two entries and no back-reference is in the batch twice, since the row is still
there when the second entry is looked at.
-/

namespace OCache.Accounting

open Total

/-! ## Rows go -/

/-- What no removal touches. -/
structure Frame (s s' : State) : Prop where
  policy : s'.policy = s.policy
  updates : s'.updates = s.updates
  compactionIndex : s'.compactionIndex = s.compactionIndex
  segments : s'.segments = s.segments
  lastStamp : s'.lastStamp = s.lastStamp

/-- The rows of a batch go. The index keeps the back-references of other keys. -/
structure Erases (s : State) (gone : List (String × ValueMessage)) (s' : State) : Prop
    extends Frame s s' where
  rows : s'.rows = eraseAll s.rows gone
  backref : ∀ key, key ∉ gone.map Prod.fst →
    (s'.index s.policy).backref key = (s.index s.policy).backref key
  entries : (s'.index s.policy).entries ⊆ (s.index s.policy).entries

/-- The delete index after the credits of a batch. -/
def creditedAll (deleteIndex : String → DeadCount) (batch : List (String × ValueMessage)) :
    String → DeadCount :=
  batch.foldl (fun d e => credited d e.2) deleteIndex

/-- The rows of a batch go, each once, and those whose credit succeeds are credited. -/
structure Removal (uncredited : List String) (s : State) (gone : List (String × ValueMessage))
    (s' : State) : Prop extends Erases s gone s' where
  picks : Picks s.rows gone
  deleteIndex : s'.deleteIndex = creditedAll s.deleteIndex (gone.filter (·.1 ∉ uncredited))

section Composition

variable {s s₁ s₂ : State} {gone gone' : List (String × ValueMessage)} {uncredited : List String}

lemma Erases.refl (s : State) : Erases s [] s :=
  ⟨⟨rfl, rfl, rfl, rfl, rfl⟩, rfl, fun _ _ => rfl, subset_rfl⟩

lemma Erases.trans (h : Erases s gone s₁) (h' : Erases s₁ gone' s₂) :
    Erases s (gone ++ gone') s₂ where
  policy := h'.policy.trans h.policy
  updates := h'.updates.trans h.updates
  compactionIndex := h'.compactionIndex.trans h.compactionIndex
  segments := h'.segments.trans h.segments
  lastStamp := h'.lastStamp.trans h.lastStamp
  rows := by rw [h'.rows, h.rows, eraseAll_append]
  backref key hkey := by
    rw [List.map_append, List.mem_append, not_or] at hkey
    rw [← h.backref key hkey.1, ← h.policy]
    exact h'.backref key hkey.2
  entries := by
    have hentries := h'.entries
    rw [h.policy] at hentries
    exact hentries.trans h.entries

lemma Erases.lookup (h : Erases s gone s₁) {key : String} {row : ValueMessage}
    (hrow : s₁.rows.lookup key = some row) :
    key ∉ gone.map Prod.fst ∧ s.rows.lookup key = some row := by
  rw [h.rows] at hrow
  exact lookup_of_eraseAll hrow

lemma Erases.rowsOk (h : Erases s gone s₁) (hok : RowsOk s) : RowsOk s₁ :=
  hok.of_subset (h.lastStamp ▸ UInt64.le_refl _) fun _ _ hrow => (h.lookup hrow).2

/-- A change of the index of the active policy that keeps back-references. -/
theorem erases_modifyIndex (s : State) {f : Index → Index}
    (hbackref : (f (s.index s.policy)).backref = (s.index s.policy).backref)
    (hentries : (f (s.index s.policy)).entries ⊆ (s.index s.policy).entries) :
    Erases s [] (s.modifyIndex f) := by
  refine ⟨⟨rfl, rfl, rfl, rfl, rfl⟩, rfl, fun key _ => ?_, ?_⟩
  · simp [hbackref]
  · simpa using hentries

lemma Removal.refl (uncredited : List String) (s : State) : Removal uncredited s [] s :=
  { Erases.refl s with
    picks := Picks.nil _
    deleteIndex := rfl }

lemma batchBytes_append (batch batch' : List (String × ValueMessage)) :
    batchBytes (batch ++ batch') = batchBytes batch + batchBytes batch' := by
  simp [batchBytes]

variable (h : Removal uncredited s gone s₁)

include h

lemma Removal.trans (h' : Removal uncredited s₁ gone' s₂) :
    Removal uncredited s (gone ++ gone') s₂ :=
  { h.toErases.trans h'.toErases with
    picks := h.picks.append (h.rows ▸ h'.picks)
    deleteIndex := by
      rw [h'.deleteIndex, h.deleteIndex, List.filter_append, creditedAll, creditedAll, creditedAll,
        List.foldl_append] }

lemma Removal.updateSize (delta : ℤ) : Removal uncredited s gone (s₁.updateSize delta) :=
  { h with }

/-- A removal takes its bytes off the total of the rows. -/
theorem Removal.total_size : total size s₁.rows = total size s.rows - batchBytes gone := by
  rw [h.rows, total_eraseAll size h.picks, batchBytes]

end Composition

/-! ## One row -/

variable {s : State} {candidates : List Store.ExpiryCandidate}

/-- A row goes with its entry that counts, and is credited. -/
theorem removal_dropExpired {e : String × ValueMessage} (h : s.rows.lookup e.1 = some e.2) :
    Removal [] s [e] (dropExpired s e) where
  policy := rfl
  updates := rfl
  compactionIndex := rfl
  segments := rfl
  lastStamp := rfl
  rows := rfl
  backref key hkey := by
    have hne : key ≠ e.1 := by simpa using hkey
    simp [dropExpired, State.credit, BackrefIndex.remove, hne]
  entries := by
    simp [dropExpired, State.credit, BackrefIndex.remove]
  picks := ⟨List.nodup_singleton _, by simpa using h⟩
  deleteIndex := rfl

/-- An eviction through an entry. -/
theorem erases_evictOne (s : State) (v : IndexEntry × ValueMessage) :
    Erases s [(v.1.key, v.2)] (Pass.evictOne s v) where
  policy := rfl
  updates := rfl
  compactionIndex := rfl
  segments := rfl
  lastStamp := rfl
  rows := rfl
  backref key hkey := by
    have hne : key ≠ v.1.key := by simpa using hkey
    simp [Pass.evictOne, BackrefIndex.evict, hne]
  entries := by
    simpa [Pass.evictOne, BackrefIndex.evict] using Finset.erase_subset _ _

/-! ## The sweep -/

/-- A removal that the counter follows. -/
def Counted (uncredited : List String) (s s' : State) : Prop :=
  ∃ gone, Removal uncredited s gone s' ∧ s'.totalSize = s.totalSize - batchBytes gone

lemma Counted.refl (uncredited : List String) (s : State) : Counted uncredited s s :=
  ⟨[], .refl _ _, by simp [batchBytes]⟩

variable {uncredited : List String} {now : Int64}

lemma Counted.trans {s₁ s₂ : State} (h : Counted uncredited s s₁)
    (h' : Counted uncredited s₁ s₂) : Counted uncredited s s₂ := by
  obtain ⟨gone, hgone, hsize⟩ := h
  obtain ⟨gone', hgone', hsize'⟩ := h'
  exact ⟨gone ++ gone', hgone.trans hgone', by rw [hsize', hsize, batchBytes_append, sub_sub]⟩

lemma Counted.rowsOk {s' : State} (h : Counted uncredited s s') (hok : RowsOk s) : RowsOk s' :=
  h.choose_spec.1.rowsOk hok

lemma removal_foldl_dropExpired {batch : List (String × ValueMessage)} (h : Picks s.rows batch) :
    Removal [] s batch (batch.foldl dropExpired s) := by
  induction batch generalizing s with
  | nil => exact .refl _ _
  | cons e batch ih =>
    have hfirst := removal_dropExpired (h.lookup e (by simp))
    exact hfirst.trans (ih h.tail)

lemma totalSize_foldl_dropExpired (s : State) (batch : List (String × ValueMessage)) :
    (batch.foldl dropExpired s).totalSize = s.totalSize := by
  induction batch generalizing s with
  | nil => rfl
  | cons e batch ih => exact ih _

lemma picks_stillThere (rows : Rows) (h : (candidates.map (·.key)).Nodup) :
    Picks rows (stillThere rows candidates) := by
  have hread : ∀ cand : Store.ExpiryCandidate, ∀ e,
      ((rows.lookup cand.key).bind fun vm =>
        if cand.stillThere vm then some (cand.key, vm) else none) = some e →
      e.1 = cand.key ∧ rows.lookup e.1 = some e.2 := by
    intro cand e he
    obtain ⟨vm, hvm, hsome⟩ := Option.bind_eq_some_iff.mp he
    split at hsome
    · cases hsome
      exact ⟨rfl, hvm⟩
    · simp at hsome
  constructor
  · -- The keys of the batch are keys of candidates, in their order.
    refine List.Nodup.sublist ?_ h
    clear h
    induction candidates with
    | nil => exact .slnil
    | cons cand candidates ih =>
      rw [stillThere, List.filterMap_cons]
      split
      · exact ih.trans (List.sublist_cons_self _ _)
      · rename_i e he
        rw [List.map_cons, List.map_cons, (hread cand e he).1]
        exact ih.cons_cons _
  · intro e he
    obtain ⟨cand, -, hcand⟩ := List.mem_filterMap.mp he
    exact (hread cand e hcand).2

lemma batchBytes_nonneg (h : RowsOk s) {batch : List (String × ValueMessage)}
    (hpicks : Picks s.rows batch) : 0 ≤ batchBytes batch := by
  refine List.sum_nonneg fun n hn => ?_
  obtain ⟨e, he, rfl⟩ := List.mem_map.mp hn
  exact (h e.1 e.2 (hpicks.lookup e he)).size_nonneg

lemma counted_flushExpired (h : RowsOk s) (hkeys : (candidates.map (·.key)).Nodup) (ok : Bool) :
    Counted [] s (flushExpired s candidates ok) := by
  have hpicks := picks_stillThere s.rows hkeys
  have hremoval := removal_foldl_dropExpired hpicks
  have hsize := totalSize_foldl_dropExpired s (stillThere s.rows candidates)
  unfold flushExpired
  split
  · refine ⟨stillThere s.rows candidates, ?_⟩
    dsimp only
    split
    · exact ⟨hremoval.updateSize _, by simp [hsize, sub_eq_add_neg]⟩
    · -- The counter is not touched for a batch without bytes.
      rename_i hpos
      have hzero : batchBytes (stillThere s.rows candidates) = 0 :=
        le_antisymm (not_lt.mp hpos) (batchBytes_nonneg h hpicks)
      exact ⟨hremoval, by rw [hsize, hzero, sub_zero]⟩
  · exact .refl _ _

lemma candidateOf_key {key : String} {retained : Bool} {vm : ValueMessage}
    {cand : Store.ExpiryCandidate} (h : Store.candidateOf key now retained vm = some cand) :
    cand.key = key := by
  unfold Store.candidateOf at h
  rw [Option.ite_none_right_eq_some] at h
  cases h.2
  rfl

/-- The scan meets every key once, and the keys ahead are not among the candidates. -/
theorem counted_sweepFrom {snapshot : Rows} {retained : UInt64 → Bool} {failing : List Nat}
    (h : RowsOk s) {flushed : Nat} {keys : List String}
    (hkeys : (candidates.map (·.key) ++ keys).Nodup) :
    Counted [] s (sweepFrom snapshot now retained failing s candidates flushed keys) := by
  induction keys generalizing s candidates flushed with
  | nil =>
    rw [sweepFrom]
    split
    · exact .refl _ _
    · exact counted_flushExpired h (by simpa using hkeys) _
  | cons key keys ih =>
    rw [sweepFrom]
    generalize hfound : ((snapshot.lookup key).bind fun vm =>
      Store.candidateOf key now (retained vm.version) vm) = found
    -- A candidate that is found has the key of the row.
    have hkeys' : ((candidates ++ found.toList).map (·.key) ++ keys).Nodup := by
      rw [List.map_append, List.append_assoc]
      cases found with
      | none => exact hkeys.sublist (by simp)
      | some cand =>
        obtain ⟨vm, -, hcand⟩ := Option.bind_eq_some_iff.mp hfound
        simpa [candidateOf_key hcand] using hkeys
    split
    · have hflush := counted_flushExpired h (hkeys'.sublist (List.sublist_append_left _ _))
        (decide (flushed ∉ failing))
      exact hflush.trans (ih (hflush.rowsOk h) (hkeys'.sublist (by simp)))
    · exact ih h hkeys'

/-- The TTL sweep removes rows and counts what it removes, whichever batches fail. -/
theorem removal_cleanupExpiredKeys (h : RowsOk s) (now : Int64) (retained : UInt64 → Bool)
    (failing : List Nat) : Counted [] s (cleanupExpiredKeys s now retained failing) := by
  have hkeys : (sortedKeys s.rows).Nodup :=
    (List.perm_insertionSort _ _).nodup_iff.mpr s.rows.nodupKeys
  exact counted_sweepFrom h (by simpa using hkeys)

section Induction

variable {I : State → Prop} (hdrop : ∀ s e, I s → I (dropExpired s e))
  (hsize : ∀ s delta, I s → I (s.updateSize delta))

include hdrop hsize

lemma flushExpired_induction (h : I s) (candidates : List Store.ExpiryCandidate) (ok : Bool) :
    I (flushExpired s candidates ok) := by
  have hbatch : I ((stillThere s.rows candidates).foldl dropExpired s) :=
    List.foldlRecOn _ _ (motive := I) h fun s hs e _ => hdrop s e hs
  unfold flushExpired
  split
  · dsimp only
    split
    · exact hsize _ _ hbatch
    · exact hbatch
  · exact h

/-- What every removal of an expired row preserves, a sweep preserves. -/
theorem sweepFrom_induction {snapshot : Rows} {now : Int64} {retained : UInt64 → Bool}
    {failing : List Nat} (h : I s) (candidates : List Store.ExpiryCandidate) (flushed : Nat)
    (keys : List String) :
    I (sweepFrom snapshot now retained failing s candidates flushed keys) := by
  induction keys generalizing s candidates flushed with
  | nil =>
    rw [sweepFrom]
    split
    · exact h
    · exact flushExpired_induction hdrop hsize h _ _
  | cons key keys ih =>
    rw [sweepFrom]
    split
    · exact ih (flushExpired_induction hdrop hsize h _ _) _ _
    · exact ih h _ _

end Induction

/-! ## The eviction pass -/

/-- The entry would evict its key. -/
def evictable (s : State) (now : IndexEntry → Int64) (e : IndexEntry) : Bool :=
  (s.rows.lookup e.key).any (fun vm => !Store.expired (now e) vm) &&
    ((s.index s.policy).backref e.key).all (· = e)

/-- No key has two entries through which the pass would evict it. -/
def loneEntries (s : State) (now : IndexEntry → Int64) : Bool :=
  (s.index s.policy).ordered.all fun e => (s.index s.policy).ordered.all fun e' =>
    !(e.key = e'.key && evictable s now e && evictable s now e') || e = e'

lemma eq_of_loneEntries {now : IndexEntry → Int64} (h : loneEntries s now = true)
    {e e' : IndexEntry} (he : e ∈ (s.index s.policy).ordered)
    (he' : e' ∈ (s.index s.policy).ordered) (hkey : e.key = e'.key)
    (hevict : evictable s now e = true) (hevict' : evictable s now e' = true) : e = e' := by
  have hall := List.all_eq_true.mp (List.all_eq_true.mp h e he) e' he'
  simpa [hkey, hevict, hevict'] using hall

namespace Pass

/-- The rows that the batch of the pass takes away. -/
def batch (p : Pass) : List (String × ValueMessage) := p.victims.map fun v => (v.1.key, v.2)

lemma batchBytes_batch (p : Pass) : batchBytes p.batch = p.pendingBytes := by
  simp [batchBytes, batch, pendingBytes, Function.comp_def]

lemma erases_foldl_evictOne (s : State) (victims : List (IndexEntry × ValueMessage)) :
    Erases s (victims.map fun v => (v.1.key, v.2)) (victims.foldl evictOne s) := by
  induction victims generalizing s with
  | nil => exact .refl s
  | cons v victims ih => exact (erases_evictOne s v).trans (ih _)

lemma foldl_evictOne_fields (s : State) (victims : List (IndexEntry × ValueMessage)) :
    (victims.foldl evictOne s).deleteIndex = s.deleteIndex ∧
      (victims.foldl evictOne s).totalSize = s.totalSize := by
  induction victims generalizing s with
  | nil => exact ⟨rfl, rfl⟩
  | cons v victims ih => exact ih _

lemma foldl_credit (s : State) (victims : List (IndexEntry × ValueMessage)) :
    victims.foldl (fun s v => s.credit v.2) s =
      { s with
        deleteIndex := creditedAll s.deleteIndex (victims.map fun v => (v.1.key, v.2)) } := by
  induction victims generalizing s with
  | nil => rfl
  | cons v victims ih => exact ih _

lemma erases_written (p : Pass) (uncredited : List String) :
    Erases p.state p.batch (p.written uncredited) := by
  rw [written, foldl_credit]
  have hdiscard : Erases p.state [] (p.state.modifyIndex (·.discard p.orphans.toFinset)) :=
    erases_modifyIndex p.state rfl Finset.sdiff_subset
  exact { hdiscard.trans (erases_foldl_evictOne _ p.victims) with }

lemma totalSize_written (p : Pass) (uncredited : List String) :
    (p.written uncredited).totalSize = p.state.totalSize := by
  rw [written, foldl_credit]
  exact (foldl_evictOne_fields _ _).2

lemma removal_written {p : Pass} (h : Picks p.state.rows p.batch) {uncredited : List String} :
    Removal uncredited p.state p.batch (p.written uncredited) :=
  { p.erases_written uncredited with
    picks := h
    deleteIndex := by
      rw [written, foldl_credit, batch, List.filter_map]
      simp only [(foldl_evictOne_fields _ _).1]
      rfl }

/-- What `visit` makes of a pass. -/
inductive Visited (now : IndexEntry → Int64) (p : Pass) (e : IndexEntry) : Pass → Prop
  | expired : Visited now p e p
  | orphan (h : p.state.rows.lookup e.key = none ∨
      (p.state.index p.state.policy).backref e.key ≠ some e) :
      Visited now p e { p with orphans := p.orphans ++ [e] }
  | victim {vm : ValueMessage} (hrow : p.state.rows.lookup e.key = some vm)
      (hlive : Store.expired (now e) vm = false)
      (hcurrent : (p.state.index p.state.policy).backref e.key = none ∨
        (p.state.index p.state.policy).backref e.key = some e) :
      Visited now p e { p with victims := p.victims ++ [(e, vm)] }

lemma visited (now : IndexEntry → Int64) (p : Pass) (e : IndexEntry) :
    Visited now p e (p.visit now e) := by
  unfold visit
  split
  · rename_i hnone
    exact .orphan (.inl hnone)
  · rename_i vm hrow
    split
    · exact .expired
    · rename_i hlive
      rw [Bool.not_eq_true] at hlive
      split
      · -- A superseded entry is an orphan, the current one makes its key a victim.
        rename_i current hcurrent
        split
        · rename_i hne
          exact .orphan (.inr (by simpa [hcurrent] using hne))
        · rename_i heq
          exact .victim hrow hlive (.inr (by rw [hcurrent, not_not.mp heq]))
      · rename_i hnone
        exact .victim hrow hlive (.inl hnone)

section Induction

variable {I : Pass → List IndexEntry → Prop} {s : State} {now : IndexEntry → Int64}
  {failing : List Nat} {uncredited : List String}
  (hfailed : ∀ p rest, I p rest →
    I { p with orphans := [], victims := [], commits := p.commits + 1 } rest)
  (hwritten : ∀ p rest, I p rest →
    I ⟨p.written uncredited, [], [], p.committedBytes + p.pendingBytes, p.commits + 1⟩ rest)
  (hvisited : ∀ p p' e rest, I p (e :: rest) → Visited now p e p' → I p' rest)

include hfailed hwritten

lemma commit_induction {p : Pass} {rest : List IndexEntry} (h : I p rest) :
    I (p.commit failing uncredited) rest := by
  unfold commit
  split
  · exact h
  · split
    · exact hfailed p rest h
    · exact hwritten p rest h

include hvisited

lemma loop_induction {p : Pass} {rest : List IndexEntry} (h : I p rest) (target : ℤ) :
    ∃ left, I (loop target now failing uncredited p rest) left := by
  induction rest generalizing p with
  | nil => exact ⟨[], h⟩
  | cons e rest ih =>
    rw [loop]
    have hcommit : I (if 1000 ≤ p.count then p.commit failing uncredited else p) (e :: rest) := by
      split
      · exact commit_induction hfailed hwritten h
      · exact h
    generalize (if 1000 ≤ p.count then p.commit failing uncredited else p) = q at hcommit ⊢
    split
    · exact ⟨_, hcommit⟩
    · exact ih (hvisited q _ e rest hcommit (q.visited now e))

/-- What batches and entries preserve holds of the pass that `evictByIndex` ends with. -/
theorem evictByIndex_induction (h : I ⟨s, [], [], 0, 0⟩ (s.index s.policy).ordered) (target : ℤ) :
    ∃ p rest, I p rest ∧
      evictByIndex s target now failing uncredited = p.state.updateSize (-p.committedBytes) := by
  obtain ⟨left, hloop⟩ := loop_induction hfailed hwritten hvisited h target
  exact ⟨_, left, commit_induction hfailed hwritten hloop, rfl⟩

end Induction

/-- What holds between two entries of a pass that started in `s`, with `rest` ahead. -/
structure Inv (uncredited : List String) (s : State) (now : IndexEntry → Int64) (p : Pass)
    (rest : List IndexEntry) : Prop where
  removal : ∃ gone, Removal uncredited s gone p.state ∧ p.committedBytes = batchBytes gone
  totalSize : p.state.totalSize = s.totalSize
  picks : Picks p.state.rows p.batch
  evictable : ∀ v ∈ p.victims, evictable s now v.1 = true
  ordered : ∀ v ∈ p.victims, v.1 ∈ (s.index s.policy).ordered
  behind : ∀ v ∈ p.victims, v.1 ∉ rest

variable {uncredited : List String} {s : State} {now : IndexEntry → Int64} {p : Pass}
  {rest : List IndexEntry}

variable {e : IndexEntry} {vm : ValueMessage}

lemma Inv.tail (h : Inv uncredited s now p (e :: rest)) : Inv uncredited s now p rest :=
  { h with behind := fun v hv hmem => h.behind v hv (List.mem_cons_of_mem _ hmem) }

section

variable (h : Inv uncredited s now p rest)

include h

lemma Inv.failed :
    Inv uncredited s now { p with orphans := [], victims := [], commits := p.commits + 1 } rest :=
  { h with
    picks := Picks.nil _
    evictable := by simp
    ordered := by simp
    behind := by simp }

lemma Inv.written :
    Inv uncredited s now ⟨p.written uncredited, [], [], p.committedBytes + p.pendingBytes,
      p.commits + 1⟩ rest := by
  obtain ⟨gone, hgone, hbytes⟩ := h.removal
  exact { h.failed with
    removal := ⟨gone ++ p.batch, hgone.trans (removal_written h.picks), by
      rw [batchBytes_append, batchBytes_batch, hbytes]⟩
    totalSize := (p.totalSize_written uncredited).trans h.totalSize
    picks := Picks.nil _ }

/-- An entry that the pass evicts through now would have evicted its key at the start. -/
theorem Inv.evictable_of_visit
    (hrow : p.state.rows.lookup e.key = some vm) (hexpired : Store.expired (now e) vm = false)
    (hcurrent : (p.state.index p.state.policy).backref e.key = none ∨
      (p.state.index p.state.policy).backref e.key = some e) :
    Accounting.evictable s now e = true := by
  obtain ⟨gone, hgone, -⟩ := h.removal
  obtain ⟨hkept, hread⟩ := hgone.lookup hrow
  rw [hgone.policy, hgone.backref e.key hkept] at hcurrent
  rcases hcurrent with hnone | hsome
  · simp [Accounting.evictable, hread, hexpired, hnone]
  · simp [Accounting.evictable, hread, hexpired, hsome]

end

lemma Inv.victim (h : Inv uncredited s now p (e :: rest)) (hlone : loneEntries s now = true)
    (he : e ∈ (s.index s.policy).ordered) (hnodup : (e :: rest).Nodup)
    (hrow : p.state.rows.lookup e.key = some vm) (hevict : Accounting.evictable s now e = true) :
    Inv uncredited s now { p with victims := p.victims ++ [(e, vm)] } rest := by
  have hnew : e.key ∉ p.batch.map Prod.fst := by
    intro hmem
    obtain ⟨b, hb, hkey⟩ := List.mem_map.mp hmem
    obtain ⟨v, hv, rfl⟩ := List.mem_map.mp hb
    -- Another entry of this key in the batch would be this one, but that is still ahead.
    have heq := eq_of_loneEntries hlone (h.ordered v hv) he hkey (h.evictable v hv) hevict
    exact h.behind v hv (heq ▸ List.mem_cons_self)
  have hmem : ∀ v ∈ p.victims ++ [(e, vm)], v ∈ p.victims ∨ v = (e, vm) := by simp
  exact {
    removal := h.removal
    totalSize := h.totalSize
    picks := by
      refine ⟨?_, fun b hb => ?_⟩
      · simp only [batch, List.map_append, List.map_cons, List.map_nil]
        refine h.picks.nodup.append (List.nodup_singleton _) ?_
        rw [List.disjoint_singleton]
        exact hnew
      · simp only [batch, List.map_append, List.map_cons, List.map_nil, List.mem_append,
          List.mem_singleton] at hb
        rcases hb with hb | rfl
        · exact h.picks.lookup b hb
        · exact hrow
    evictable := fun v hv => by
      rcases hmem v hv with hv | rfl
      · exact h.evictable v hv
      · exact hevict
    ordered := fun v hv => by
      rcases hmem v hv with hv | rfl
      · exact h.ordered v hv
      · exact he
    behind := fun v hv => by
      rcases hmem v hv with hv | rfl
      · exact h.tail.behind v hv
      · exact (List.nodup_cons.mp hnodup).1 }

lemma Inv.visited {p' : Pass} (h : Inv uncredited s now p (e :: rest))
    (hlone : loneEntries s now = true) (he : e ∈ (s.index s.policy).ordered)
    (hnodup : (e :: rest).Nodup) (hvisited : Visited now p e p') :
    Inv uncredited s now p' rest := by
  have htail := h.tail
  cases hvisited with
  | expired => exact htail
  | orphan => exact { htail with }
  | victim hrow hlive hcurrent =>
    exact h.victim hlone he hnodup hrow (h.evictable_of_visit hrow hlive hcurrent)

end Pass

/-- The eviction pass takes rows away, whatever the index looks like. -/
theorem erases_evictByIndex (s : State) (target : ℤ) (now : IndexEntry → Int64)
    (failing : List Nat) (uncredited : List String) :
    ∃ gone, Erases s gone (evictByIndex s target now failing uncredited) := by
  obtain ⟨p, -, ⟨gone, hgone⟩, hp⟩ := Pass.evictByIndex_induction
    (I := fun p _ => ∃ gone, Erases s gone p.state) (fun _ _ h => h)
    (fun p _ h => h.elim fun _ hgone => ⟨_, hgone.trans (p.erases_written uncredited)⟩)
    (fun _ _ _ _ h hvisited => by cases hvisited <;> exact h) ⟨[], .refl _⟩ target
  exact ⟨gone, hp ▸ { hgone with }⟩

/-- If no key has two entries to evict it through, the pass removes rows and counts what it
removes, whichever batches and credits fail. -/
theorem removal_evictByIndex {now : IndexEntry → Int64} (hlone : loneEntries s now = true)
    (target : ℤ) (failing : List Nat) (uncredited : List String) :
    Counted uncredited s (evictByIndex s target now failing uncredited) := by
  obtain ⟨p, rest, ⟨hend, -⟩, hp⟩ := Pass.evictByIndex_induction
    (I := fun p rest => Pass.Inv uncredited s now p rest ∧
      (∀ e ∈ rest, e ∈ (s.index s.policy).ordered) ∧ rest.Nodup)
    (fun _ _ h => ⟨h.1.failed, h.2⟩) (fun _ _ h => ⟨h.1.written, h.2⟩)
    (fun _ _ e _ ⟨h, hrest, hnodup⟩ hvisited => ⟨h.visited hlone (hrest e (by simp)) hnodup hvisited,
      fun e' he' => hrest e' (by simp [he']), hnodup.of_cons⟩)
    ⟨⟨⟨[], .refl _ _, rfl⟩, rfl, Picks.nil _, by simp, by simp, by simp⟩, fun _ he => he,
      BackrefIndex.nodup_ordered⟩ target
  obtain ⟨gone, hgone, hbytes⟩ := hend.removal
  rw [hp]
  refine ⟨gone, hgone.updateSize _, ?_⟩
  show _ + -_ = _
  rw [hend.totalSize, hbytes, sub_eq_add_neg]

end OCache.Accounting
