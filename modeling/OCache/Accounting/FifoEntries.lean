import OCache.Accounting.IndexCoverage

/-!
# One entry for every live key

Under the FIFO policy a put replaces the entry of its key, which it finds through the
back-reference. Entries are never left behind that way: every entry is named by the back-reference
of its key, whatever the clock does. A back-reference without an entry can be left behind, by a
delete whose cutoff is not after the entry's time and by the reclaim of an entry without a row; the
key has no live row then, and the next put of it writes a new entry and a new back-reference.
-/

namespace OCache.Accounting

open Merge EventSystem

/-- Entries are named, and rows that are not tombstones have one. -/
structure OneEntry (s : State) : Prop where
  policy : s.policy = .fifo
  sole : (s.index s.policy).Sole
  listed : ∀ key row, s.rows.lookup key = some row → row.expiry ≠ tombstoneExpiry →
    (s.index s.policy).Listed key

lemma oneEntry_init : OneEntry (init .fifo) where
  policy := rfl
  sole := BackrefIndex.sole_empty
  listed key row h := by simp [init] at h

namespace OneEntry

variable {cfg : Settings} {s s' : State}

variable {key : String} {i : Index}

section

variable (h : OneEntry s)

include h

/-- The row of a key changes, and the index of the policy with it. -/
theorem setRow (row : ValueMessage) (hrows : s'.rows = s.rows.insert key row)
    (hpolicy : s'.policy = s.policy) (hsole : (s'.index s.policy).Sole)
    (hself : row.expiry ≠ tombstoneExpiry → (s'.index s.policy).Listed key)
    (hother : ∀ k, k ≠ key → (s.index s.policy).Listed k → (s'.index s.policy).Listed k) :
    OneEntry s' where
  policy := hpolicy.trans h.policy
  sole := hpolicy ▸ hsole
  listed k r hr hlive := by
    rw [hpolicy]
    rw [hrows] at hr
    by_cases hk : k = key
    · subst hk
      rw [AList.lookup_insert] at hr
      cases hr
      exact hself hlive
    · rw [AList.lookup_insert_ne hk] at hr
      exact hother k hk (h.listed k r hr hlive)

/-- The row of a key goes, with its entry. -/
theorem erase (hrows : s'.rows = s.rows.erase key) (hpolicy : s'.policy = s.policy)
    (hsole : (s'.index s.policy).Sole)
    (hother : ∀ k, k ≠ key → (s.index s.policy).Listed k → (s'.index s.policy).Listed k) :
    OneEntry s' where
  policy := hpolicy.trans h.policy
  sole := hpolicy ▸ hsole
  listed k r hr hlive := by
    rw [hpolicy]
    rw [hrows] at hr
    have hk : k ≠ key := by
      rintro rfl
      simp [AList.lookup_erase] at hr
    rw [AList.lookup_erase_ne hk] at hr
    exact hother k hk (h.listed k r hr hlive)

/-- The entry of a put under FIFO. -/
theorem index_indexKey (hcap : cfg.capped = true) (key : String) (now : Nat) :
    (s.indexKey cfg key now).index s.policy = (s.index s.policy).replace key now := by
  simp [State.indexKey, hcap, h.policy]

/-- An entry is written for a key whose row is new or was there. -/
theorem indexKey (hcap : cfg.capped = true) (s₁ : State) (row : ValueMessage) (now : Nat)
    (hrows : s₁.rows = s.rows.insert key row) (hpolicy : s₁.policy = s.policy)
    (hindex : s₁.index = s.index) : OneEntry (s₁.indexKey cfg key now) := by
  have hreplace : (s₁.indexKey cfg key now).index s.policy =
      (s.index s.policy).replace key now := by
    simp [State.indexKey, hcap, hpolicy, hindex, h.policy]
  refine h.setRow row hrows hpolicy (hreplace ▸ h.sole.replace key now) (fun _ => ?_) ?_
  · rw [hreplace]
    exact BackrefIndex.listed_replace _ _ _
  · intro k _ hlisted
    rw [hreplace]
    exact hlisted.replace h.sole key now

/-- A lost merge leaves the row, or a tombstone where there was none. -/
theorem lost (key : String) (stamp : UInt64) :
    OneEntry ({ s with lastStamp := stamp }.setRow key
      ((baseOf (s.rows.lookup key)).getD (tombstone 0))) := by
  refine h.setRow _ rfl rfl h.sole ?_ fun _ _ hlisted => hlisted
  intro hlive
  cases hbase : baseOf (s.rows.lookup key) with
  | none => exact absurd (by rw [hbase]; rfl) hlive
  | some row =>
    rw [hbase] at hlive
    exact h.listed key row (eq_some_of_baseOf hbase) hlive

/-! ## Calls -/

lemma put (hcap : cfg.capped = true) (u : Upload) (now : Nat) : OneEntry (put cfg s u now true) :=
  { h.indexKey hcap (((s.setRow u.key _).indexRaw cfg u.key _).creditReplaced _)
      (Store.putRow (u.payload cfg) u.expiry) now rfl rfl rfl with }

lemma dropExpired (e : String × ValueMessage) : OneEntry (dropExpired s e) := by
  have hindex : (Accounting.dropExpired s e).index s.policy = (s.index s.policy).remove e.1 := by
    simp [Accounting.dropExpired, State.credit]
  refine h.erase rfl rfl (hindex ▸ h.sole.remove e.1) fun k hk hlisted => ?_
  rw [hindex]
  exact hlisted.remove h.sole hk

lemma deleteKey (key : String) : OneEntry (deleteKey s key true) := by
  unfold Accounting.deleteKey
  split
  · exact h
  · rename_i prev hprev
    exact { h.dropExpired (key, prev) with }

lemma putIfVersion (hcap : cfg.capped = true) (hrows : RowsOk s) (u : Upload)
    (expected stamp : UInt64) (first second : Int64) (now : Nat) (mergeOk creditOk : Bool) :
    OneEntry (putIfVersion cfg s u expected stamp first second now mergeOk true creditOk) := by
  have hout := putOutcome_putIfVersion cfg hrows u expected stamp first second now mergeOk true
    creditOk
  generalize Accounting.putIfVersion cfg s u expected stamp first second now mergeOk true creditOk =
    s' at hout ⊢
  cases hout with
  | kept _ => exact { h with }
  | lost _ => exact h.lost u.key stamp
  | won _ expected =>
    have hindexed := h.indexKey hcap (({ s with lastStamp := stamp }.setRow u.key _).indexRaw cfg
      u.key (casPutOperand (u.payload cfg) u.expiry stamp expected))
      (adopt (casPutOperand (u.payload cfg) u.expiry stamp expected)) now rfl rfl rfl
    cases creditOk <;> exact { hindexed with }

end

/-- The captured entry goes; its back-reference goes too or is left dangling. -/
theorem sole_dropDeadEvictionGeneration (h : i.Sole) (key : String) (cutoff : Nat) :
    (dropDeadEvictionGeneration i key cutoff (i.backref key)).Sole := by
  have hdropped := h.discard (i.backref key).toFinset
  unfold dropDeadEvictionGeneration
  dsimp only
  split
  · split
    · exact hdropped.remove key
    · exact hdropped
  · exact hdropped

lemma listed_dropDeadEvictionGeneration (h : i.Sole) {k : String} (hk : k ≠ key) (cutoff : Nat)
    (hlisted : i.Listed k) :
    (dropDeadEvictionGeneration i key cutoff (i.backref key)).Listed k := by
  have hdropped : (i.discard (i.backref key).toFinset).Listed k := by
    refine hlisted.discard fun e href hmem => ?_
    rw [Option.mem_toFinset] at hmem
    exact hk ((h.keyed k e href).symm.trans (h.keyed key e hmem))
  unfold dropDeadEvictionGeneration
  dsimp only
  split
  · split
    · exact hdropped.remove (h.discard _) hk
    · exact hdropped
  · exact hdropped

lemma deleteIfVersion (h : OneEntry s) (hrows : RowsOk s) (key : String)
    (expected stamp : UInt64) (now : Int64) (cutoff : Nat) (mergeOk creditOk dropOk : Bool) :
    OneEntry (deleteIfVersion s key expected stamp now cutoff mergeOk creditOk dropOk) := by
  have hout := deleteOutcome_deleteIfVersion hrows key expected stamp now cutoff mergeOk creditOk
    dropOk
  generalize Accounting.deleteIfVersion s key expected stamp now cutoff mergeOk creditOk dropOk = s'
    at hout ⊢
  cases hout with
  | kept _ => exact { h with }
  | lost _ => exact h.lost key stamp
  | won _ =>
    -- The row is a tombstone, so only the entries of other keys count.
    have hindex : (wonDelete s key stamp cutoff creditOk dropOk).index s.policy =
        if dropOk then dropDeadEvictionGeneration (s.index s.policy) key cutoff
          ((s.index s.policy).backref key) else s.index s.policy := by
      cases creditOk <;> cases dropOk <;>
        simp [wonDelete]
    refine h.setRow (tombstone stamp) (wonDelete_fields s key stamp cutoff creditOk dropOk).1 ?_ ?_
      (fun hlive => absurd rfl hlive) ?_
    · cases creditOk <;> cases dropOk <;> rfl
    · rw [hindex]
      split
      · exact sole_dropDeadEvictionGeneration h.sole key cutoff
      · exact h.sole
    · intro k hk hlisted
      rw [hindex]
      split
      · exact listed_dropDeadEvictionGeneration h.sole hk cutoff hlisted
      · exact hlisted

/-- A reconcile replaces entries and keeps rows. -/
theorem reconcileFromMetadata (h : OneEntry s) (hcap : cfg.capped = true) (now : Nat) :
    OneEntry (reconcileFromMetadata cfg s now) := by
  have hfold : OneEntry (backfill cfg s now) := by
    refine List.foldlRecOn _ _ (motive := OneEntry) h fun s' hs' key _ => ?_
    split
    · -- A backfilled key gets a new entry in place of the one its back-reference named.
      have hindex := hs'.index_indexKey hcap key now
      exact {
        policy := hs'.policy
        sole := by
          show ((s'.indexKey cfg key now).index s'.policy).Sole
          rw [hindex]
          exact hs'.sole.replace key now
        listed := fun k row hrow hlive => by
          show ((s'.indexKey cfg key now).index s'.policy).Listed k
          rw [hindex]
          exact (hs'.listed k row hrow hlive).replace hs'.sole key now }
    · exact hs'
  exact { hfold with }

end OneEntry

/-! ## Evictions -/

namespace Pass

/-- A pass between two entries: what it reclaims has no row or does not count, and what it evicts
through counts. -/
structure Sound (p : Pass) : Prop where
  state : OneEntry p.state
  orphans : ∀ e ∈ p.orphans, p.state.rows.lookup e.key = none ∨
    (p.state.index p.state.policy).backref e.key ≠ some e
  victims : ∀ v ∈ p.victims, (p.state.index p.state.policy).backref v.1.key = none ∨
    (p.state.index p.state.policy).backref v.1.key = some v.1

variable {p : Pass}

lemma oneEntry_foldl_evictOne {s : State} (h : OneEntry s)
    {victims : List (IndexEntry × ValueMessage)}
    (hvictims : ∀ v ∈ victims, (s.index s.policy).backref v.1.key = none ∨
      (s.index s.policy).backref v.1.key = some v.1) :
    OneEntry (victims.foldl evictOne s) := by
  induction victims generalizing s with
  | nil => exact h
  | cons v victims ih =>
    have hindex : (evictOne s v).index s.policy = (s.index s.policy).evict v.1 := by
      simp [evictOne]
    have hevicted : OneEntry (evictOne s v) := by
      refine h.erase rfl rfl (hindex ▸ h.sole.evict (hvictims v (by simp))) fun k hk hlisted => ?_
      rw [hindex]
      exact hlisted.evict h.sole hk
    refine ih hevicted fun v' hv' => ?_
    -- An eviction through another entry leaves the back-reference or takes it away.
    show ((evictOne s v).index s.policy).backref v'.1.key = none ∨
      ((evictOne s v).index s.policy).backref v'.1.key = some v'.1
    rw [hindex]
    by_cases hkey : v'.1.key = v.1.key
    · exact .inl (by simp [BackrefIndex.evict, hkey])
    · have hother : ((s.index s.policy).evict v.1).backref v'.1.key =
          (s.index s.policy).backref v'.1.key := by
        simp [BackrefIndex.evict, hkey]
      rw [hother]
      exact hvictims v' (by simp [hv'])

lemma Sound.written (h : Sound p) (uncredited : List String) : OneEntry (p.written uncredited) := by
  -- Orphans are discarded first, then the victims are evicted through their entries.
  have hindex : (p.state.modifyIndex (·.discard p.orphans.toFinset)).index p.state.policy =
      (p.state.index p.state.policy).discard p.orphans.toFinset := by
    simp
  have hdiscard : OneEntry (p.state.modifyIndex (·.discard p.orphans.toFinset)) := {
    policy := h.state.policy
    sole := by
      show BackrefIndex.Sole (State.index _ p.state.policy)
      rw [hindex]
      exact h.state.sole.discard _
    listed := fun key row hrow hlive => by
      show BackrefIndex.Listed (State.index _ p.state.policy) key
      rw [hindex]
      refine (h.state.listed key row hrow hlive).discard fun e href hmem => ?_
      have hkey := h.state.sole.keyed key e href
      -- An orphan is not the entry of a live row.
      rcases h.orphans e (List.mem_toFinset.mp hmem) with hnone | hunnamed
      · rw [hkey, show p.state.rows.lookup key = some row from hrow] at hnone
        simp at hnone
      · exact hunnamed (hkey ▸ href) }
  rw [Pass.written, foldl_credit]
  refine { oneEntry_foldl_evictOne hdiscard ?_ with }
  intro v hv
  have hbackref : ((p.state.modifyIndex (·.discard p.orphans.toFinset)).index
      p.state.policy).backref v.1.key = (p.state.index p.state.policy).backref v.1.key := by
    rw [hindex]
    rfl
  exact (h.victims v hv).imp hbackref.trans hbackref.trans

lemma Sound.visited (h : Sound p) {now : IndexEntry → Int64} {e : IndexEntry} {p' : Pass}
    (hvisited : Visited now p e p') : Sound p' := by
  cases hvisited with
  | expired => exact h
  | orphan horphan =>
    refine { h with orphans := fun e' he' => ?_ }
    rcases List.mem_append.mp he' with he' | he'
    · exact h.orphans e' he'
    · obtain rfl := List.mem_singleton.mp he'
      exact horphan
  | victim _ _ hcurrent =>
    refine { h with victims := fun v hv => ?_ }
    rcases List.mem_append.mp hv with hv | hv
    · exact h.victims v hv
    · obtain rfl := List.mem_singleton.mp hv
      exact hcurrent

end Pass

variable {s : State}

lemma OneEntry.evictByIndex (h : OneEntry s) (target : ℤ) (now : IndexEntry → Int64)
    (failing : List Nat) (uncredited : List String) :
    OneEntry (evictByIndex s target now failing uncredited) := by
  obtain ⟨p, -, hend, hp⟩ := Pass.evictByIndex_induction (I := fun p _ => p.Sound)
    (fun _ _ h => ⟨h.state, by simp, by simp⟩)
    (fun _ _ h => ⟨h.written uncredited, by simp, by simp⟩) (fun _ _ _ _ h => h.visited)
    ⟨h, by simp, by simp⟩ target
  exact hp ▸ { hend.state with }

/-! ## Runs -/

/-- The operations on rows and the index, without failures. Clock readings are arbitrary. -/
def failureFree : Event → Bool
  | .put _ _ ok => ok
  | .deleteKey _ ok => ok
  | .putIfVersion _ _ _ _ _ _ mergeOk bookOk creditOk => mergeOk && bookOk && creditOk
  | .deleteIfVersion _ _ _ _ _ mergeOk creditOk dropOk => mergeOk && creditOk && dropOk
  | .cleanupExpiredKeys _ _ failing => failing = []
  | .evictByIndex _ _ failing uncredited => failing = [] && uncredited = []
  | .reconcileFromMetadata _ => true
  | _ => false

lemma oneEntry_step {cfg : Settings} (hcap : cfg.capped = true) {e : Event} (hrows : RowsOk s)
    (h : OneEntry s) (hok : failureFree e = true) : OneEntry (step cfg s e) := by
  -- Of the conditions only those on single writes are used.
  cases e with
  | put u now ok =>
    obtain rfl : ok = true := hok
    exact h.put hcap u now
  | deleteKey key ok =>
    obtain rfl : ok = true := hok
    exact h.deleteKey key
  | putIfVersion u expected stamp first second now mergeOk bookOk creditOk =>
    simp only [failureFree, Bool.and_eq_true] at hok
    obtain ⟨⟨-, rfl⟩, -⟩ := hok
    exact h.putIfVersion hcap hrows u expected stamp first second now mergeOk creditOk
  | deleteIfVersion key expected stamp now cutoff mergeOk creditOk dropOk =>
    exact h.deleteIfVersion hrows key expected stamp now cutoff mergeOk creditOk dropOk
  | cleanupExpiredKeys now retained failing =>
    exact sweepFrom_induction (fun _ e hs => hs.dropExpired e) (fun _ _ hs => { hs with }) h _ _ _
  | evictByIndex target now failing uncredited =>
    exact h.evictByIndex target now failing uncredited
  | reconcileFromMetadata now => exact h.reconcileFromMetadata hcap now
  | compactFiles | recompactSegment | get | flushBatch | cleanupOldBuckets | restart =>
    simp [failureFree] at hok

/-- With a disk cap and the FIFO policy, after every run without failures every row but a tombstone,
so every live one, has exactly one ordered entry, and its back-reference names that entry. -/
theorem one_fifo_entry (cfg : Settings) (hcap : cfg.capped = true) (es : List Event)
    (h : ∀ e ∈ es, failureFree e = true) (key : String) (row : ValueMessage)
    (hrow : (run (step cfg) (init .fifo) es).rows.lookup key = some row)
    (hlive : row.expiry ≠ tombstoneExpiry) :
    ∃ e, ((run (step cfg) (init .fifo) es).index .fifo).backref key = some e ∧
      ∀ e', e' ∈ ((run (step cfg) (init .fifo) es).index .fifo).entries ∧ e'.key = key ↔ e' = e := by
  have hok : RunOk (step cfg) (fun _ e => failureFree e = true) (init .fifo) es :=
    runOk_of_forall (fun e he _ => h e he) _
  have hinv : RowsOk (run (step cfg) (init .fifo) es) ∧ OneEntry (run (step cfg) (init .fifo) es) :=
    invariant_run (I := fun s => RowsOk s ∧ OneEntry s)
      (fun _ e hI hok => ⟨rowsOk_step cfg hI.1 e, oneEntry_step hcap hI.1 hI.2 hok⟩)
      ⟨rowsOk_init .fifo, oneEntry_init⟩ hok
  have hpolicy := hinv.2.policy
  have hsole := hinv.2.sole
  have hlisted := hinv.2.listed key row hrow hlive
  rw [hpolicy] at hsole hlisted
  exact hsole.existsUnique hlisted

/-- The clock steps backward and repeats; a delete's cutoff is not after the entry that it
captured. -/
def steppedClockRun : List Event :=
  [.put (twoBytes "a" 0 0) 9 true, .put (twoBytes "a" 1 0) 3 true,
    .put (twoBytes "b" 2 5) 3 true,
    .putIfVersion (twoBytes "c" 3 0) 0 2 3 3 4 true true true,
    .deleteIfVersion "c" 2 3 4 4 true true true, .cleanupExpiredKeys 7 (fun _ => true) [],
    .reconcileFromMetadata 2,
    .putIfVersion (twoBytes "c" 4 0) 3 4 3 3 1 true true true,
    .deleteKey "b" true, .evictByIndex 1 (fun _ => 9) [] []]

theorem one_fifo_entry_steppedClockRun :
    (∀ e ∈ steppedClockRun, failureFree e = true) ∧
      ∃ e, ((run (step smallCache) (init .fifo) steppedClockRun).index .fifo).backref "a" = some e ∧
        ∀ e', e' ∈ ((run (step smallCache) (init .fifo) steppedClockRun).index .fifo).entries ∧
          e'.key = "a" ↔ e' = e := by
  have hok : ∀ e ∈ steppedClockRun, failureFree e = true := by decide +kernel
  obtain ⟨row, hrow⟩ : ∃ row,
      (run (step smallCache) (init .fifo) steppedClockRun).rows.lookup "a" = some row :=
    Option.isSome_iff_exists.mp (by decide +kernel)
  have hlive : ((run (step smallCache) (init .fifo) steppedClockRun).rows.lookup "a").all
      (·.expiry ≠ tombstoneExpiry) = true := by decide +kernel
  simp only [hrow, Option.all_some, decide_eq_true_eq] at hlive
  exact ⟨hok, one_fifo_entry smallCache rfl steppedClockRun hok "a" row hrow hlive⟩

end OCache.Accounting
