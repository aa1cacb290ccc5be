import OCache.Accounting.TotalSize

/-!
# Coverage of the eviction index

`reconcileFromMetadata` gives an entry to every row whose key has no back-reference. So a
back-reference whose entry is gone hides its key from the pass: the row is never evicted. Most
operations take an entry and its back-reference together. Three do not, and a key is hidden if they
meet an entry that its back-reference names: `cleanupOldBuckets` drops old entries, the eviction
pass drops entries of keys without a row, and `DeleteIfVersion` drops the entry of the value it
deletes, and the back-reference only if that is older than its cutoff.
-/

namespace OCache.Accounting

open Total EventSystem

/-- Every live row has an entry that the eviction pass would evict it through. -/
def Covered (clock : Int64) (s : State) : Prop :=
  ∀ key row, s.rows.lookup key = some row → Store.expired clock row = false →
    (s.index s.policy).Covers key

/-- No back-reference dangles, under either policy. -/
def Backed (s : State) : Prop := ∀ policy, (s.index policy).Backed

lemma backed_init (policy : Policy) : Backed (init policy) := fun _ => BackrefIndex.backed_empty

section Index

variable {cfg : Settings} {s : State}

lemma Backed.of_index_eq {s' : State} (h : Backed s) (hindex : s'.index = s.index) : Backed s' :=
  fun policy => hindex ▸ h policy

lemma Backed.update (h : Backed s) {policy : Policy} {i : Index} (hi : i.Backed) :
    Backed { s with index := Function.update s.index policy i } := by
  intro policy'
  by_cases hpolicy : policy' = policy
  · subst hpolicy
    simpa using hi
  · simpa [hpolicy] using h policy'

lemma Backed.modifyIndex (h : Backed s) {f : Index → Index}
    (hf : (f (s.index s.policy)).Backed) : Backed (s.modifyIndex f) :=
  h.update hf

lemma Backed.indexKey (h : Backed s) (key : String) (now : Nat) :
    Backed (s.indexKey cfg key now) := by
  refine h.modifyIndex ?_
  split
  · split
    · exact (h s.policy).replace key now
    · exact (h s.policy).put key now
  · exact h s.policy

/-- With a cap, a put leaves a back-reference. -/
theorem backref_indexKey (hcap : cfg.capped = true) (key k : String) (now : Nat) :
    ((s.indexKey cfg key now).index s.policy).backref k =
      if k = key then some ⟨now, key⟩ else (s.index s.policy).backref k := by
  simp only [State.indexKey, State.modifyIndex, Function.update_self, hcap, if_true]
  split <;> simp [BackrefIndex.replace, BackrefIndex.put, Function.update_apply]

end Index

/-! ## Reconcile -/

variable {cfg : Settings} {s : State}

/-- The backfill leaves no dangling back-reference, and one for every row. -/
theorem backfill_spec (hcap : cfg.capped = true) (h : Backed s) (now : Nat) :
    Backed (backfill cfg s now) ∧ (backfill cfg s now).policy = s.policy ∧
      ∀ key ∈ s.rows.keys, ((backfill cfg s now).index s.policy).backref key ≠ none := by
  -- Keys that had a back-reference keep one, and the keys passed so far have one.
  have hfold : ∀ (keys : List String) (s' : State), Backed s' → s'.policy = s.policy →
      (∀ key, (s.index s.policy).backref key ≠ none →
        (s'.index s.policy).backref key ≠ none) →
      let s'' := keys.foldl (fun s' key =>
        if ((s.index s.policy).backref key).isNone then s'.indexKey cfg key now else s') s'
      Backed s'' ∧ s''.policy = s.policy ∧ ∀ key,
        key ∈ keys ∨ (s'.index s.policy).backref key ≠ none →
          (s''.index s.policy).backref key ≠ none := by
    intro keys
    induction keys with
    | nil =>
      intro s' hs' hpolicy _
      exact ⟨hs', hpolicy, fun key hkey => hkey.resolve_left (by simp)⟩
    | cons k keys ih =>
      intro s' hs' hpolicy hkept
      rw [List.foldl_cons]
      split
      · have hindexed : ∀ key, key = k ∨ (s'.index s.policy).backref key ≠ none →
            ((s'.indexKey cfg k now).index s.policy).backref key ≠ none := by
          intro key hkey
          rw [← hpolicy, backref_indexKey hcap]
          split
          · simp
          · exact hpolicy ▸ hkey.resolve_left (by assumption)
        obtain ⟨hback, hpol, hend⟩ := ih _ (hs'.indexKey k now) hpolicy
          fun key hkey => hindexed key (.inr (hkept key hkey))
        refine ⟨hback, hpol, fun key hkey => hend key ?_⟩
        rcases hkey with hkey | hkey
        · rcases List.mem_cons.mp hkey with rfl | hkey
          · exact .inr (hindexed key (.inl rfl))
          · exact .inl hkey
        · exact .inr (hindexed key (.inr hkey))
      · rename_i hsome
        obtain ⟨hback, hpol, hend⟩ := ih s' hs' hpolicy hkept
        refine ⟨hback, hpol, fun key hkey => hend key ?_⟩
        rcases hkey with hkey | hkey
        · rcases List.mem_cons.mp hkey with rfl | hkey
          · exact .inr (hkept key (by simpa using hsome))
          · exact .inl hkey
        · exact .inr hkey
  obtain ⟨hback, hpolicy, hend⟩ := hfold s.rows.keys s h rfl fun _ hkey => hkey
  exact ⟨hback, hpolicy, fun key hkey => hend key (.inl hkey)⟩

/-- A reconcile covers all rows, if no back-reference dangles before it. -/
theorem Backed.reconciled (hcap : cfg.capped = true) (h : Backed s) (now : Nat) (clock : Int64) :
    Covered clock (reconcileFromMetadata cfg s now) := by
  obtain ⟨hback, hpolicy, hrefs⟩ := backfill_spec hcap h now
  intro key row hrow _
  replace hrow : (backfill cfg s now).rows.lookup key = some row := hrow
  rw [(backfill_fields cfg s now).1] at hrow
  have hkey : key ∈ s.rows.keys := AList.mem_keys.mpr (AList.lookup_isSome.mp (by simp [hrow]))
  obtain ⟨e, he⟩ := Option.ne_none_iff_exists'.mp (hrefs key hkey)
  rw [← hpolicy] at he
  exact BackrefIndex.covers_of_backed (hback _) he

/-! ## Evictions -/

/-- No entry of a key without a row is the one that its back-reference names. -/
def orphansUnnamed (s : State) : Bool :=
  (s.index s.policy).ordered.all fun e =>
    (s.rows.lookup e.key).isSome || (s.index s.policy).backref e.key ≠ some e

namespace Pass

lemma backref_foldl_evictOne (s : State) (victims : List (IndexEntry × ValueMessage))
    (key : String) :
    ((victims.foldl evictOne s).index s.policy).backref key =
      if key ∈ victims.map (·.1.key) then none else (s.index s.policy).backref key := by
  induction victims generalizing s with
  | nil => simp
  | cons v victims ih =>
    have hstep := ih (evictOne s v)
    rw [List.foldl_cons]
    refine hstep.trans ?_
    by_cases hkey : key = v.1.key
    · simp [evictOne, BackrefIndex.evict, hkey]
    · simp only [evictOne, State.modifyIndex, BackrefIndex.evict, Function.update_self,
        Function.update_of_ne hkey, List.map_cons, List.mem_cons, hkey, false_or]

lemma backed_foldl_evictOne {s : State} (h : Backed s)
    (victims : List (IndexEntry × ValueMessage)) : Backed (victims.foldl evictOne s) :=
  List.foldlRecOn _ _ (motive := Backed) h fun s hs v _ => hs.update ((hs s.policy).evict v.1)

/-- What holds between two entries of a pass that started in `s`. -/
structure Names (s : State) (p : Pass) : Prop where
  backed : Backed p.state
  policy : p.state.policy = s.policy
  backref : ∀ key e, (p.state.index s.policy).backref key = some e →
    (s.index s.policy).backref key = some e
  rows : ∀ key, p.state.rows.lookup key = none →
    s.rows.lookup key = none ∨ (p.state.index s.policy).backref key = none
  orphans : ∀ e ∈ p.orphans, (p.state.index s.policy).backref e.key ≠ some e

variable {s : State} {p : Pass}

lemma Names.written (h : Names s p) (uncredited : List String) :
    Names s ⟨p.written uncredited, [], [], p.committedBytes + p.pendingBytes, p.commits + 1⟩ := by
  have hpolicy := h.policy
  have hdiscard : Backed (p.state.modifyIndex (·.discard p.orphans.toFinset)) := by
    refine h.backed.modifyIndex ((h.backed p.state.policy).discard fun key e he hmem => ?_)
    obtain ⟨rfl, -⟩ := h.backed p.state.policy key e he
    exact h.orphans e (List.mem_toFinset.mp hmem) (hpolicy ▸ he)
  have herases := p.erases_written uncredited
  -- The back-references of the victims are gone with their rows, others are as before.
  have hrefs : ∀ key, ((p.written uncredited).index s.policy).backref key =
      if key ∈ p.victims.map (·.1.key) then none
      else (p.state.index s.policy).backref key := by
    intro key
    rw [← hpolicy, Pass.written, foldl_credit]
    refine (backref_foldl_evictOne (p.state.modifyIndex (·.discard p.orphans.toFinset)) p.victims
      key).trans ?_
    simp [BackrefIndex.discard]
  exact {
    backed := by
      rw [Pass.written, foldl_credit]
      exact (backed_foldl_evictOne hdiscard p.victims).of_index_eq rfl
    policy := herases.policy.trans hpolicy
    backref := fun key e he => by
      rw [hrefs] at he
      split at he
      · simp at he
      · exact h.backref key e he
    rows := fun key hnone => by
      rw [herases.rows, lookup_eraseAll] at hnone
      rw [hrefs]
      split
      · exact .inr rfl
      · rename_i hvictim
        rw [if_neg (by simpa [batch] using hvictim)] at hnone
        exact h.rows key hnone
    orphans := by simp }

lemma Names.visited (h : Names s p) (horphans : orphansUnnamed s = true) {e : IndexEntry}
    (he : e ∈ (s.index s.policy).ordered) {now : IndexEntry → Int64} {p' : Pass}
    (hvisited : Visited now p e p') : Names s p' := by
  cases hvisited with
  | expired => exact h
  | victim => exact { h with }
  | orphan horphan =>
    refine { h with orphans := fun e' he' => ?_ }
    rcases List.mem_append.mp he' with he' | he'
    · exact h.orphans e' he'
    obtain rfl := List.mem_singleton.mp he'
    rw [h.policy] at horphan
    rcases horphan with hnone | hne
    · intro href
      -- The row was missing from the start, or the pass removed it with the back-reference.
      rcases h.rows e'.key hnone with hmissing | hgone
      · have hentry := List.all_eq_true.mp horphans e' he
        simp [hmissing, h.backref e'.key e' href] at hentry
      · simp [hgone] at href
    · exact hne

end Pass

lemma backed_evictByIndex (h : Backed s) (horphans : orphansUnnamed s = true) (target : ℤ)
    (now : IndexEntry → Int64) (failing : List Nat) (uncredited : List String) :
    Backed (evictByIndex s target now failing uncredited) := by
  obtain ⟨p, -, ⟨hend, -⟩, hp⟩ := Pass.evictByIndex_induction
    (I := fun p rest => Pass.Names s p ∧ ∀ e ∈ rest, e ∈ (s.index s.policy).ordered)
    (fun _ _ h => ⟨{ h.1 with orphans := by simp }, h.2⟩)
    (fun _ _ h => ⟨h.1.written uncredited, h.2⟩)
    (fun _ _ e _ ⟨h, hrest⟩ hvisited => ⟨h.visited horphans (hrest e (by simp)) hvisited,
      fun e' he' => hrest e' (by simp [he'])⟩)
    ⟨⟨h, rfl, fun _ _ he => he, fun _ hnone => .inl hnone, by simp⟩, fun _ he => he⟩ target
  exact hp ▸ hend.backed

/-! ## Other steps -/

section Steps

variable {cfg : Settings} {s : State}

lemma backed_put (h : Backed s) (u : Upload) (now : Nat) (ok : Bool) :
    Backed (put cfg s u now ok) := by
  unfold put
  dsimp only
  split
  · exact Backed.indexKey (s := ((s.setRow u.key _).indexRaw cfg u.key _).creditReplaced _) h
      u.key now
  · exact h

lemma backed_deleteKey (h : Backed s) (key : String) (ok : Bool) : Backed (deleteKey s key ok) := by
  unfold deleteKey
  split
  · exact h
  · dsimp only
    split
    · exact h.update ((h s.policy).remove key)
    · exact h

lemma backed_finishWonCASPut (h : Backed s) (key : String) (row : ValueMessage)
    (prev : Option ValueMessage) (now : Nat) (bookOk creditOk : Bool) :
    Backed (finishWonCASPut cfg s key row prev now bookOk creditOk) := by
  have hbook : Backed ((s.indexRaw cfg key row).indexKey cfg key now) :=
    Backed.indexKey (s := s.indexRaw cfg key row) h key now
  unfold finishWonCASPut
  cases bookOk <;> cases creditOk
  · exact h
  · exact h
  all_goals exact hbook

lemma backed_putIfVersion (h : Backed s) (u : Upload) (expected stamp : UInt64)
    (first second : Int64) (now : Nat) (mergeOk bookOk creditOk : Bool) :
    Backed (putIfVersion cfg s u expected stamp first second now mergeOk bookOk creditOk) := by
  unfold putIfVersion
  dsimp only
  split
  · split
    · split
      · apply backed_finishWonCASPut
        exact h
      · exact h
    · exact h
  · exact h

variable {cutoff : Nat} {key : String}

/-- The captured entry is the one that the back-reference names, so both go. -/
theorem backed_dropDeadEvictionGeneration {i : Index} (h : i.Backed)
    (hcutoff : (i.backref key).all (·.time < cutoff) = true) :
    (dropDeadEvictionGeneration i key cutoff (i.backref key)).Backed := by
  unfold dropDeadEvictionGeneration
  dsimp only
  split
  · rename_i e he
    rw [he] at hcutoff
    have hboth : (i.discard (i.backref key).toFinset).remove key = i.remove key := by
      simp [BackrefIndex.discard, BackrefIndex.remove]
    rw [if_pos (by simpa using hcutoff), hboth]
    exact h.remove key
  · rename_i hnone
    refine h.discard fun _ _ _ => ?_
    simp [hnone]

lemma backed_deleteIfVersion (h : Backed s)
    (hcutoff : ((s.index s.policy).backref key).all (·.time < cutoff) = true)
    (expected stamp : UInt64) (now : Int64) (mergeOk creditOk dropOk : Bool) :
    Backed (deleteIfVersion s key expected stamp now cutoff mergeOk creditOk dropOk) := by
  have hdropped := backed_dropDeadEvictionGeneration (h s.policy) hcutoff
  unfold deleteIfVersion
  dsimp only
  split
  · split
    · split
      · split
        · cases creditOk <;> exact h.update hdropped
        · cases creditOk <;> exact h
      · exact h
    · exact h
  · exact h

lemma backed_flushBatch (h : Backed s) (ok : Bool) : Backed (flushBatch s ok) := by
  unfold flushBatch
  dsimp only
  split
  · refine Backed.update (s := { s with updates := ∅ }) h ?_
    exact List.foldlRecOn _ _ (motive := BackrefIndex.Backed) (h .lru) fun i hi u _ =>
      hi.replace u.1 u.2
  · exact h

/-- The access entries in buckets before the cutoff's are not named. -/
def oldUnnamed (s : State) (cutoff : Nat) : Bool :=
  (s.index .lru).ordered.all fun e =>
    cutoff / bucketDuration ≤ e.time / bucketDuration || (s.index .lru).backref e.key ≠ some e

lemma backed_cleanupOldBuckets (h : Backed s) (hunnamed : oldUnnamed s cutoff = true) :
    Backed (cleanupOldBuckets s cutoff) := by
  refine h.update ((h .lru).discard fun key e he hmem => ?_)
  obtain ⟨hentry, hold⟩ := Finset.mem_filter.mp hmem
  obtain ⟨rfl, -⟩ := h .lru key e he
  have hkept := List.all_eq_true.mp hunnamed e (BackrefIndex.mem_ordered.mpr hentry)
  simp [he, Nat.not_le.mpr hold] at hkept

end Steps

/-! ## Runs -/

/-- The three operations that drop entries meet none that a back-reference names. -/
def dropsUnnamed (s : State) : Event → Bool
  | .deleteIfVersion key _ _ _ cutoff _ _ _ =>
    ((s.index s.policy).backref key).all (·.time < cutoff)
  | .evictByIndex .. => orphansUnnamed s
  | .cleanupOldBuckets cutoff => oldUnnamed s cutoff
  | _ => true

lemma backed_step (cfg : Settings) {e : Event} (hrows : RowsOk s) (h : Backed s)
    (hok : dropsUnnamed s e = true) : Backed (step cfg s e) := by
  cases e with
  | put u now ok => exact backed_put h u now ok
  | deleteKey key ok => exact backed_deleteKey h key ok
  | putIfVersion u expected stamp first second now mergeOk bookOk creditOk =>
    exact backed_putIfVersion h u expected stamp first second now mergeOk bookOk creditOk
  | deleteIfVersion key expected stamp now cutoff mergeOk creditOk dropOk =>
    exact backed_deleteIfVersion h hok expected stamp now mergeOk creditOk dropOk
  | cleanupExpiredKeys now retained failing =>
    exact sweepFrom_induction (fun s e hs => hs.update ((hs s.policy).remove e.1)) (fun _ _ hs => hs) h
      _ _ _
  | evictByIndex target now failing uncredited =>
    exact backed_evictByIndex h hok target now failing uncredited
  | compactFiles seg slot ok => exact h.of_index_eq (moves_compactFiles hrows seg slot ok).index
  | recompactSegment old seg slot ok =>
    exact h.of_index_eq (moves_recompactSegment hrows old seg slot ok).index
  | get key now time collected =>
    show Backed (get cfg s key now time collected)
    unfold get
    split
    · exact h
    · split <;> exact h
  | flushBatch ok => exact backed_flushBatch h ok
  | cleanupOldBuckets cutoff => exact backed_cleanupOldBuckets h hok
  | reconcileFromMetadata now =>
    show Backed { backfill cfg s now with totalSize := _ }
    cases hcap : cfg.capped with
    | true => exact (backfill_spec hcap h now).1
    | false =>
      -- Without a cap there is no backfill.
      refine List.foldlRecOn (motive := Backed) _ _ h fun s' hs' key _ => ?_
      split
      · exact hs'.indexKey key now
      · exact hs'
  | restart policy => exact h

/-- With a disk cap, after every run in which no dropped entry is named by a back-reference, a
reconcile leaves every live row with an entry that the eviction pass would evict it through. -/
theorem covered_reconcile (cfg : Settings) (hcap : cfg.capped = true) (policy : Policy)
    (es : List Event) (h : RunOk (step cfg) (fun s e => dropsUnnamed s e = true) (init policy) es)
    (now : Nat) (clock : Int64) :
    Covered clock (reconcileFromMetadata cfg (run (step cfg) (init policy) es) now) := by
  have hinv : RowsOk (run (step cfg) (init policy) es) ∧ Backed (run (step cfg) (init policy) es) :=
    invariant_run (I := fun s => RowsOk s ∧ Backed s)
      (fun _ e hI hok => ⟨rowsOk_step cfg hI.1 e, backed_step cfg hI.1 hI.2 hok⟩)
      ⟨rowsOk_init policy, backed_init policy⟩ h
  exact hinv.2.reconciled hcap now clock

/-- A value that is not read, and a cleanup of old buckets in which its entry is old. -/
def unreadKey : List Event :=
  [.put (twoBytes "a" 0 0) 5 true, .cleanupOldBuckets (bucketDuration + 5)]

/-- Policies change between a put, a delete and an eviction pass: the pass finds an entry without a
row, and the back-reference of that entry stays. -/
def switchedPolicies : List Event :=
  [.put (twoBytes "a" 0 0) 1 true, .restart .fifo, .deleteKey "a" true,
    .restart .lru, .evictByIndex 100 (fun _ => 10) [] [], .restart .fifo,
    .put (twoBytes "a" 1 0) 2 true, .restart .lru]

/-- A reconcile leaves a live row without an entry: after a cleanup of old buckets, and after an
eviction pass between changes of the policy. -/
theorem oldBucket_uncovered :
    ¬Covered 10 (reconcileFromMetadata smallCache
        (run (step smallCache) (init .lru) unreadKey) 20) ∧
      ¬Covered 10 (reconcileFromMetadata smallCache
        (run (step smallCache) (init .lru) switchedPolicies) 20) := by
  have hrow : ∀ s : State, (s.rows.lookup "a").isSome = true →
      (s.rows.lookup "a").all (fun row => !Store.expired 10 row) = true →
      (s.index s.policy).entries = ∅ → ¬Covered 10 s := by
    intro s hsome hlive hempty hcovered
    obtain ⟨row, hrow⟩ := Option.isSome_iff_exists.mp hsome
    obtain ⟨e, he, -⟩ := hcovered "a" row hrow (by simpa [hrow] using hlive)
    simp [hempty] at he
  exact ⟨hrow _ (by decide +kernel) (by decide +kernel) (by decide +kernel),
    hrow _ (by decide +kernel) (by decide +kernel) (by decide +kernel)⟩

/-- Both policies, with reads, deletes, sweeps and evictions. -/
def policiesRun : List Event :=
  [.put (twoBytes "a" 0 0) 1 true, .put (twoBytes "b" 1 5) 2 true,
    .get "a" 3 3 true, .flushBatch true, .restart .fifo,
    .putIfVersion (twoBytes "c" 2 0) 0 2 3 3 4 true true true,
    .deleteIfVersion "c" 2 3 4 6 true true true, .cleanupExpiredKeys 7 (fun _ => true) [],
    .reconcileFromMetadata 8, .evictByIndex 1 (fun _ => 9) [] [],
    .put (twoBytes "a" 3 0) 10 true, .deleteKey "b" true, .restart .lru,
    .cleanupOldBuckets 11]

theorem covered_reconcile_policiesRun :
    RunOk (step smallCache) (fun s e => dropsUnnamed s e = true) (init .lru) policiesRun ∧
      Covered 20 (reconcileFromMetadata smallCache
        (run (step smallCache) (init .lru) policiesRun) 20) := by
  have hok : RunOk (step smallCache) (fun s e => dropsUnnamed s e = true) (init .lru)
      policiesRun := by decide +kernel
  exact ⟨hok, covered_reconcile smallCache rfl .lru policiesRun hok 20 20⟩

end OCache.Accounting
