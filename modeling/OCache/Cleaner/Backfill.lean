import OCache.Accounting.Operations
import OCache.Lib.KeyIterator

/-!
# The backfill of the eviction index

A key that was written without a disk cap, or under the other policy, has no entry in the eviction
index and could never be evicted. `reconcileFromMetadata` gives one to every such key while it scans
the metadata rows: it moves an iterator over the back-references along with the scan, both in the
order of the user keys, and stages a row without a back-reference. If that iterator breaks, it is
not known any more which rows have one, and the pass stages nothing further; `backfillPending` makes
the next tick start over.

What else the scan collects is in `Accounting.Reconcile` and `OrphanSweep`.
-/

namespace OCache.Backfill

open KeyIterator Accounting

abbrev Entry := List UInt8 × List UInt8

abbrev It := Iterator UInt8 (List UInt8)

/-! ## The pass -/

/-- Start of the back-references of the active policy. -/
def backrefPrefix : Policy → List UInt8
  | .fifo => Keys.fifoBackrefPrefix
  | .lru => Keys.accessBucketIndexPrefix

/-- The back-reference of a user key. -/
def backrefKey (policy : Policy) (userKey : List UInt8) : List UInt8 := backrefPrefix policy ++ userKey

inductive BatchOp where
  | put (key value : List UInt8)
  | delete (key : List UInt8)

/-- What a pass meets. -/
structure Environment where
  maxDiskUsage : Int64
  policy : Policy
  now : Int64
  zone : Keys.Zone
  /-- The current FIFO entry of a key, as `writeFifoIndexEntry` finds it. -/
  fifoEntry : List UInt8 → Option (List UInt8)
  /-- Whether the `n`-th batch write succeeds. -/
  writeOk : Nat → Bool
  /-- The number of rows after which the shutdown is noticed. -/
  shutdown : Option Nat

def Environment.backfill (env : Environment) : Bool := 0 < env.maxDiskUsage

/-- `advanceBackrefTo`: the iterator, whether there is a back-reference for the key, and whether
that is known. -/
def advanceBackrefTo (pre userKey : List UInt8) (it : It) : It × Bool × Bool :=
  go it.rest
where
  go : List Entry → It × Bool × Bool
  | [] => (⟨[], it.broken⟩, false, !it.broken)
  | e :: rest =>
    if pre.isPrefixOf e.1 then
      if e.1.drop pre.length < userKey then go rest
      else if e.1.drop pre.length = userKey then (⟨rest, it.broken⟩, true, true)
      else (⟨e :: rest, it.broken⟩, false, true)
    else (⟨e :: rest, it.broken⟩, false, true)

/-- `writeFifoIndexEntry`. -/
def writeFifoIndexEntry (env : Environment) (batch : List BatchOp) (key : List UInt8) : List BatchOp :=
  let fifoKey := Keys.makeFifoIndexKey key env.now
  batch ++ (env.fifoEntry key).toList.map .delete ++
    [.put fifoKey [], .put (Keys.makeFifoBackrefKey key) fifoKey]

def stageBackfillEntry (env : Environment) (batch : List BatchOp) (userKey : List UInt8) :
    List BatchOp :=
  match env.policy with
  | .fifo => writeFifoIndexEntry env batch userKey
  | .lru =>
    let accessKey := Keys.makeBucketedAccessKey env.zone userKey env.now
    batch ++ [.put accessKey [], .put (Keys.makeBucketedAccessIndexKey userKey) accessKey]

/-- The local variables of a pass. -/
structure Pass where
  backrefIt : It
  batch : List BatchOp := []
  /-- The keys for which an entry was staged. -/
  staged : List (List UInt8) := []
  writes : Nat := 0
  writeErrs : Nat := 0
  backrefBroken : Bool := false
  scanned : Nat := 0

def flush (env : Environment) (p : Pass) : Pass :=
  if p.batch = [] then p
  else
    { p with
      batch := []
      writes := p.writes + 1
      writeErrs := if env.writeOk p.writes then p.writeErrs else p.writeErrs + 1 }

/-- A row without a back-reference. -/
def stage (env : Environment) (p : Pass) (userKey : List UInt8) : Pass :=
  let p :=
    { p with
      batch := stageBackfillEntry env p.batch userKey
      staged := p.staged ++ [userKey] }
  if 1000 ≤ p.batch.length then flush env p else p

/-- The body of the loop over the metadata rows. -/
def scanRow (env : Environment) (p : Pass) (key : List UInt8) : Pass :=
  let p := { p with scanned := p.scanned + 1 }
  if env.backfill && !p.backrefBroken then
    let userKey := Keys.extractUserKey key
    match advanceBackrefTo (backrefPrefix env.policy) userKey p.backrefIt with
    | (it, _, false) => { p with backrefIt := it, backrefBroken := true }
    | (it, false, true) => stage env { p with backrefIt := it } userKey
    | (it, true, true) => { p with backrefIt := it }
  else p

/-- The loop, and whether the shutdown has ended it. -/
def scanRows (env : Environment) : List Entry → Pass → Pass × Bool
  | [], p => (p, false)
  | e :: rows, p =>
    if env.shutdown = some p.scanned then (flush env p, true)
    else scanRows env rows (scanRow env p e.1)

structure Result where
  pass : Pass
  interrupted : Bool
  /-- The scan of the metadata rows ended in an error. -/
  truncated : Bool
  backfillPending : Bool

/-- `reconcileFromMetadata`, with both iterators not positioned yet. -/
def reconcileFromMetadata (env : Environment) (it backrefIt : It) (backfillPending : Bool) : Result :=
  let it := it.seek Keys.metadataPrefix
  match scanRows env (it.scan Keys.metadataPrefix)
      { backrefIt := backrefIt.seek (backrefPrefix env.policy) } with
  | (p, true) => ⟨p, true, false, backfillPending⟩
  | (p, false) =>
    let p := flush env p
    let truncated := (it.afterScan Keys.metadataPrefix).err
    let incomplete := truncated || 0 < p.writeErrs || p.backrefBroken || p.backrefIt.err
    ⟨p, false, truncated, if env.backfill then incomplete else backfillPending⟩

/-! ## One move -/

/-- The user keys that the back-reference iterator has ahead. -/
def ahead (pre : List UInt8) (rest : List Entry) : List (List UInt8) :=
  (rest.takeWhile fun e => pre.isPrefixOf e.1).map fun e => e.1.drop pre.length

/-- The iterator breaks before the back-references are through. -/
def breaks (pre : List UInt8) (it : It) : Bool := (it.afterScan pre).err

section Move

variable {pre : List UInt8} {e : Entry} {rest : List Entry}

lemma ahead_cons_of_has (h : pre.isPrefixOf e.1 = true) :
    ahead pre (e :: rest) = e.1.drop pre.length :: ahead pre rest := by
  simp [ahead, h]

lemma ahead_cons_of_lacks (h : ¬pre.isPrefixOf e.1 = true) : ahead pre (e :: rest) = [] := by
  simp [ahead, h]

lemma breaks_cons_of_has {broken : Bool} (h : pre.isPrefixOf e.1 = true) :
    breaks pre ⟨e :: rest, broken⟩ = breaks pre ⟨rest, broken⟩ := by
  simp [breaks, Iterator.afterScan, h]

/-- What a move to a user key finds, and what it leaves ahead: everything after the key. -/
structure Moved (pre userKey : List UInt8) (it : It) (r : It × Bool × Bool) : Prop where
  ahead : ahead pre r.1.rest = (ahead pre it.rest).filter fun b => userKey < b
  breaks : breaks pre r.1 = breaks pre it
  covered : r.2.1 = true ↔ userKey ∈ Backfill.ahead pre it.rest
  known : r.2.2 = true ↔ userKey ∈ Backfill.ahead pre it.rest ∨
    (∃ b ∈ Backfill.ahead pre it.rest, userKey < b) ∨ Backfill.breaks pre it = false
  failed : r.2.2 = false → r.1.err = true

variable {it : It}

lemma moved_go (userKey : List UInt8) (hsorted : (Backfill.ahead pre rest).Pairwise (· < ·)) :
    Moved pre userKey ⟨rest, it.broken⟩ (advanceBackrefTo.go pre userKey it rest) := by
  induction rest with
  | nil =>
    constructor <;>
      simp [advanceBackrefTo.go, Backfill.ahead, Backfill.breaks, Iterator.afterScan, Iterator.err]
  | cons e rest ih =>
    by_cases hpre : pre.isPrefixOf e.1 = true
    · rw [ahead_cons_of_has hpre] at hsorted
      obtain ⟨hhead, htail⟩ := List.pairwise_cons.mp hsorted
      by_cases hlt : e.1.drop pre.length < userKey
      · -- An orphan back-reference: it is skipped.
        have hmoved := ih htail
        have hne : userKey ≠ e.1.drop pre.length := by
          rintro rfl
          exact List.lt_irrefl _ hlt
        have hnot : ¬userKey < e.1.drop pre.length := List.lt_asymm hlt
        have hgo : advanceBackrefTo.go pre userKey it (e :: rest) =
            advanceBackrefTo.go pre userKey it rest := by
          rw [advanceBackrefTo.go, if_pos hpre, if_pos hlt]
        rw [hgo]
        constructor
        · simpa [ahead_cons_of_has hpre, hnot] using hmoved.ahead
        · rw [breaks_cons_of_has hpre]
          exact hmoved.breaks
        · simpa [ahead_cons_of_has hpre, hne] using hmoved.covered
        · simpa [ahead_cons_of_has hpre, hne, hnot, breaks_cons_of_has hpre] using hmoved.known
        · exact hmoved.failed
      · by_cases heq : e.1.drop pre.length = userKey
        · subst heq
          have hgo : advanceBackrefTo.go pre (e.1.drop pre.length) it (e :: rest) =
              (⟨rest, it.broken⟩, true, true) := by
            rw [advanceBackrefTo.go, if_pos hpre, if_neg hlt, if_pos rfl]
          have hall : (Backfill.ahead pre rest).filter (fun b => e.1.drop pre.length < b) =
              Backfill.ahead pre rest :=
            List.filter_eq_self.mpr fun b hb => by simpa using hhead b hb
          rw [hgo]
          constructor <;> simp [ahead_cons_of_has hpre, breaks_cons_of_has hpre, hall, hlt]
        · -- The back-reference of a later key: it is kept for that one.
          have hgt : userKey < e.1.drop pre.length := by
            by_contra hge
            exact heq (List.le_antisymm hge hlt)
          have hgo : advanceBackrefTo.go pre userKey it (e :: rest) =
              (⟨e :: rest, it.broken⟩, false, true) := by
            rw [advanceBackrefTo.go, if_pos hpre, if_neg hlt, if_neg heq]
          have hall : ∀ b ∈ Backfill.ahead pre (e :: rest), userKey < b := by
            rw [ahead_cons_of_has hpre]
            intro b hb
            rcases List.mem_cons.mp hb with rfl | hb
            · exact hgt
            · exact List.lt_trans hgt (hhead b hb)
          rw [hgo]
          constructor
          · exact (List.filter_eq_self.mpr fun b hb => by simpa using hall b hb).symm
          · rfl
          · simpa using fun hmem => List.lt_irrefl _ (hall userKey hmem)
          · simp [ahead_cons_of_has hpre, hgt]
          · simp
    · have hgo : advanceBackrefTo.go pre userKey it (e :: rest) =
          (⟨e :: rest, it.broken⟩, false, true) := by
        rw [advanceBackrefTo.go, if_neg hpre]
      rw [hgo]
      constructor <;> simp [ahead_cons_of_lacks hpre, Backfill.breaks, Iterator.afterScan, hpre,
        Iterator.err]

lemma advanceBackrefTo_spec (userKey : List UInt8)
    (hsorted : (Backfill.ahead pre it.rest).Pairwise (· < ·)) :
    Moved pre userKey it (advanceBackrefTo pre userKey it) :=
  moved_go userKey hsorted

end Move

/-! ## The loop -/

/-- An iterator with these keys ahead tells that a key has no back-reference. -/
def wanted (keys : List (List UInt8)) (breaks : Bool) (u : List UInt8) : Bool :=
  !keys.contains u && (keys.any (fun b => decide (u < b)) || !breaks)

variable {keys : List (List UInt8)} {u v : List UInt8}

/-- The keys up to a smaller one do not matter. -/
theorem wanted_filter {breaks : Bool} (h : u < v) :
    wanted (keys.filter fun b => decide (u < b)) breaks v = wanted keys breaks v := by
  have hmem : (keys.filter fun b => decide (u < b)).contains v = keys.contains v := by
    simp [h]
  have hany : (keys.filter fun b => decide (u < b)).any (fun b => decide (v < b)) =
      keys.any fun b => decide (v < b) := by
    rw [Bool.eq_iff_iff]
    simp only [List.any_eq_true, List.mem_filter, decide_eq_true_eq]
    constructor
    · rintro ⟨b, ⟨hb, -⟩, hvb⟩
      exact ⟨b, hb, hvb⟩
    · rintro ⟨b, hb, hvb⟩
      exact ⟨b, ⟨hb, List.lt_trans h hvb⟩, hvb⟩
  rw [wanted, wanted, hmem, hany]

/-- Once it is not known whether a key has a back-reference, it is not for any later key. -/
theorem wanted_of_unknown (h : u < v) (hunknown : ∀ b ∈ keys, ¬u < b) :
    wanted keys true v = false := by
  have hany : keys.any (fun b => decide (v < b)) = false := by
    simp only [List.any_eq_false, decide_eq_true_eq]
    exact fun b hb hvb => hunknown b hb (List.lt_trans h hvb)
  simp [wanted, hany]

/-- The rows that the loop gets to. -/
def visited (env : Environment) : List Entry → Nat → List Entry
  | [], _ => []
  | e :: rows, i => if env.shutdown = some i then [] else e :: visited env rows (i + 1)

lemma mem_of_mem_visited {env : Environment} {rows : List Entry} {i : Nat} {e : Entry}
    (h : e ∈ visited env rows i) : e ∈ rows := by
  induction rows generalizing i with
  | nil => exact h
  | cons a rows ih =>
    rw [visited] at h
    split at h
    · cases h
    · rcases List.mem_cons.mp h with rfl | hmem
      · exact List.mem_cons_self
      · exact List.mem_cons_of_mem _ (ih hmem)

section Loop

variable {env : Environment} {p : Pass}

@[simp] lemma staged_flush (env : Environment) (p : Pass) : (flush env p).staged = p.staged := by
  unfold flush
  split <;> rfl

@[simp] lemma backrefIt_flush (env : Environment) (p : Pass) :
    (flush env p).backrefIt = p.backrefIt := by
  unfold flush
  split <;> rfl

@[simp] lemma backrefBroken_flush (env : Environment) (p : Pass) :
    (flush env p).backrefBroken = p.backrefBroken := by
  unfold flush
  split <;> rfl

@[simp] lemma scanned_flush (env : Environment) (p : Pass) : (flush env p).scanned = p.scanned := by
  unfold flush
  split <;> rfl

/-- A row that is staged, with or without the flush. -/
theorem stage_spec (env : Environment) (p : Pass) (u : List UInt8) :
    (stage env p u).staged = p.staged ++ [u] ∧ (stage env p u).backrefIt = p.backrefIt ∧
      (stage env p u).backrefBroken = p.backrefBroken ∧ (stage env p u).scanned = p.scanned := by
  unfold stage
  dsimp only
  split <;> simp

@[simp] lemma scanned_scanRow_eq (env : Environment) (p : Pass) (key : List UInt8) :
    (scanRow env p key).scanned = p.scanned + 1 := by
  unfold scanRow
  dsimp only
  split
  · split
    · rfl
    · simp [stage_spec]
    · rfl
  · rfl

/-- The user keys whose back-references are ahead. -/
def Pass.keysAhead (p : Pass) (env : Environment) : List (List UInt8) :=
  ahead (backrefPrefix env.policy) p.backrefIt.rest

/-- The pass would stage a key. -/
def Pass.tells (p : Pass) (env : Environment) (u : List UInt8) : Bool :=
  env.backfill && !p.backrefBroken && wanted (p.keysAhead env) (breaks (backrefPrefix env.policy) p.backrefIt) u

/-- What a row does: it is staged if the iterator tells that it has no back-reference, and what the
iterator tells about later rows stays the same. -/
structure Scanned (env : Environment) (u : List UInt8) (p q : Pass) : Prop where
  staged : q.staged = p.staged ++ [u].filter (p.tells env)
  tells : ∀ v, u < v → q.tells env v = p.tells env v
  sorted : (q.keysAhead env).Pairwise (· < ·)
  broken : (p.backrefBroken = true → p.backrefIt.err = true) →
    q.backrefBroken = true → q.backrefIt.err = true

section

variable (hsorted : (p.keysAhead env).Pairwise (· < ·))

include hsorted

/-- A pass that has found the iterator broken, or has no cap to care for, goes on without it. -/
theorem scanned_of_stopped (h : (env.backfill && !p.backrefBroken) = false) (key u : List UInt8) :
    Scanned env u p (scanRow env p key) := by
  have hrow : scanRow env p key = { p with scanned := p.scanned + 1 } := by simp [scanRow, h]
  rw [hrow]
  constructor
  · simp [Pass.tells, h]
  · exact fun v _ => rfl
  · exact hsorted
  · exact id

/-- A row, as long as the iterator is good. -/
theorem scanned_of_good (h : (env.backfill && !p.backrefBroken) = true) (key : List UInt8) :
    Scanned env (Keys.extractUserKey key) p (scanRow env p key) := by
  generalize hu : Keys.extractUserKey key = u
  have hmoved := advanceBackrefTo_spec u hsorted
  have hgood : p.backrefBroken = false := by simp_all
  simp only [scanRow, h, if_true, hu]
  generalize advanceBackrefTo (backrefPrefix env.policy) u p.backrefIt = r at hmoved
  obtain ⟨it, covered, ok⟩ := r
  have hcovered := hmoved.covered
  have hknown := hmoved.known
  -- What is ahead afterwards tells the same about later keys.
  have htells : ∀ q : Pass, q.backrefIt = it → q.backrefBroken = false →
      ∀ v, u < v → q.tells env v = p.tells env v := by
    intro q hit hq v hv
    rw [Pass.tells, Pass.tells, hq, hgood, Pass.keysAhead, hit, hmoved.ahead, hmoved.breaks,
      wanted_filter hv]
    rfl
  have hsorted' : (ahead (backrefPrefix env.policy) it.rest).Pairwise (· < ·) := by
    rw [hmoved.ahead]
    exact hsorted.filter _
  cases ok with
  | false =>
    simp only [Bool.false_eq_true, false_iff, not_or, not_exists, not_and, Bool.not_eq_false] at hknown
    obtain ⟨-, hlater, hbreaks⟩ := hknown
    have hany : (p.keysAhead env).any (fun b => decide (u < b)) = false := by
      simpa [Pass.keysAhead] using hlater
    constructor
    · simp [Pass.tells, wanted, hany, hbreaks]
    · intro v hv
      simp [Pass.tells, hbreaks, wanted_of_unknown hv hlater, Pass.keysAhead]
    · exact hsorted'
    · exact fun _ _ => hmoved.failed rfl
  | true =>
    cases covered with
    | true =>
      have hmem : u ∈ p.keysAhead env := hcovered.mp rfl
      constructor
      · simp [Pass.tells, wanted, hmem]
      · exact htells _ rfl hgood
      · exact hsorted'
      · exact fun _ hbroken => absurd hbroken (by simp [hgood])
    | false =>
      have hmem : u ∉ p.keysAhead env := fun hmem => nomatch hcovered.mpr hmem
      have hwanted : p.tells env u = true := by
        rw [Pass.tells, h, Bool.true_and]
        have htold : (∃ b ∈ p.keysAhead env, u < b) ∨
            breaks (backrefPrefix env.policy) p.backrefIt = false := (hknown.mp rfl).resolve_left hmem
        simpa [wanted, hmem] using htold
      obtain ⟨hstaged, hit, hbroken, -⟩ :=
        stage_spec env { p with scanned := p.scanned + 1, backrefIt := it } u
      constructor
      · simp [hstaged, hwanted]
      · exact htells _ hit (hbroken.trans hgood)
      · rw [Pass.keysAhead, hit]
        exact hsorted'
      · exact fun _ hbroken' => absurd (hbroken.symm.trans hbroken') (by simp [hgood])

lemma scanned_scanRow (key : List UInt8) :
    Scanned env (Keys.extractUserKey key) p (scanRow env p key) := by
  cases h : env.backfill && !p.backrefBroken with
  | false => exact scanned_of_stopped hsorted h key _
  | true => exact scanned_of_good hsorted h key

end

variable (env) in
/-- What a pass stages: of the rows it gets to, those that the iterator tells to have no
back-reference. -/
theorem staged_scanRows (hsorted : (p.keysAhead env).Pairwise (· < ·)) {rows : List Entry}
    (hrows : rows.Pairwise fun a b => Keys.extractUserKey a.1 < Keys.extractUserKey b.1) :
    (scanRows env rows p).1.staged = p.staged ++
      ((visited env rows p.scanned).map fun e => Keys.extractUserKey e.1).filter (p.tells env) := by
  induction rows generalizing p with
  | nil => simp [scanRows, visited]
  | cons e rows ih =>
    obtain ⟨hhead, htail⟩ := List.pairwise_cons.mp hrows
    by_cases hstop : env.shutdown = some p.scanned
    · simp [scanRows, visited, hstop]
    · have hrow := scanned_scanRow hsorted e.1
      have hlater : ∀ u ∈ (visited env rows (p.scanned + 1)).map fun e => Keys.extractUserKey e.1,
          (scanRow env p e.1).tells env u = p.tells env u := by
        intro u hu
        obtain ⟨e', he', rfl⟩ := List.mem_map.mp hu
        exact hrow.tells _ (hhead e' (mem_of_mem_visited he'))
      rw [scanRows, if_neg hstop, visited, if_neg hstop, ih hrow.sorted htail, hrow.staged,
        scanned_scanRow_eq, List.filter_congr hlater, List.map_cons, List.append_assoc,
        ← List.filter_append, List.singleton_append]

variable (env) in
/-- A pass that has found the iterator broken leaves it at its error. -/
theorem broken_scanRows (hsorted : (p.keysAhead env).Pairwise (· < ·))
    (hbroken : p.backrefBroken = true → p.backrefIt.err = true) (rows : List Entry) :
    (scanRows env rows p).1.backrefBroken = true → (scanRows env rows p).1.backrefIt.err = true := by
  induction rows generalizing p with
  | nil => exact hbroken
  | cons e rows ih =>
    rw [scanRows]
    split
    · simpa using hbroken
    · have hrow := scanned_scanRow hsorted e.1
      exact ih hrow.sorted (hrow.broken hbroken)

end Loop

/-! ## In terms of the snapshot -/

section Snapshot

variable (db : Snapshot UInt8 (List UInt8))

/-- The back-reference iterator gets past the place of a user key: it does not break, or yields an
entry from behind that place first. -/
def Precedes (policy : Policy) (stop : Option Nat) (u : List UInt8) : Prop :=
  ∀ n ∈ stop, ∃ e ∈ db.entries.take n, backrefKey policy u < e.1

instance (policy : Policy) (stop : Option Nat) (u : List UInt8) : Decidable (Precedes db policy stop u) :=
  inferInstanceAs (Decidable (∀ n ∈ stop, ∃ e ∈ db.entries.take n, backrefKey policy u < e.1))

/-- The metadata rows that an iterator yields. -/
def metadataRows (stop : Option Nat) : List Entry :=
  (db.iterator stop).rest.filter fun e => Keys.isMetadataKey e.1

/-- The snapshot has a back-reference for a user key. -/
def HasBackref (policy : Policy) (u : List UInt8) : Prop :=
  backrefKey policy u ∈ db.entries.map (·.1)

instance (policy : Policy) (u : List UInt8) : Decidable (HasBackref db policy u) :=
  inferInstanceAs (Decidable (backrefKey policy u ∈ db.entries.map (·.1)))

variable {db}

/-- The iterator over the back-references, positioned at their start. -/
def backrefIterator (db : Snapshot UInt8 (List UInt8)) (policy : Policy) (stop : Option Nat) : It :=
  (db.iterator stop).seek (backrefPrefix policy)

variable {policy : Policy} {stop : Option Nat} {u : List UInt8}

lemma scan_backrefIterator :
    (backrefIterator db policy stop).scan (backrefPrefix policy) =
      (db.iterator stop).rest.filter fun e => (backrefPrefix policy).isPrefixOf e.1 :=
  scan_seek_self (db.sorted_iterator stop) _

lemma mem_ahead_backrefIterator :
    u ∈ ahead (backrefPrefix policy) (backrefIterator db policy stop).rest ↔
      ∃ e ∈ (db.iterator stop).rest, e.1 = backrefKey policy u := by
  have hscan : ahead (backrefPrefix policy) (backrefIterator db policy stop).rest =
      ((backrefIterator db policy stop).scan (backrefPrefix policy)).map fun e =>
        e.1.drop (backrefPrefix policy).length := rfl
  rw [hscan, scan_backrefIterator]
  simp only [List.mem_map, List.mem_filter]
  constructor
  · rintro ⟨e, ⟨hmem, hpre⟩, rfl⟩
    obtain ⟨t, ht⟩ := List.isPrefixOf_iff_prefix.mp hpre
    exact ⟨e, hmem, by rw [backrefKey, ← ht, List.drop_left]⟩
  · rintro ⟨e, hmem, he⟩
    refine ⟨e, ⟨hmem, ?_⟩, by rw [he, backrefKey, List.drop_left]⟩
    rw [he, List.isPrefixOf_iff_prefix]
    exact List.prefix_append _ _

lemma sorted_ahead_backrefIterator :
    (ahead (backrefPrefix policy) (backrefIterator db policy stop).rest).Pairwise (· < ·) := by
  have hscan : ahead (backrefPrefix policy) (backrefIterator db policy stop).rest =
      ((backrefIterator db policy stop).scan (backrefPrefix policy)).map fun e =>
        e.1.drop (backrefPrefix policy).length := rfl
  rw [hscan, scan_backrefIterator, List.pairwise_map]
  refine ((db.sorted_iterator stop).filter _).imp_of_mem fun {a b} ha hb hab => ?_
  obtain ⟨x, hx⟩ := List.isPrefixOf_iff_prefix.mp (List.mem_filter.mp ha).2
  obtain ⟨y, hy⟩ := List.isPrefixOf_iff_prefix.mp (List.mem_filter.mp hb).2
  rw [← hx, ← hy] at hab ⊢
  rw [List.drop_left, List.drop_left]
  exact ByteOrder.append_lt_append_left_iff.mp hab

/-- The iterator does not break before the back-references are through exactly if it is not broken,
or yields an entry from behind them. -/
theorem breaks_backrefIterator_eq_false :
    breaks (backrefPrefix policy) (backrefIterator db policy stop) = false ↔
      (db.iterator stop).broken = false ∨ ∃ e ∈ (db.iterator stop).rest,
        ¬e.1 < backrefPrefix policy ∧ ¬(backrefPrefix policy).isPrefixOf e.1 = true := by
  have hrest : (backrefIterator db policy stop).rest = (db.iterator stop).rest.filter fun e =>
      !decide (e.1 < backrefPrefix policy) := rest_seek (db.sorted_iterator stop) _
  have hempty : ((backrefIterator db policy stop).afterScan (backrefPrefix policy)).rest.isEmpty =
      false ↔ ∃ e ∈ (db.iterator stop).rest,
        ¬e.1 < backrefPrefix policy ∧ ¬(backrefPrefix policy).isPrefixOf e.1 = true := by
    rw [Iterator.afterScan, List.isEmpty_eq_false_iff, ne_eq, List.dropWhile_eq_nil_iff, hrest]
    simp [-List.isPrefixOf_iff_prefix]
  rw [breaks, Iterator.err, Bool.and_eq_false_iff, hempty, or_comm]
  rfl

lemma precedes_iff : Precedes db policy stop u ↔
    (∃ b ∈ ahead (backrefPrefix policy) (backrefIterator db policy stop).rest, u < b) ∨
      breaks (backrefPrefix policy) (backrefIterator db policy stop) = false := by
  rw [breaks_backrefIterator_eq_false]
  constructor
  · intro h
    cases stop with
    | none => exact .inr (.inl rfl)
    | some n =>
      obtain ⟨e, hmem, hlt⟩ := h n rfl
      by_cases hpre : (backrefPrefix policy).isPrefixOf e.1 = true
      · obtain ⟨b, hb⟩ := List.isPrefixOf_iff_prefix.mp hpre
        rw [← hb] at hlt
        exact .inl ⟨b, mem_ahead_backrefIterator.mpr ⟨e, hmem, hb.symm⟩,
          ByteOrder.append_lt_append_left_iff.mp hlt⟩
      · have hbehind : ¬e.1 < backrefPrefix policy := fun he =>
          not_lt_of_isPrefixOf (Keys.isPrefixOf_append _ u) (List.lt_trans hlt he)
        exact .inr (.inr ⟨e, hmem, hbehind, hpre⟩)
  · rintro (⟨b, hb, hlt⟩ | hbroken | ⟨e, hmem, hbehind, hpre⟩)
    · obtain ⟨e, hmem, he⟩ := mem_ahead_backrefIterator.mp hb
      rintro n rfl
      exact ⟨e, hmem, by rw [he]; exact ByteOrder.append_lt_append_left _ hlt⟩
    · rintro n rfl
      cases hbroken
    · rintro n rfl
      refine ⟨e, hmem, ?_⟩
      -- An entry up to this place would have the prefix.
      by_contra hle
      exact hpre (isPrefixOf_of_between hbehind hle (Keys.isPrefixOf_append _ u))

/-- What the iterator tells is what the snapshot has, for the keys whose place it gets past. -/
theorem wanted_backrefIterator :
    wanted (ahead (backrefPrefix policy) (backrefIterator db policy stop).rest)
        (breaks (backrefPrefix policy) (backrefIterator db policy stop)) u =
      decide (¬HasBackref db policy u ∧ Precedes db policy stop u) := by
  have hback : Precedes db policy stop u →
      (u ∈ ahead (backrefPrefix policy) (backrefIterator db policy stop).rest ↔
        HasBackref db policy u) := by
    intro h
    rw [mem_ahead_backrefIterator, HasBackref, List.mem_map]
    cases stop with
    | none => rfl
    | some n =>
      obtain ⟨e, hmem, hlt⟩ := h n rfl
      refine ⟨fun ⟨e', hmem', he'⟩ => ⟨e', List.mem_of_mem_take hmem', he'⟩, ?_⟩
      rintro ⟨e', hmem', he'⟩
      refine ⟨e', ?_, he'⟩
      -- What the iterator does not yield is behind all that it yields.
      rw [← List.take_append_drop n db.entries] at hmem'
      rcases List.mem_append.mp hmem' with htake | hdrop
      · exact htake
      · have hsorted := db.sorted
        rw [← List.take_append_drop n db.entries] at hsorted
        have hbehind := (List.pairwise_append.mp hsorted).2.2 e hmem e' hdrop
        rw [he'] at hbehind
        exact absurd hbehind (List.lt_asymm hlt)
  rw [Bool.eq_iff_iff, decide_eq_true_eq]
  have htold : wanted (ahead (backrefPrefix policy) (backrefIterator db policy stop).rest)
      (breaks (backrefPrefix policy) (backrefIterator db policy stop)) u = true ↔
        u ∉ ahead (backrefPrefix policy) (backrefIterator db policy stop).rest ∧
          Precedes db policy stop u := by
    rw [precedes_iff]
    simp [wanted]
  rw [htold]
  exact and_congr_left fun h => not_congr (hback h)

variable (db) in
/-- The metadata rows come in the order of their user keys. -/
theorem sorted_metadataRows (stop : Option Nat) : (metadataRows db stop).Pairwise fun a b =>
    Keys.extractUserKey a.1 < Keys.extractUserKey b.1 := by
  refine ((db.sorted_iterator stop).filter _).imp_of_mem fun {a b} ha hb hab => ?_
  obtain ⟨x, hx⟩ := Keys.isMetadataKey_iff.mp (List.mem_filter.mp ha).2
  obtain ⟨y, hy⟩ := Keys.isMetadataKey_iff.mp (List.mem_filter.mp hb).2
  rw [hx, hy] at hab ⊢
  rw [Keys.extractUserKey_makeMetadataKey, Keys.extractUserKey_makeMetadataKey]
  exact ByteOrder.append_lt_append_left_iff.mp hab

end Snapshot

/-! ## A whole pass -/

section Pass

variable {env : Environment} {db : Snapshot UInt8 (List UInt8)} {metaStop backrefStop : Option Nat}
  {pending : Bool}

/-- A pass over a snapshot, with iterators that may break. -/
def reconcile (env : Environment) (db : Snapshot UInt8 (List UInt8)) (metaStop backrefStop : Option Nat)
    (pending : Bool) : Result :=
  reconcileFromMetadata env (db.iterator metaStop) (db.iterator backrefStop) pending

lemma mem_of_mem_iterator {stop : Option Nat} {e : Entry} (h : e ∈ (db.iterator stop).rest) :
    e ∈ db.entries := by
  cases stop with
  | none => exact h
  | some n => exact List.mem_of_mem_take h

lemma scan_metadataRows :
    ((db.iterator metaStop).seek Keys.metadataPrefix).scan Keys.metadataPrefix =
      metadataRows db metaStop :=
  scan_seek_self (db.sorted_iterator metaStop) _

/-- A pass stages, of the rows it gets to, those that have no back-reference in the snapshot and
whose place the iterator gets past; without a cap it stages none. -/
theorem staged_reconcile :
    (reconcile env db metaStop backrefStop pending).pass.staged =
      ((visited env (metadataRows db metaStop) 0).map fun e => Keys.extractUserKey e.1).filter fun u =>
        env.backfill && decide (¬HasBackref db env.policy u ∧ Precedes db env.policy backrefStop u) := by
  have hstaged := staged_scanRows env
    (p := { backrefIt := backrefIterator db env.policy backrefStop }) sorted_ahead_backrefIterator
    (sorted_metadataRows db metaStop)
  have hsame : (reconcile env db metaStop backrefStop pending).pass.staged =
      (scanRows env (metadataRows db metaStop)
        { backrefIt := backrefIterator db env.policy backrefStop }).1.staged := by
    simp only [reconcile, reconcileFromMetadata, scan_metadataRows, backrefIterator]
    split <;> simp_all
  rw [hsame, hstaged, List.nil_append]
  refine List.filter_congr fun u _ => ?_
  simp only [Pass.tells, Pass.keysAhead, Bool.not_false, Bool.and_true, wanted_backrefIterator]

lemma visited_of_not_shutdown (h : env.shutdown = none) (rows : List Entry) (i : Nat) :
    visited env rows i = rows := by
  induction rows generalizing i with
  | nil => rfl
  | cons e rows ih => simp [visited, h, ih]

lemma scanRows_of_not_shutdown (h : env.shutdown = none) (rows : List Entry) (p : Pass) :
    (scanRows env rows p).2 = false := by
  induction rows generalizing p with
  | nil => rfl
  | cons e rows ih => simp [scanRows, h, ih]

/-- A pass that comes to its end is to be repeated exactly if an iterator has failed or a batch
write has. -/
theorem backfillPending_reconcile (hbackfill : env.backfill = true) (hopen : env.shutdown = none) :
    (reconcile env db metaStop backrefStop pending).backfillPending = true ↔
      (reconcile env db metaStop backrefStop pending).truncated = true ∨
        (reconcile env db metaStop backrefStop pending).pass.backrefIt.err = true ∨
        0 < (reconcile env db metaStop backrefStop pending).pass.writeErrs := by
  have hend := scanRows_of_not_shutdown hopen (metadataRows db metaStop)
    { backrefIt := backrefIterator db env.policy backrefStop }
  have hbroken := broken_scanRows env
    (p := { backrefIt := backrefIterator db env.policy backrefStop }) sorted_ahead_backrefIterator
    (by simp) (metadataRows db metaStop)
  simp only [backrefIterator] at hend hbroken
  simp only [reconcile, reconcileFromMetadata, scan_metadataRows]
  split
  · rename_i p hscan
    rw [hscan] at hend
    cases hend
  · rename_i p hscan
    rw [hscan] at hbroken
    simp only [hbackfill, if_true, backrefIt_flush, backrefBroken_flush, Bool.or_eq_true,
      decide_eq_true_eq]
    tauto

end Pass

/-- Rows `a`, `b`, `d`, and back-references of `a` and of `c`, which has no row. -/
def orphanSnapshot : Snapshot UInt8 (List UInt8) where
  entries := [(backrefKey .lru [97], []), (backrefKey .lru [99], []), (Keys.makeMetadataKey [97], []),
    (Keys.makeMetadataKey [98], []), (Keys.makeMetadataKey [100], [])]
  sorted := by decide +kernel

/-- An environment in which nothing fails. -/
def calm : Environment where
  maxDiskUsage := 1000
  policy := .lru
  now := 1700000000000000000
  zone := .fixedOffset 0 (by decide)
  fifoEntry _ := none
  writeOk _ := true
  shutdown := none

/-- The shutdown comes before the last row, and the write fails. -/
def interruptedPass : Result :=
  reconcile { calm with writeOk := fun _ => false, shutdown := some 2 } orphanSnapshot none none false

end OCache.Backfill
