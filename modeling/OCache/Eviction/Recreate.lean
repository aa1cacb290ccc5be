import OCache.Lib.EventSystem

/-!
# A conditional delete and a recreate

Under the LRU policy eviction finds its victims through ordered access entries, with a
back-reference from a key to its current entry. Three parties write the entries of a key without a
lock between them: a put, the access updater, which moves the entry to the time of a read that may
be long past, and a `DeleteIfVersion` that drops the entries of the value it deleted. The delete
must not drop what belongs to a put that recreates the key meanwhile. It goes by the time in the
entry: what is older than the instant before its merge is taken for the dead value's.

A flush that writes a read from before the delete over the entry of the recreate breaks this rule:
the recreated key then has an entry that looks dead. This module follows one key through a delete, a
recreate, reads and flushes.
-/

namespace OCache.Recreate

open EventSystem

/-! ## The index of the key -/

/-- The ordered access entries of one key and its back-reference. An entry's key embeds the cache
key and a time in nanoseconds, so the entries of one key are told apart by their times. -/
structure Index where
  entries : Finset Nat
  backref : Option Nat

namespace Index

variable (i : Index)

/-- A put writes an entry and points the back-reference at it. -/
def put (t : Nat) : Index where
  entries := insert t i.entries
  backref := some t

/-- `flushBatch` replaces the entry it found by one for the read. -/
def refresh (old : Option Nat) (u : Nat) : Index where
  entries := insert u (i.entries \ old.toFinset)
  backref := some u

/-- The batch of `dropDeadEvictionGeneration`. -/
def drop (dels : List Nat) (unref : Bool) : Index where
  entries := i.entries \ dels.toFinset
  backref := if unref then none else i.backref

/-- `evictByIndex` would evict the key through one of its entries. -/
def Covered : Prop := ∃ e ∈ i.entries, i.backref = none ∨ i.backref = some e

instance (i : Index) : Decidable i.Covered :=
  inferInstanceAs (Decidable (∃ e ∈ i.entries, i.backref = none ∨ i.backref = some e))

lemma covered_put (t : Nat) : (i.put t).Covered := ⟨t, by simp [put], .inr rfl⟩

lemma covered_refresh (old : Option Nat) (u : Nat) : (i.refresh old u).Covered :=
  ⟨u, by simp [refresh], .inr rfl⟩

/-- Some entry is there, and the back-reference does not dangle. -/
theorem covered_of_backed {i : Index} {e : Nat} (he : e ∈ i.entries)
    (hback : ∀ b, i.backref = some b → b ∈ i.entries) : i.Covered := by
  cases hb : i.backref with
  | none => exact ⟨e, he, .inl hb⟩
  | some b => exact ⟨b, hback b hb, .inr hb⟩

end Index

/-! ## The parties -/

/-- The row of the key: the value that is to be deleted, the delete's tombstone, the new value. -/
inductive Row
  | original
  | tombstone
  | recreated
deriving DecidableEq

/-- Where `DeleteIfVersion` stands. -/
inductive DeletePc
  | start
  /-- `evictionEntryFor` has captured the entry. -/
  | captured (deadEntry : Option Nat)
  | cutoffTaken (deadEntry : Option Nat) (cutoff : Nat)
  | merged (deadEntry : Option Nat) (cutoff : Nat)
  /-- The read-back has seen the delete's own tombstone. -/
  | won (deadEntry : Option Nat) (cutoff : Nat)
  /-- `dropDeadEvictionGeneration` has read the back-reference and filled its batch. -/
  | staged (dels : List Nat) (unref : Bool)
  | done
deriving DecidableEq

/-- Where the `PutIfVersion` that recreates the key stands. -/
inductive RecreatePc
  | start
  | merged
  | done
deriving DecidableEq

structure State where
  clock : Nat
  row : Row := .original
  index : Index
  delete : DeletePc := .start
  recreate : RecreatePc := .start
  /-- Reads that have the row and have not reached `UpdateNow`. -/
  readers : Nat := 0
  /-- The updater's channel. -/
  updates : List Nat := []
  /-- `accessTimeLRU` for the key. -/
  accessTime : Option Nat := none
  /-- The updater's batch for the key. -/
  batch : Option Nat := none
  /-- A flush between its read and its write: the update and the entry it found. -/
  flushing : Option (Nat × Option Nat) := none

inductive Event
  | tick (d : Nat)
  | capture
  | takeCutoff
  /-- `admits`: the version is the expected one. -/
  | deleteMerge (admits : Bool)
  | readBack
  | dropRead
  | dropWrite
  | recreateMerge
  | recreateIndex
  | readFetch
  /-- `queued`: the channel was not full. -/
  | readUpdate (queued : Bool)
  /-- `forgotten`: other keys have pushed this one out of `accessTimeLRU`. -/
  | timeGateUpdate (forgotten : Bool)
  | flushRead
  | flushWrite

/-- A read of the key finds a value. -/
def State.Live (s : State) : Prop := s.row ≠ .tombstone

instance (s : State) : Decidable s.Live := inferInstanceAs (Decidable (s.row ≠ .tombstone))

/-- The batch of `dropDeadEvictionGeneration`: the captured entry, and the current one with the
back-reference if it is older than the cutoff. -/
def dropDeadEvictionGeneration (i : Index) (cutoff : Nat) (deadEntry : Option Nat) : DeletePc :=
  match i.backref with
  | some cur =>
    if cur < cutoff then .staged (deadEntry.toList ++ [cur]) true
    else .staged deadEntry.toList false
  | none => .staged deadEntry.toList false

/-- `timeGateUpdate`: an update goes into the batch if the last one is old or forgotten. -/
def timeGateUpdate (delay : Nat) (s : State) (forgotten : Bool) : State :=
  match s.updates, s.flushing with
  | u :: updates, none =>
    let accessTime := if forgotten then none else s.accessTime
    let s := { s with updates := updates, accessTime := accessTime }
    match accessTime with
    | some t =>
      if delay < u - t then { s with batch := some u, accessTime := some u } else s
    | none => { s with batch := some u, accessTime := some u }
  | _, _ => s

def step (delay : Nat) (s : State) : Event → State
  | .tick d => { s with clock := s.clock + d }
  | .capture =>
    match s.delete with
    | .start => { s with delete := .captured s.index.backref }
    | _ => s
  | .takeCutoff =>
    match s.delete with
    | .captured deadEntry => { s with delete := .cutoffTaken deadEntry s.clock }
    | _ => s
  | .deleteMerge admits =>
    match s.delete with
    | .cutoffTaken deadEntry cutoff =>
      let s := { s with delete := .merged deadEntry cutoff }
      if admits ∧ s.row = .original then { s with row := .tombstone } else s
    | _ => s
  | .readBack =>
    match s.delete with
    | .merged deadEntry cutoff =>
      if s.row = .tombstone then { s with delete := .won deadEntry cutoff }
      else { s with delete := .done }
    | _ => s
  | .dropRead =>
    match s.delete with
    | .won deadEntry cutoff =>
      { s with delete := dropDeadEvictionGeneration s.index cutoff deadEntry }
    | _ => s
  | .dropWrite =>
    match s.delete with
    | .staged dels unref =>
      { s with
        index := s.index.drop dels unref
        delete := .done }
    | _ => s
  | .recreateMerge =>
    if s.row = .tombstone then { s with row := .recreated, recreate := .merged } else s
  | .recreateIndex =>
    match s.recreate with
    | .merged =>
      { s with
        index := s.index.put s.clock
        recreate := .done }
    | _ => s
  | .readFetch => if s.row = .tombstone then s else { s with readers := s.readers + 1 }
  | .readUpdate queued =>
    match s.readers with
    | 0 => s
    | readers + 1 =>
      { s with
        readers := readers
        updates := if queued then s.updates ++ [s.clock] else s.updates }
  | .timeGateUpdate forgotten => timeGateUpdate delay s forgotten
  | .flushRead =>
    match s.flushing, s.batch with
    | none, some u => { s with flushing := some (u, s.index.backref) }
    | _, _ => s
  | .flushWrite =>
    match s.flushing with
    | some (u, old) =>
      { s with
        index := s.index.refresh old u
        batch := none
        flushing := none }
    | none => s

/-- The key at the start: a value with any entries. -/
@[simp] def init (clock : Nat) (index : Index) : State := { clock := clock, index := index }

/-! ## What the delete leaves alone -/

/-- Between the delete's win and its batch, once the recreate has its entry: no update from before
the cutoff is written over an entry from after it, and no entry is written under a key that the
delete is about to remove. -/
def sparesRecreate (s : State) : Event → Bool
  | .recreateIndex =>
    match s.delete with
    | .won deadEntry _ => deadEntry != some s.clock
    | .staged dels _ => !dels.contains s.clock
    | _ => true
  | .flushWrite =>
    match s.recreate, s.delete, s.flushing with
    | .done, .won deadEntry cutoff, some (u, old) =>
      old.all (fun o => o < cutoff || cutoff ≤ u) && deadEntry != some u
    | .done, .staged dels _, some (u, _) => !dels.contains u
    | _, _, _ => true
  | _ => true

/-- The index of a recreated key, by how far the delete has come. -/
def Kept (i : Index) : DeletePc → Prop
  | .won deadEntry cutoff =>
    (∃ e ∈ i.entries, cutoff ≤ e ∧ deadEntry ≠ some e) ∧
      ∀ b, i.backref = some b → b ∈ i.entries ∧ deadEntry ≠ some b
  | .staged dels unref =>
    (∃ e ∈ i.entries, e ∉ dels) ∧
      ∀ b, i.backref = some b → b ∈ i.entries ∧ (unref = false → b ∉ dels)
  | _ => i.Covered

lemma Kept.covered {i : Index} {pc : DeletePc} (h : Kept i pc) : i.Covered := by
  unfold Kept at h
  split at h
  · obtain ⟨⟨e, he, -⟩, hback⟩ := h
    exact Index.covered_of_backed he fun b hb => (hback b hb).1
  · obtain ⟨⟨e, he, -⟩, hback⟩ := h
    exact Index.covered_of_backed he fun b hb => (hback b hb).1
  · exact h

/-- The invariant. -/
structure Inv (s : State) : Prop where
  /-- The clock does not step back. -/
  cutoff : ∀ deadEntry cutoff, s.delete = .cutoffTaken deadEntry cutoff ∨
    s.delete = .merged deadEntry cutoff ∨ s.delete = .won deadEntry cutoff → cutoff ≤ s.clock
  original : s.row = .original → s.index.Covered ∧ s.recreate = .start ∧
    (∀ deadEntry cutoff, s.delete ≠ .won deadEntry cutoff) ∧
      ∀ dels unref, s.delete ≠ .staged dels unref
  tombstone : s.row = .tombstone → s.recreate = .start
  recreated : s.row = .recreated → s.recreate ≠ .start
  kept : s.recreate = .done → Kept s.index s.delete

namespace Inv

variable {s : State} {delay : Nat}

lemma init {clock : Nat} {index : Index} (h : index.Covered) : Inv (Recreate.init clock index) where
  cutoff := by simp
  original _ := ⟨h, rfl, by simp, by simp⟩
  tombstone := by simp
  recreated := by simp
  kept := by simp

section

variable (h : Inv s)

include h

/-- Reads and the updater's batch do not matter. -/
theorem of_eq {t : State} (hclock : t.clock = s.clock) (hrow : t.row = s.row)
    (hindex : t.index = s.index) (hdelete : t.delete = s.delete)
    (hrecreate : t.recreate = s.recreate) : Inv t where
  cutoff := by rw [hdelete, hclock]; exact h.cutoff
  original := by rw [hrow, hindex, hrecreate, hdelete]; exact h.original
  tombstone := by rw [hrow, hrecreate]; exact h.tombstone
  recreated := by rw [hrow, hrecreate]; exact h.recreated
  kept := by rw [hrecreate, hindex, hdelete]; exact h.kept

/-- A step of the delete before its batch. -/
theorem setDelete {pc : DeletePc}
    (hcutoff : ∀ deadEntry cutoff, pc = .cutoffTaken deadEntry cutoff ∨
      pc = .merged deadEntry cutoff ∨ pc = .won deadEntry cutoff → cutoff ≤ s.clock)
    (horiginal : s.row = .original → (∀ deadEntry cutoff, pc ≠ .won deadEntry cutoff) ∧
      ∀ dels unref, pc ≠ .staged dels unref)
    (hkept : s.recreate = .done → Kept s.index s.delete → Kept s.index pc) :
    Inv { s with delete := pc } :=
  { h with
    cutoff := hcutoff
    original := fun hrow => ⟨(h.original hrow).1, (h.original hrow).2.1, horiginal hrow⟩
    kept := fun hdone => hkept hdone (h.kept hdone) }

lemma capture : Inv (step delay s .capture) := by
  simp only [step]
  split
  · refine h.setDelete (by simp) (by simp) fun _ hk => ?_
    exact hk.covered
  · exact h

lemma takeCutoff : Inv (step delay s .takeCutoff) := by
  simp only [step]
  split
  · refine h.setDelete ?_ (by simp) fun _ hk => hk.covered
    intro deadEntry cutoff hpc
    simp only [DeletePc.cutoffTaken.injEq, reduceCtorEq, or_false] at hpc
    exact hpc.2.symm.le
  · exact h

lemma deleteMerge {admits : Bool} : Inv (step delay s (.deleteMerge admits)) := by
  simp only [step]
  split
  · rename_i deadEntry cutoff hpc
    have hcutoff := h.cutoff deadEntry cutoff (.inl hpc)
    have hmerged : Inv { s with delete := .merged deadEntry cutoff } := by
      refine h.setDelete ?_ (by simp) fun _ hk => hk.covered
      intro deadEntry' cutoff' hpc'
      simp only [DeletePc.merged.injEq, reduceCtorEq, or_false, false_or] at hpc'
      rw [← hpc'.2]
      exact hcutoff
    split
    · rename_i hrow
      exact
        { cutoff := hmerged.cutoff
          original := by simp
          tombstone := fun _ => (h.original hrow.2).2.1
          recreated := by simp
          kept := hmerged.kept }
    · exact hmerged
  · exact h

lemma readBack : Inv (step delay s .readBack) := by
  simp only [step]
  split
  · rename_i deadEntry cutoff hpc
    split
    · rename_i hrow
      refine h.setDelete ?_ (by simp [hrow]) fun hdone _ => ?_
      · intro deadEntry' cutoff' hpc'
        simp only [DeletePc.won.injEq, reduceCtorEq, false_or] at hpc'
        rw [← hpc'.2]
        exact h.cutoff deadEntry cutoff (.inr (.inl hpc))
      · -- the delete reads its own tombstone, so nothing has recreated the key
        rw [h.tombstone hrow] at hdone
        cases hdone
    · exact h.setDelete (by simp) (by simp) fun _ hk => hk.covered
  · exact h

end

variable {cutoff : Nat} {deadEntry : Option Nat} {i : Index}

/-- Filling the batch: what it removes is the captured entry and an entry older than the cutoff. -/
theorem kept_dropDeadEvictionGeneration (h : Kept i (.won deadEntry cutoff)) :
    Kept i (dropDeadEvictionGeneration i cutoff deadEntry) := by
  obtain ⟨⟨e, he, hnew, hdead⟩, hback⟩ := h
  have hne : e ∉ deadEntry.toList := by simpa [Option.mem_toList] using hdead
  -- if the current entry is not dropped, the batch has only the captured one
  have hkeep : Kept i (.staged deadEntry.toList false) := by
    refine ⟨⟨e, he, hne⟩, fun b hb => ⟨(hback b hb).1, fun _ => ?_⟩⟩
    simpa [Option.mem_toList] using (hback b hb).2
  unfold dropDeadEvictionGeneration
  split
  · rename_i cur hcur
    split
    · rename_i hold
      refine ⟨⟨e, he, ?_⟩, fun b hb => ⟨(hback b hb).1, by simp⟩⟩
      have : e ≠ cur := by omega
      simp only [List.mem_append, List.mem_singleton, not_or]
      exact ⟨hne, this⟩
    · exact hkeep
  · exact hkeep

/-- Writing the batch. -/
theorem covered_drop {dels : List Nat} {unref : Bool} (h : Kept i (.staged dels unref)) :
    (i.drop dels unref).Covered := by
  obtain ⟨⟨e, he, hdel⟩, hback⟩ := h
  refine Index.covered_of_backed (e := e) (by simp [Index.drop, he, hdel]) fun b hb => ?_
  cases unref with
  | true => simp [Index.drop] at hb
  | false =>
    have hb' : i.backref = some b := by simpa [Index.drop] using hb
    simp [Index.drop, (hback b hb').1, (hback b hb').2 rfl]

/-- A flush leaves the entry it writes, or one that is not older than the cutoff. -/
theorem kept_refresh {old : Option Nat} {u : Nat} (h : Kept i (.won deadEntry cutoff))
    (hold : ∀ o, old = some o → o < cutoff ∨ cutoff ≤ u) (hu : deadEntry ≠ some u) :
    Kept (i.refresh old u) (.won deadEntry cutoff) := by
  obtain ⟨⟨e, he, hnew, hdead⟩, -⟩ := h
  refine ⟨?_, ?_⟩
  · by_cases hreplaced : old = some e
    · -- the flush replaces this entry, so its own is not older than the cutoff
      have hnot : ¬e < cutoff := by omega
      exact ⟨u, by simp [Index.refresh], (hold e hreplaced).resolve_left hnot, hu⟩
    · exact ⟨e, by simp [Index.refresh, he, hreplaced], hnew, hdead⟩
  · rintro b hb
    cases hb
    exact ⟨by simp [Index.refresh], hu⟩

variable (h : Inv s)

include h

lemma dropRead : Inv (step delay s .dropRead) := by
  simp only [step]
  split
  · rename_i deadEntry cutoff hpc
    have hstaged : ∃ dels unref,
        dropDeadEvictionGeneration s.index cutoff deadEntry = .staged dels unref := by
      unfold dropDeadEvictionGeneration
      split
      · split
        all_goals exact ⟨_, _, rfl⟩
      · exact ⟨_, _, rfl⟩
    obtain ⟨dels, unref, hpc'⟩ := hstaged
    refine h.setDelete (by simp [hpc']) (fun hrow => ?_) fun _ hk => ?_
    · exact absurd hpc ((h.original hrow).2.2.1 deadEntry cutoff)
    · rw [hpc] at hk
      exact kept_dropDeadEvictionGeneration hk
  · exact h

lemma dropWrite : Inv (step delay s .dropWrite) := by
  simp only [step]
  split
  · rename_i dels unref hpc
    exact
      { cutoff := by simp
        original := fun hrow => absurd hpc ((h.original hrow).2.2.2 dels unref)
        tombstone := h.tombstone
        recreated := h.recreated
        kept := fun hdone => by
          have hk := h.kept hdone
          rw [hpc] at hk
          exact covered_drop hk }
  · exact h

lemma recreateMerge : Inv (step delay s .recreateMerge) := by
  simp only [step]
  split
  · exact
      { cutoff := h.cutoff
        original := by simp
        tombstone := by simp
        recreated := by simp
        kept := by simp }
  · exact h

lemma recreateIndex (hok : sparesRecreate s .recreateIndex = true) :
    Inv (step delay s .recreateIndex) := by
  simp only [step]
  split
  · rename_i hpc
    refine
      { cutoff := h.cutoff
        original := fun hrow => ?_
        tombstone := fun hrow => ?_
        recreated := by simp
        kept := fun _ => ?_ }
    · rw [(h.original hrow).2.1] at hpc
      cases hpc
    · rw [h.tombstone hrow] at hpc
      cases hpc
    · -- the entry is not older than the cutoff, and not the captured one
      simp only [sparesRecreate] at hok
      unfold Kept
      split
      · rename_i deadEntry cutoff hd
        have hcutoff := h.cutoff deadEntry cutoff (.inr (.inr hd))
        rw [hd] at hok
        have hne : deadEntry ≠ some s.clock := by simpa using hok
        refine ⟨⟨s.clock, by simp [Index.put], hcutoff, hne⟩, ?_⟩
        rintro b hb
        cases hb
        exact ⟨by simp [Index.put], hne⟩
      · rename_i dels unref hd
        rw [hd] at hok
        have hne : s.clock ∉ dels := by simpa using hok
        refine ⟨⟨s.clock, by simp [Index.put], hne⟩, ?_⟩
        rintro b hb
        cases hb
        exact ⟨by simp [Index.put], fun _ => hne⟩
      · exact Index.covered_put _ _
  · exact h

lemma flushWrite (hok : sparesRecreate s .flushWrite = true) : Inv (step delay s .flushWrite) := by
  simp only [step]
  split
  · rename_i u old hflush
    refine
      { cutoff := h.cutoff
        original := fun hrow => ⟨Index.covered_refresh _ _ _, (h.original hrow).2⟩
        tombstone := h.tombstone
        recreated := h.recreated
        kept := fun hdone => ?_ }
    have hk := h.kept hdone
    have hdone' : s.recreate = .done := hdone
    simp only [sparesRecreate, hflush, hdone'] at hok
    cases hd : s.delete with
    | won deadEntry cutoff =>
      rw [hd] at hk hok
      simp only [Bool.and_eq_true, bne_iff_ne, ne_eq] at hok
      refine kept_refresh hk ?_ hok.2
      rintro o rfl
      simpa using hok.1
    | staged dels unref =>
      rw [hd] at hok
      have hne : u ∉ dels := by simpa using hok
      refine ⟨⟨u, by simp [Index.refresh], hne⟩, ?_⟩
      rintro b hb
      cases hb
      exact ⟨by simp [Index.refresh], fun _ => hne⟩
    | start => exact Index.covered_refresh _ _ _
    | captured deadEntry => exact Index.covered_refresh _ _ _
    | cutoffTaken deadEntry cutoff => exact Index.covered_refresh _ _ _
    | merged deadEntry cutoff | done => exact Index.covered_refresh _ _ _
  · exact h

lemma timeGateUpdate {forgotten : Bool} : Inv (Recreate.timeGateUpdate delay s forgotten) := by
  unfold Recreate.timeGateUpdate
  split
  · dsimp only
    split
    · split
      all_goals exact h.of_eq rfl rfl rfl rfl rfl
    · exact h.of_eq rfl rfl rfl rfl rfl
  · exact h

lemma step {e : Event} (hok : sparesRecreate s e = true) : Inv (Recreate.step delay s e) := by
  cases e with
  | tick d =>
    exact
      { h with
        cutoff := fun deadEntry cutoff hpc => Nat.le_add_right_of_le (h.cutoff deadEntry cutoff hpc) }
  | capture => exact h.capture
  | takeCutoff => exact h.takeCutoff
  | deleteMerge admits => exact h.deleteMerge
  | readBack => exact h.readBack
  | dropRead => exact h.dropRead
  | dropWrite => exact h.dropWrite
  | recreateMerge => exact h.recreateMerge
  | recreateIndex => exact h.recreateIndex hok
  | readFetch | readUpdate queued =>
    simp only [Recreate.step]
    split
    · exact h
    · exact h.of_eq rfl rfl rfl rfl rfl
  | timeGateUpdate forgotten => exact h.timeGateUpdate
  | flushRead =>
    simp only [Recreate.step]
    split
    · exact h.of_eq rfl rfl rfl rfl rfl
    · exact h
  | flushWrite => exact h.flushWrite hok

end Inv

/-- In every run in which no flush writes an update from before the cutoff over an entry from after
it, a live key whose put is complete can be evicted. -/
theorem covered_of_live (delay clock : Nat) (index : Index) (es : List Event)
    (hindex : index.Covered)
    (h : RunOk (step delay) (fun s e => sparesRecreate s e = true) (init clock index) es)
    (hlive : (run (step delay) (init clock index) es).Live)
    (hput : (run (step delay) (init clock index) es).recreate ≠ .merged) :
    (run (step delay) (init clock index) es).index.Covered := by
  have hinv : Inv (run (step delay) (init clock index) es) :=
    invariant_run (I := Inv) (fun _ _ hI hok => hI.step hok) (Inv.init hindex) h
  generalize run (step delay) (init clock index) es = s at hinv hlive hput
  cases hrow : s.row with
  | original => exact (hinv.original hrow).1
  | tombstone => exact absurd hrow hlive
  | recreated =>
    have hdone : s.recreate = .done := by
      cases hr : s.recreate with
      | start => exact absurd hr (hinv.recreated hrow)
      | merged => exact absurd hr hput
      | done => rfl
    exact (hinv.kept hdone).covered

/-- A key with the entry of its put. -/
def onePut : Index := ⟨{1}, some 1⟩

/-- The key is read; a delete wins; the key is recreated. -/
def recreatedRun : List Event :=
  [.readFetch, .readUpdate true, .timeGateUpdate false, .tick 5, .capture, .takeCutoff,
    .deleteMerge true, .readBack, .tick 5, .recreateMerge, .recreateIndex]

/-- The read is flushed before the delete looks at the back-reference. -/
def staleFlushRun : List Event :=
  recreatedRun ++ [.flushRead, .flushWrite, .dropRead, .dropWrite]

/-- The read is flushed after the delete has written its batch. -/
def lateFlushRun : List Event :=
  recreatedRun ++ [.dropRead, .dropWrite, .flushRead, .flushWrite]

/-- A flush of a read from before the delete strips the recreated key of its entry. -/
theorem stale_flush_uncovers :
    onePut.Covered ∧ (run (step 0) (init 3 onePut) staleFlushRun).Live ∧
      (run (step 0) (init 3 onePut) staleFlushRun).recreate = .done ∧
      (run (step 0) (init 3 onePut) staleFlushRun).delete = .done ∧
      (run (step 0) (init 3 onePut) staleFlushRun).batch = none ∧
      ¬(run (step 0) (init 3 onePut) staleFlushRun).index.Covered := by
  decide +kernel

theorem covered_of_live_lateFlushRun :
    RunOk (step 0) (fun s e => sparesRecreate s e = true) (init 3 onePut) lateFlushRun ∧
      (run (step 0) (init 3 onePut) lateFlushRun).Live ∧
      (run (step 0) (init 3 onePut) lateFlushRun).index.Covered := by
  have hok : RunOk (step 0) (fun s e => sparesRecreate s e = true) (init 3 onePut) lateFlushRun := by
    decide +kernel
  have hlive : (run (step 0) (init 3 onePut) lateFlushRun).Live := by decide +kernel
  exact ⟨hok, hlive, covered_of_live 0 3 onePut lateFlushRun (by decide) hok hlive (by decide +kernel)⟩

end OCache.Recreate
