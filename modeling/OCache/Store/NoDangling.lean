import OCache.Store.Segments

/-!
# No row dangles

A row dangles if the raw file it references is in the deletion queue or removed, or if the segment
it points into is no longer tracked. Raw files are always safe. A segment is safe as long as no pass
of the recompactor starts on it while another execution has merges for it that are not committed
yet: the compactor commits before it closes a segment, but the recompactor closes a full segment
with its batch still open, and such a segment looks dead to another pass.
-/

namespace OCache.Store

open EventSystem

/-- Every row references files and segments that are there. -/
def NoDangling (s : State) : Prop :=
  ∀ key row, s.rows key = some row →
    (∀ path, rawPath row = some path → path ∉ s.queued ∧ path ∉ s.unlinked) ∧
      ∀ path offset, segmentPlace row = some (path, offset) →
        ∃ seg, s.segments path = some seg ∧ seg.status ≠ .removed

/-- Names are not reused and passes of the recompactor start on published segments. -/
def published (s : State) (e : Event) : Bool := freshNames s e && publishedFirst s e

/-- The two invariants together. -/
structure Sound (s : State) : Prop where
  ownership : Ownership s
  tracked : Tracked s

lemma sound_init : Sound State.init := ⟨ownership_init, tracked_init⟩

lemma sound_step (cfg : Config) {s : State} {e : Event} (h : Sound s)
    (hok : published s e = true) : Sound (step cfg s e) := by
  simp only [published, Bool.and_eq_true] at hok
  exact ⟨ownership_step cfg h.ownership hok.1, tracked_step cfg h.tracked h.ownership hok.2⟩

lemma Sound.noDangling {s : State} (h : Sound s) : NoDangling s := by
  intro key row hrow
  constructor
  · intro path hpath
    constructor
    · exact fun hqueued => (h.ownership.queue path (.inl hqueued)).none key row hrow hpath
    · exact fun hunlinked => (h.ownership.queue path (.inr hunlinked)).none key row hrow hpath
  · intro path offset hplace
    obtain ⟨seg, _, hseg, hstatus, -⟩ := h.tracked.rows key row path offset hrow hplace
    exact ⟨seg, hseg, hstatus⟩

/-- In every run in which names are not reused and passes start on published segments, no row
dangles. -/
theorem no_dangling (cfg : Config) (es : List Event)
    (h : RunOk (step cfg) (fun s e => published s e = true) State.init es) :
    NoDangling (run (step cfg) State.init es) := by
  have hsound : Sound (run (step cfg) State.init es) :=
    invariant_run (I := Sound) (fun _ _ hI hok => sound_step cfg hI hok) sound_init h
  exact hsound.noDangling

/-- The raw file of a row is as long as the row says, and no other row, nor a row to be written,
references it. An index row names such a file. Nothing references a queued or removed one. -/
structure RawFilesOwned (s : State) : Prop where
  rows : ∀ key row path, s.rows key = some row → rawPath row = some path →
    (s.rawFiles path).map (Int64.ofNat ·.length) = some row.valueLength ∧ Settled s path ∧
      OnlyUnder s path key
  index : ∀ key path, (key, path) ∈ s.compactionIndex → Indexed s key path
  gone : ∀ path, path ∈ s.queued ∨ path ∈ s.unlinked → Unreferenced s path

/-- For raw files it is enough that names are not reused: passes may overlap. -/
theorem rawFiles_owned (cfg : Config) (es : List Event)
    (h : RunOk (step cfg) (fun s e => freshNames s e = true) State.init es) :
    RawFilesOwned (run (step cfg) State.init es) := by
  have hI : Ownership (run (step cfg) State.init es) :=
    invariant_run (I := Ownership) (fun _ _ hI hok => ownership_step cfg hI hok) ownership_init h
  refine ⟨fun key row path hrow hpath => ?_, hI.index, hI.queue⟩
  have hknown := hI.rows key row hrow
  exact ⟨hknown.stored.backed path hpath, hknown.settled path hpath,
    fun k r hr hr' => (hknown.only path hpath k r hr hr').1⟩

/-- Two medium values, compacted into one segment. -/
def twoInSegment : List Event :=
  [.putWrite 0 "a" [1, 2] 0 "r0" 0, .putRead 0, .putCommit 0 true,
    .putWrite 1 "b" [3, 4] 0 "r1" 0, .putRead 1, .putCommit 1 true,
    .putWrite 2 "c" [5, 6] 0 "r2" 0, .putRead 2, .putCommit 2 true,
    .compactStart "s0", .compactNext 0, .compactCopy 0 0, .compactNext 0, .compactCopy 0 10,
    .compactNext 0, .compactCommit 0 true, .migrationQueue 0, .migrationQueue 0,
    .compactRoll 0 "s1", .compactCopy 0 0, .compactFinish 0 true]

/-- A pass moves both values on. Its first target is full after one of them and is closed; a second
pass finds no row there and removes it; then the first pass commits. -/
def rolledRun : List Event :=
  twoInSegment ++
    ([.recompactStart "s0" "s2", .recompactNext 1, .recompactCopy 1 0, .recompactNext 1,
      .recompactRoll 1 "s3", .recompactStart "s2" "s4", .recompactNext 2, .recompactCommit 2 true,
      .recompactRemove 2, .recompactCopy 1 0, .recompactCommit 1 true] : List Event)

/-- The same pass on its own, with its target full after the first value. -/
def aloneRun : List Event :=
  twoInSegment ++
    ([.recompactStart "s0" "s2", .recompactNext 1, .recompactCopy 1 0, .recompactNext 1,
      .recompactRoll 1 "s3", .recompactCopy 1 0, .recompactCommit 1 true, .recompactRemove 1,
      .migrationQueue 1] : List Event)

/-- Overlapping passes of the recompactor leave a row in a segment that is gone. -/
theorem rolled_dangles :
    RunOk (step ⟨1, 4⟩) (fun s e => freshNames s e = true) State.init rolledRun ∧
      ¬NoDangling (run (step ⟨1, 4⟩) State.init rolledRun) := by
  refine ⟨by decide +kernel, fun h => ?_⟩
  have hrow : ((run (step ⟨1, 4⟩) State.init rolledRun).rows "a").bind segmentPlace =
      some ("s2", 0) := by decide +kernel
  have hgone : ((run (step ⟨1, 4⟩) State.init rolledRun).segments "s2").map (·.status) =
      some .removed := by decide +kernel
  obtain ⟨row, hread, hplace⟩ := Option.bind_eq_some_iff.mp hrow
  obtain ⟨seg, hseg, hstatus⟩ := (h "a" row hread).2 "s2" 0 hplace
  rw [hseg] at hgone
  exact hstatus (by simpa using hgone)

theorem rawFiles_owned_rolledRun : RawFilesOwned (run (step ⟨1, 4⟩) State.init rolledRun) :=
  rawFiles_owned ⟨1, 4⟩ rolledRun (by decide +kernel)

theorem no_dangling_aloneRun :
    RunOk (step ⟨1, 4⟩) (fun s e => published s e = true) State.init aloneRun ∧
      NoDangling (run (step ⟨1, 4⟩) State.init aloneRun) := by
  have hok : RunOk (step ⟨1, 4⟩) (fun s e => published s e = true) State.init aloneRun := by
    decide +kernel
  exact ⟨hok, no_dangling ⟨1, 4⟩ aloneRun hok⟩

end OCache.Store
