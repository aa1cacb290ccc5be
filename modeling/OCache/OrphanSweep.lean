import Mathlib.Logic.Function.Basic
import OCache.Lib.EventSystem

/-!
# The orphan sweep

A put of a large value writes a raw file and commits the row that references it afterwards. The
orphan sweep looks for files that no row references: it takes a snapshot of the rows, lists the
directory and queues a file for deletion if no row of the snapshot references it, it was not written
recently, its path is not registered as in flight and its lock is free. Any number of puts run
against the sweep, and a client may stall at any point of its upload.

A raw file is named by the put that writes it, since its path is a fresh UUID. Times are in seconds.
-/

namespace OCache.OrphanSweep

open EventSystem

def orphanGraceWindow : Nat := 600

/-! ## Puts and the sweep -/

/-- Where the write of a raw file stands. -/
inductive Write where
  | idle
  /-- `FileManager.Write` holds the file lock and copies the stream. -/
  | writing (key : String)
  /-- The file is closed and unlocked. -/
  | closed (key : String)
  /-- The path is in `inflightRaw`. -/
  | registered (key : String)
  /-- The row is committed, or the write failed and queued its own file; still registered. -/
  | committed
  | done
deriving DecidableEq

namespace Write

def locked : Write → Bool
  | writing _ => true
  | _ => false

def inflight : Write → Bool
  | registered _ | committed => true
  | _ => false

/-- Between `FileManager.Write` and the registration neither the lock nor the registry is held. -/
def unguarded : Write → Bool
  | closed _ => true
  | _ => false

end Write

/-- The last guard that a candidate has passed. -/
inductive Guard where
  | recency
  | registry
  | lock
deriving DecidableEq

/-- The sweep after its scan. -/
structure Pass where
  scanStart : Nat
  /-- The files that rows of the snapshot reference. -/
  referenced : List Nat
  /-- The directory entries to come; `none` before the listing. -/
  entries : Option (List Nat)
  /-- The unreferenced file under examination. -/
  candidate : Option (Nat × Guard)

inductive Sweep where
  | idle
  | started (scanStart : Nat)
  | sweeping (pass : Pass)

structure State where
  clock : Nat
  writes : Nat → Write
  /-- The directory of raw files. -/
  files : List Nat
  modTime : Nat → Nat
  /-- The rows that reference a raw file. -/
  rows : List (String × Nat)
  sweep : Sweep
  /-- The files the sweep has queued for deletion. -/
  queued : List Nat

namespace State

@[simp] def init : State where
  clock := 0
  writes _ := .idle
  files := []
  modTime _ := 0
  rows := []
  sweep := .idle
  queued := []

variable (s : State) (i : Nat)

def setWrite (w : Write) : State := { s with writes := Function.update s.writes i w }

/-- Bytes reach the file. -/
def touch : State := { s with modTime := Function.update s.modTime i s.clock }

@[simp] def setPass (pass : Pass) : State := { s with sweep := .sweeping pass }

end State

inductive Event where
  | tick (seconds : Nat)
  | create (i : Nat) (key : String)
  | chunk (i : Nat)
  | close (i : Nat)
  | abort (i : Nat)
  | register (i : Nat)
  | commit (i : Nat) (landed : Bool)
  | unregister (i : Nat)
  | dropRow (key : String)
  | sweepStart
  | sweepScan
  | sweepList
  | sweepNext
  | sweepInflight
  | sweepTryLock (readLocked : Bool)
  | sweepQueue
  | sweepEnd

/-- The file was written after the cutoff of a sweep that started at `scanStart`. -/
def recent (s : State) (scanStart path : Nat) : Bool :=
  scanStart < s.modTime path + orphanGraceWindow

/-- One step. An event that is not enabled changes nothing. -/
def step (s : State) : Event → State
  | .tick seconds => { s with clock := s.clock + seconds }
  | .create i key =>
    match s.writes i with
    | .idle => { (s.setWrite i (.writing key)).touch i with files := i :: s.files }
    | _ => s
  | .chunk i => if (s.writes i).locked then s.touch i else s
  | .close i =>
    match s.writes i with
    | .writing key => s.setWrite i (.closed key)
    | _ => s
  | .abort i =>
    -- The stream fails: the file is removed under its lock.
    if (s.writes i).locked then { s.setWrite i .done with files := s.files.filter (· ≠ i) } else s
  | .register i =>
    match s.writes i with
    | .closed key => s.setWrite i (.registered key)
    | _ => s
  | .commit i landed =>
    match s.writes i with
    | .registered key =>
      if landed then
        { s.setWrite i .committed with rows := (key, i) :: s.rows.filter (·.1 ≠ key) }
      else s.setWrite i .committed
    | _ => s
  | .unregister i => if s.writes i = .committed then s.setWrite i .done else s
  | .dropRow key => { s with rows := s.rows.filter (·.1 ≠ key) }
  | .sweepStart =>
    match s.sweep with
    | .idle => { s with sweep := .started s.clock }
    | _ => s
  | .sweepScan =>
    match s.sweep with
    | .started scanStart =>
      s.setPass ⟨scanStart, s.rows.map Prod.snd, none, none⟩
    | _ => s
  | .sweepList =>
    match s.sweep with
    | .sweeping ⟨scanStart, referenced, none, candidate⟩ =>
      s.setPass ⟨scanStart, referenced, some s.files, candidate⟩
    | _ => s
  | .sweepNext =>
    match s.sweep with
    | .sweeping ⟨scanStart, referenced, some (path :: entries), none⟩ =>
      let skip := path ∈ referenced ∨ path ∉ s.files ∨ recent s scanStart path
      s.setPass ⟨scanStart, referenced, some entries,
        if skip then none else some (path, .recency)⟩
    | _ => s
  | .sweepInflight =>
    match s.sweep with
    | .sweeping ⟨scanStart, referenced, entries, some (path, .recency)⟩ =>
      s.setPass ⟨scanStart, referenced, entries,
        if (s.writes path).inflight then none else some (path, .registry)⟩
    | _ => s
  | .sweepTryLock readLocked =>
    match s.sweep with
    | .sweeping ⟨scanStart, referenced, entries, some (path, .registry)⟩ =>
      s.setPass ⟨scanStart, referenced, entries,
        if (s.writes path).locked || readLocked then none else some (path, .lock)⟩
    | _ => s
  | .sweepQueue =>
    match s.sweep with
    | .sweeping ⟨scanStart, referenced, entries, some (path, .lock)⟩ =>
      { s.setPass ⟨scanStart, referenced, entries, none⟩ with queued := path :: s.queued }
    | _ => s
  | .sweepEnd =>
    match s.sweep with
    -- All entries are done, or the sweep was interrupted between two of them.
    | .sweeping ⟨_, _, _, none⟩ => { s with sweep := .idle }
    | _ => s

/-! ## The checks of a file -/

/-- The sweep has the in-flight check of the file ahead: the file has passed the first guard, or it
will when its entry comes, since the snapshot has no row for it and it was last written before the
cutoff. -/
def Pass.awaits (pass : Pass) (s : State) (i : Nat) : Bool :=
  pass.candidate = some (i, .recency) ||
    (pass.entries.all (i ∈ ·) && i ∉ pass.referenced && !recent s pass.scanStart i)

/-- The checks of a file by the sweep under way do not slip through between the guards of its put:
the put does not leave the registry with a row while the in-flight check is ahead, that check does
not fall between the lock and the registration, and the lock is not released between that check and
`TryLock`. -/
def timely (s : State) : Event → Bool
  | .close i =>
    match s.sweep with
    | .sweeping pass => pass.candidate ≠ some (i, .registry)
    | _ => true
  | .unregister i =>
    match s.sweep with
    | .sweeping pass => !pass.awaits s i || s.rows.all (·.2 ≠ i)
    | _ => true
  | .sweepInflight =>
    match s.sweep with
    | .sweeping ⟨_, _, _, some (path, .recency)⟩ => !(s.writes path).unguarded
    | _ => true
  | _ => true

/-! ## The invariant -/

section Definitions

variable (s : State)

/-- No row references the file and none will. -/
structure Dead (path : Nat) : Prop where
  done : s.writes path = .done
  rows : ∀ r ∈ s.rows, r.2 ≠ path

/-- A file with a row is in flight, or the sweep under way will not take it for an orphan. -/
def RowOk (path : Nat) : Prop :=
  s.writes path = .committed ∨ s.writes path = .done ∧
    ∀ pass, s.sweep = .sweeping pass → path ∈ pass.referenced ∨ pass.awaits s path = false

/-- What the sweep knows about a candidate after each of the guards. -/
def Checked (referenced : List Nat) (path : Nat) : Guard → Prop
  | .recency => path ∉ referenced ∧ s.writes path ≠ .idle
  | .registry => (s.writes path).locked = true ∨ Dead s path
  | .lock => Dead s path

structure Inv : Prop where
  rows : ∀ r ∈ s.rows, RowOk s r.2
  files : ∀ path ∈ s.files, s.writes path ≠ .idle
  candidate : ∀ pass path guard, s.sweep = .sweeping pass → pass.candidate = some (path, guard) →
    Checked s pass.referenced path guard
  queued : ∀ path ∈ s.queued, Dead s path

end Definitions

lemma inv_init : Inv State.init where
  rows := by simp
  files := by simp
  candidate := by simp
  queued := by simp

variable {s s' : State} {i path scanStart : Nat} {w : Write} {pass pass' : Pass}
  {referenced : List Nat} {entries : Option (List Nat)}

/-- The file of a put without a row yet has none. -/
theorem Inv.not_row (h : Inv s) (hcommitted : s.writes i ≠ .committed) (hdone : s.writes i ≠ .done)
    {r : String × Nat} (hr : r ∈ s.rows) : r.2 ≠ i := by
  rintro rfl
  rcases h.rows r hr with hw | ⟨hw, -⟩
  · exact hcommitted hw
  · exact hdone hw

/-! ## Steps of a put -/

/-- What a step of the put `i` leaves alone. -/
structure WriteFrame (s s' : State) (i : Nat) : Prop where
  sweep : s'.sweep = s.sweep
  queued : s'.queued = s.queued
  writes : ∀ j, j ≠ i → s'.writes j = s.writes j
  modTime : ∀ j, j ≠ i → s'.modTime j = s.modTime j
  files : ∀ j ∈ s'.files, j ∈ s.files ∨ j = i

/-- A put that is not over takes a step. What has to be shown concerns its own file alone. -/
theorem Inv.write (h : Inv s) (hf : WriteFrame s s' i) (hlive : s.writes i ≠ .done)
    (hi : s'.writes i ≠ .idle)
    (hrows : ∀ r ∈ s'.rows, r.2 = i ∧ RowOk s' i ∨ r.2 ≠ i ∧ r ∈ s.rows)
    (hlocked : ∀ pass, s.sweep = .sweeping pass → pass.candidate = some (i, .registry) →
      (s.writes i).locked = true → (s'.writes i).locked = true ∨ Dead s' i) : Inv s' := by
  have hdead : ∀ p, Dead s p → p ≠ i ∧ Dead s' p := by
    intro p hp
    have hpi : p ≠ i := by
      rintro rfl
      exact hlive hp.done
    refine ⟨hpi, (hf.writes p hpi).trans hp.done, fun r hr => ?_⟩
    rcases hrows r hr with ⟨hri, -⟩ | ⟨-, hr⟩
    · exact fun hrp => hpi (hrp ▸ hri)
    · exact hp.rows r hr
  refine ⟨fun r hr => ?_, fun p hp => ?_, fun pass p guard hsweep hp => ?_, fun p hp => ?_⟩
  · rcases hrows r hr with ⟨hri, hok⟩ | ⟨hri, hr⟩
    · exact hri ▸ hok
    · have hawaits : ∀ pass : Pass, pass.awaits s' r.2 = pass.awaits s r.2 := fun pass => by
        simp only [Pass.awaits, recent, hf.modTime r.2 hri]
      simp only [RowOk, hf.writes _ hri, hf.sweep, hawaits]
      exact h.rows r hr
  · by_cases hpi : p = i
    · exact hpi ▸ hi
    · rw [hf.writes p hpi]
      exact h.files p ((hf.files p hp).resolve_right hpi)
  · rw [hf.sweep] at hsweep
    have hbefore := h.candidate pass p guard hsweep hp
    by_cases hpi : p = i
    · subst hpi
      cases guard with
      | recency => exact ⟨hbefore.1, hi⟩
      | registry =>
        refine hlocked pass hsweep hp (hbefore.resolve_right fun hdone => ?_)
        exact hlive hdone.done
      | lock => exact absurd hbefore.done hlive
    · cases guard with
      | recency => exact ⟨hbefore.1, hf.writes p hpi ▸ hbefore.2⟩
      | registry => exact hbefore.imp (fun hl => by rwa [hf.writes p hpi]) fun hd => (hdead p hd).2
      | lock => exact (hdead p hbefore).2
  · exact (hdead p (h.queued p (hf.queued ▸ hp))).2

lemma writeFrame_setWrite : WriteFrame s (s.setWrite i w) i where
  sweep := rfl
  queued := rfl
  writes _ hj := Function.update_of_ne hj _ _
  modTime _ _ := rfl
  files _ hj := .inl hj

@[simp] lemma setWrite_writes_self : (s.setWrite i w).writes i = w := Function.update_self _ _ _

variable {key : String}

section

variable (h : Inv s)

include h

lemma Inv.create (hidle : s.writes i = .idle) :
    Inv { (s.setWrite i (.writing key)).touch i with files := i :: s.files } := by
  have hframe : WriteFrame s { (s.setWrite i (.writing key)).touch i with files := i :: s.files } i :=
    ⟨rfl, rfl, fun _ hj => Function.update_of_ne hj _ _, fun _ hj => Function.update_of_ne hj _ _,
      fun _ hj => (List.mem_cons.mp hj).symm⟩
  refine h.write hframe (by simp [hidle]) (by simp [State.touch]) (fun r hr => .inr ⟨?_, hr⟩) ?_
  · exact h.not_row (by simp [hidle]) (by simp [hidle]) hr
  · simp [hidle, Write.locked]

/-- Bytes are written while the lock is held. -/
theorem Inv.touch (hlocked : (s.writes i).locked = true) : Inv (s.touch i) := by
  have hframe : WriteFrame s (s.touch i) i :=
    ⟨rfl, rfl, fun _ _ => rfl, fun _ hj => Function.update_of_ne hj _ _, fun _ hj => .inl hj⟩
  obtain ⟨key, hw⟩ : ∃ key, s.writes i = .writing key := by
    cases hw : s.writes i <;> simp_all [Write.locked]
  refine h.write hframe (by simp [hw]) (by simp [State.touch, hw]) (fun r hr => .inr ⟨?_, hr⟩)
    fun _ _ _ hl => .inl hl
  exact h.not_row (by simp [hw]) (by simp [hw]) hr

/-- The lock is released, but not under the eyes of the sweep. -/
theorem Inv.close (hw : s.writes i = .writing key) (hok : timely s (.close i) = true) :
    Inv (s.setWrite i (.closed key)) := by
  refine h.write writeFrame_setWrite (by simp [hw]) (by simp) (fun r hr => .inr ⟨?_, hr⟩)
    fun pass hsweep hcandidate => ?_
  · exact h.not_row (by simp [hw]) (by simp [hw]) hr
  · simp [timely, hsweep, hcandidate] at hok

/-- The put fails: its file goes before the lock is released. -/
theorem Inv.abort (hlocked : (s.writes i).locked = true) :
    Inv { s.setWrite i .done with files := s.files.filter (· ≠ i) } := by
  have hframe : WriteFrame s { s.setWrite i .done with files := s.files.filter (· ≠ i) } i :=
    ⟨rfl, rfl, fun _ hj => Function.update_of_ne hj _ _, fun _ _ => rfl,
      fun _ hj => .inl (List.mem_of_mem_filter hj)⟩
  obtain ⟨key, hw⟩ : ∃ key, s.writes i = .writing key := by
    cases hw : s.writes i <;> simp_all [Write.locked]
  have hrow : ∀ r ∈ s.rows, r.2 ≠ i := fun r => h.not_row (by simp [hw]) (by simp [hw])
  exact h.write hframe (by simp [hw]) (by simp) (fun r hr => .inr ⟨hrow r hr, hr⟩)
    fun _ _ _ _ => .inr ⟨setWrite_writes_self, hrow⟩

lemma Inv.register (hw : s.writes i = .closed key) : Inv (s.setWrite i (.registered key)) := by
  refine h.write writeFrame_setWrite (by simp [hw]) (by simp) (fun r hr => .inr ⟨?_, hr⟩)
    (by simp [hw, Write.locked])
  exact h.not_row (by simp [hw]) (by simp [hw]) hr

/-- The path is registered while its row is committed. -/
theorem Inv.commit (hw : s.writes i = .registered key) {rows : List (String × Nat)}
    (hrows : ∀ r ∈ rows, r.2 = i ∨ r ∈ s.rows) :
    Inv { s.setWrite i .committed with rows := rows } := by
  have hframe : WriteFrame s { s.setWrite i .committed with rows := rows } i :=
    ⟨rfl, rfl, fun _ hj => Function.update_of_ne hj _ _, fun _ _ => rfl, fun _ hj => .inl hj⟩
  refine h.write hframe (by simp [hw]) (by simp) (fun r hr => ?_) (by simp [hw, Write.locked])
  rcases hrows r hr with hri | hr
  · exact .inl ⟨hri, .inl setWrite_writes_self⟩
  · exact .inr ⟨h.not_row (by simp [hw]) (by simp [hw]) hr, hr⟩

/-- The path leaves the registry: a row that is left was seen by the snapshot, or the sweep does not
need the registry any more. -/
theorem Inv.unregister (hw : s.writes i = .committed) (hok : timely s (.unregister i) = true) :
    Inv (s.setWrite i .done) := by
  refine h.write writeFrame_setWrite (by simp [hw]) (by simp) (fun r hr => ?_)
    (by simp [hw, Write.locked])
  by_cases hri : r.2 = i
  · refine .inl ⟨hri, .inr ⟨setWrite_writes_self, fun pass hsweep => .inr ?_⟩⟩
    have hsweep : s.sweep = .sweeping pass := hsweep
    simp only [timely, hsweep, Bool.or_eq_true, Bool.not_eq_true', List.all_eq_true] at hok
    exact hok.resolve_right fun hnone => by simpa [hri] using hnone r hr
  · exact .inr ⟨hri, hr⟩

/-! ## Steps of the sweep -/

/-- A step that changes neither puts nor files and adds no row, and after which the sweep awaits no
more files than before. -/
theorem Inv.frame (hwrites : s'.writes = s.writes) (hfiles : s'.files = s.files)
    (hrows : ∀ r ∈ s'.rows, r ∈ s.rows)
    (hpass : ∀ pass', s'.sweep = .sweeping pass' → ∀ r ∈ s'.rows, r.2 ∈ pass'.referenced ∨
      ∃ pass, s.sweep = .sweeping pass ∧ pass.referenced = pass'.referenced ∧
        (pass'.awaits s' r.2 = true → pass.awaits s r.2 = true))
    (hcandidate : ∀ pass path guard, s'.sweep = .sweeping pass →
      pass.candidate = some (path, guard) → Checked s pass.referenced path guard)
    (hqueued : ∀ path ∈ s'.queued, path ∈ s.queued ∨ Dead s path) : Inv s' := by
  have hdead : ∀ p, Dead s p → Dead s' p := fun p hp =>
    ⟨hwrites ▸ hp.done, fun r hr => hp.rows r (hrows r hr)⟩
  refine ⟨fun r hr => ?_, ?_, fun pass p guard hsweep hp => ?_, fun p hp => ?_⟩
  · rw [RowOk, hwrites]
    refine (h.rows r (hrows r hr)).imp_right fun ⟨hdone, hbefore⟩ => ⟨hdone, fun pass' hsweep' => ?_⟩
    rcases hpass pass' hsweep' r hr with hmem | ⟨pass, hsweep, href, hawaits⟩
    · exact .inl hmem
    · rw [← href]
      exact (hbefore pass hsweep).imp_right fun hnot =>
        Bool.eq_false_iff.mpr fun hyes => Bool.eq_false_iff.mp hnot (hawaits hyes)
  · rw [hfiles, hwrites]
    exact h.files
  · have hchecked := hcandidate pass p guard hsweep hp
    cases guard with
    | recency => exact ⟨hchecked.1, hwrites ▸ hchecked.2⟩
    | registry => exact hchecked.imp (fun hl => by rwa [hwrites]) (hdead p)
    | lock => exact hdead p hchecked
  · exact hdead p ((hqueued p hp).elim (h.queued p) id)

end

/-- Without a candidate behind the first guard only the entries ahead are awaited. -/
theorem awaits_of_candidate {c c' : Option (Nat × Guard)} (hc : ∀ p, c' ≠ some (p, .recency))
    (h : Pass.awaits ⟨scanStart, referenced, entries, c'⟩ s i = true) :
    Pass.awaits ⟨scanStart, referenced, entries, c⟩ s i = true := by
  simp only [Pass.awaits, Bool.or_eq_true] at h ⊢
  exact .inr (h.resolve_left (by simpa using hc i))

section

variable (h : Inv s)

include h

/-- The sweep moves on within a pass. -/
theorem Inv.setPass (hsweep : s.sweep = .sweeping pass) (href : pass.referenced = pass'.referenced)
    (hawaits : ∀ p, pass'.awaits s p = true → pass.awaits s p = true)
    (hcandidate : ∀ p g, pass'.candidate = some (p, g) → Checked s pass'.referenced p g) :
    Inv (s.setPass pass') := by
  refine h.frame rfl rfl (fun _ hr => hr) (fun pass'' hpass r _ => ?_) (fun pass'' p g hpass hp => ?_)
    fun p hp => .inl hp
  · obtain rfl : pass' = pass'' := by simpa using hpass
    exact .inr ⟨pass, hsweep, href, hawaits r.2⟩
  · obtain rfl : pass' = pass'' := by simpa using hpass
    exact hcandidate p g hp

/-- Nothing of the sweep changes. -/
theorem Inv.frame_sweep (hwrites : s'.writes = s.writes) (hfiles : s'.files = s.files)
    (hmod : s'.modTime = s.modTime) (hrows : ∀ r ∈ s'.rows, r ∈ s.rows)
    (hsweep : s'.sweep = s.sweep) (hqueued : s'.queued = s.queued) : Inv s' := by
  refine h.frame hwrites hfiles hrows (fun pass hpass r _ => .inr ⟨pass, hsweep ▸ hpass, rfl, ?_⟩)
    (fun pass p g hpass => h.candidate pass p g (hsweep ▸ hpass)) fun p hp => .inl (hqueued ▸ hp)
  simp only [Pass.awaits, recent, hmod]
  exact id

/-- No pass is under way. -/
theorem Inv.setSweep {sweep : Sweep} (hsweep : ∀ pass, sweep ≠ .sweeping pass) :
    Inv { s with sweep := sweep } :=
  h.frame rfl rfl (fun _ hr => hr) (fun pass hpass => absurd hpass (hsweep pass))
    (fun pass _ _ hpass => absurd hpass (hsweep pass)) fun _ hp => .inl hp

/-- The snapshot is taken: every row is one of it. -/
theorem Inv.scan : Inv (s.setPass ⟨scanStart, s.rows.map Prod.snd, none, none⟩) := by
  refine h.frame rfl rfl (fun _ hr => hr) (fun pass hpass r hr => .inl ?_) (fun pass p g hpass hp => ?_)
    fun p hp => .inl hp
  · obtain rfl : ⟨scanStart, s.rows.map Prod.snd, none, none⟩ = pass := by simpa using hpass
    exact List.mem_map_of_mem hr
  · obtain rfl : ⟨scanStart, s.rows.map Prod.snd, none, none⟩ = pass := by simpa using hpass
    simp at hp

lemma Inv.list {candidate : Option (Nat × Guard)}
    (hsweep : s.sweep = .sweeping ⟨scanStart, referenced, none, candidate⟩) :
    Inv (s.setPass ⟨scanStart, referenced, some s.files, candidate⟩) := by
  refine h.setPass hsweep rfl (fun p hp => ?_) fun p g hp => ?_
  · simp only [Pass.awaits, Option.all_none, Option.all_some, Bool.or_eq_true,
      Bool.and_eq_true] at hp ⊢
    tauto
  · exact h.candidate ⟨scanStart, referenced, none, candidate⟩ p g hsweep hp

/-- The sweep looks at its next entry, which is a candidate if it is old and not referenced. -/
theorem Inv.next {entries : List Nat}
    (hsweep : s.sweep = .sweeping ⟨scanStart, referenced, some (path :: entries), none⟩) :
    Inv (s.setPass ⟨scanStart, referenced, some entries,
      if path ∈ referenced ∨ path ∉ s.files ∨ recent s scanStart path then none
      else some (path, .recency)⟩) := by
  refine h.setPass hsweep rfl (fun p hp => ?_) fun p g hp => ?_
  · simp only [Pass.awaits, Option.all_some, Bool.or_eq_true, Bool.and_eq_true] at hp ⊢
    rcases hp with hnew | ⟨⟨hahead, href⟩, hold⟩
    · -- Only a file that the first guard lets through becomes the candidate.
      split at hnew
      · simp at hnew
      · rename_i hskip
        obtain rfl : path = p := by simpa using hnew
        simp only [not_or, not_not, Bool.not_eq_true] at hskip
        simp [hskip]
    · exact .inr ⟨⟨by simp_all, href⟩, hold⟩
  · simp only at hp
    split at hp
    · simp at hp
    · rename_i hskip
      obtain ⟨rfl, rfl⟩ : path = p ∧ Guard.recency = g := by simpa using hp
      simp only [not_or, not_not] at hskip
      exact ⟨hskip.1, h.files path hskip.2.1⟩

/-- A candidate that is not in flight is being written, or it is dead: a row would be one of the
snapshot, or the sweep would not have come here. -/
theorem Inv.inflight
    (hsweep : s.sweep = .sweeping ⟨scanStart, referenced, entries, some (path, .recency)⟩)
    (hok : timely s .sweepInflight = true) :
    Inv (s.setPass ⟨scanStart, referenced, entries,
      if (s.writes path).inflight then none else some (path, .registry)⟩) := by
  refine h.setPass hsweep rfl (fun _ => awaits_of_candidate fun p => ?_) fun p g hp => ?_
  · split <;> simp
  · simp only at hp
    split at hp
    · simp at hp
    · rename_i hinflight
      obtain ⟨rfl, rfl⟩ : path = p ∧ Guard.registry = g := by simpa using hp
      obtain ⟨href, hidle⟩ := h.candidate _ _ _ hsweep rfl
      simp only [timely, hsweep] at hok
      cases hw : s.writes path with
      | idle => exact absurd hw hidle
      | writing key => exact .inl (by rw [hw]; rfl)
      | closed key => simp [hw, Write.unguarded] at hok
      | registered key | committed => simp [hw, Write.inflight] at hinflight
      | done =>
        refine .inr ⟨hw, fun r hr hrp => ?_⟩
        rcases h.rows r hr with hcommitted | ⟨-, hseen⟩
        · simp [hrp, hw] at hcommitted
        · rcases hseen _ hsweep with hmem | hnot
          · exact href (hrp ▸ hmem)
          · simp [Pass.awaits, hrp] at hnot

/-- A candidate whose lock is free is not being written, so it is dead. -/
theorem Inv.tryLock
    (hsweep : s.sweep = .sweeping ⟨scanStart, referenced, entries, some (path, .registry)⟩)
    (readLocked : Bool) :
    Inv (s.setPass ⟨scanStart, referenced, entries,
      if (s.writes path).locked || readLocked then none else some (path, .lock)⟩) := by
  refine h.setPass hsweep rfl (fun _ => awaits_of_candidate fun p => ?_) fun p g hp => ?_
  · split <;> simp
  · simp only at hp
    split at hp
    · simp at hp
    · rename_i hlocked
      obtain ⟨rfl, rfl⟩ : path = p ∧ Guard.lock = g := by simpa using hp
      refine (h.candidate _ _ _ hsweep rfl).resolve_left fun hl => hlocked ?_
      simp [hl]

/-- A candidate that has passed all checks is queued. -/
theorem Inv.enqueue
    (hsweep : s.sweep = .sweeping ⟨scanStart, referenced, entries, some (path, .lock)⟩) :
    Inv { s.setPass ⟨scanStart, referenced, entries, none⟩ with queued := path :: s.queued } := by
  refine h.frame rfl rfl (fun _ hr => hr) (fun pass hpass r _ => .inr ⟨_, hsweep, ?_, ?_⟩)
    (fun pass p g hpass hp => ?_) fun p hp => ?_
  · obtain rfl : ⟨scanStart, referenced, entries, none⟩ = pass := by simpa using hpass
    rfl
  · obtain rfl : ⟨scanStart, referenced, entries, none⟩ = pass := by simpa using hpass
    exact awaits_of_candidate (by simp)
  · obtain rfl : ⟨scanStart, referenced, entries, none⟩ = pass := by simpa using hpass
    simp at hp
  · rcases List.mem_cons.mp hp with rfl | hp
    · exact .inr (h.candidate _ _ _ hsweep rfl)
    · exact .inl hp

/-! ## Every step keeps the invariant -/

lemma inv_step {e : Event} (hok : timely s e = true) : Inv (step s e) := by
  cases e with
  | tick seconds => exact h.frame_sweep rfl rfl rfl (fun _ hr => hr) rfl rfl
  | create i key =>
    simp only [step]
    split
    · exact h.create ‹_›
    · exact h
  | chunk i =>
    simp only [step]
    split
    · exact h.touch ‹_›
    · exact h
  | close i =>
    simp only [step]
    split
    · exact h.close ‹_› hok
    · exact h
  | abort i =>
    simp only [step]
    split
    · exact h.abort ‹_›
    · exact h
  | register i =>
    simp only [step]
    split
    · exact h.register ‹_›
    · exact h
  | commit i landed =>
    simp only [step]
    split
    · rename_i hw
      split
      · refine h.commit hw fun r hr => ?_
        rcases List.mem_cons.mp hr with rfl | hr
        · exact .inl rfl
        · exact .inr (List.mem_of_mem_filter hr)
      · exact h.commit hw fun r hr => .inr hr
    · exact h
  | unregister i =>
    simp only [step]
    split
    · exact h.unregister ‹_› hok
    · exact h
  | dropRow key =>
    exact h.frame_sweep rfl rfl rfl (fun _ hr => List.mem_of_mem_filter hr) rfl rfl
  | sweepStart =>
    simp only [step]
    split
    · exact h.setSweep (by simp)
    · exact h
  | sweepScan =>
    simp only [step]
    split
    · exact h.scan
    · exact h
  | sweepList =>
    simp only [step]
    split
    · exact h.list ‹_›
    · exact h
  | sweepNext =>
    simp only [step]
    split
    · exact h.next ‹_›
    · exact h
  | sweepInflight =>
    simp only [step]
    split
    · exact h.inflight ‹_› hok
    · exact h
  | sweepTryLock readLocked =>
    simp only [step]
    split
    · exact h.tryLock ‹_› readLocked
    · exact h
  | sweepQueue =>
    simp only [step]
    split
    · exact h.enqueue ‹_›
    · exact h
  | sweepEnd =>
    simp only [step]
    split
    · exact h.setSweep (by simp)
    · exact h

end

/-! ## What the sweep queues -/

/-- In every run in which the checks of a sweep do not slip through between the guards of a put: no
row references a file that a sweep has queued, then or later. Clients may stall for any length of
time. -/
theorem queued_not_referenced {es : List Event}
    (h : RunOk step (fun s e => timely s e = true) State.init es) :
    let s := run step State.init es
    ∀ path ∈ s.queued, ∀ r ∈ s.rows, r.2 ≠ path := by
  intro s path hpath r hr
  have hinv : Inv s := invariant_run (I := Inv) (fun _ _ hI hok => inv_step hI hok) inv_init h
  exact (hinv.queued path hpath).rows r hr

/-- Put 0 fails to commit and leaves its file behind. Puts 1 and 2 stall for longer than the grace
window, one in its upload and one before its commit, and go on after the sweep has met the lock and
the registered path. -/
def orphanRun : List Event :=
  [.create 0 "a", .close 0, .register 0, .commit 0 false, .unregister 0, .create 1 "b",
    .create 2 "c", .close 2, .register 2, .tick 1000, .sweepStart, .sweepScan, .sweepList,
    .sweepNext, .sweepInflight, .sweepNext, .sweepInflight, .sweepTryLock false, .chunk 1, .close 1,
    .register 1, .commit 1 true, .unregister 1, .commit 2 true, .unregister 2, .sweepNext,
    .sweepInflight, .sweepTryLock false, .sweepQueue, .sweepEnd]

theorem queued_not_referenced_orphanRun :
    let s := run step State.init orphanRun
    s.queued = [0] ∧ s.rows = [("c", 2), ("b", 1)] ∧ ∀ path ∈ s.queued, ∀ r ∈ s.rows, r.2 ≠ path :=
  ⟨by decide, by decide, @queued_not_referenced orphanRun (by decide)⟩

/-- The client of a put stalls for longer than the grace window and ends its upload after the
snapshot of a sweep and before the sweep examines the file. -/
def stalledRun : List Event :=
  [.create 0 "a", .chunk 0, .tick 1000, .sweepStart, .sweepScan, .close 0, .register 0,
    .commit 0 true, .unregister 0, .sweepList, .sweepNext, .sweepInflight, .sweepTryLock false,
    .sweepQueue]

/-- At the end of `stalledRun` the file of a committed row is queued for deletion. -/
theorem stalled_queued :
    let s := run step State.init stalledRun
    s.queued = [0] ∧ s.rows = [("a", 0)] := by
  decide

end OCache.OrphanSweep
