import OCache.Lib.EventSystem

/-!
# Version stamps and their durable reservation

`Storage.nextVersion` issues version stamps: the wall clock in nanoseconds, pushed past the stamp
issued last. A stamp above the reserved ceiling is issued only after a higher ceiling was written
durably, so a restart that resumes at the ceiling resumes above every stamp of the time before.

Any number of calls run at once. Each shared-memory access and each durable write is one step; in
between, other calls may move and the process may crash. The steps under `versionMu` are separate
too, because `lastVersion` and `versionHi` are read without the mutex.
-/

namespace OCache.Version

open EventSystem

/-- How far past the current stamp a reservation reaches: one minute of nanoseconds. -/
@[irreducible] def versionReservationBlock : UInt64 := 60000000000

lemma toNat_versionReservationBlock : versionReservationBlock.toNat = 60000000000 := by
  simp [versionReservationBlock]

/-- Where a call of `nextVersion` stands. -/
inductive Pc where
  | idle
  | clocked (now : UInt64)
  | loaded (last next : UInt64)
  | waiting (last next : UInt64)
  | locked (last next : UInt64)
  | extending (last next : UInt64)
  | written (last next : UInt64)
  | reserved (last next : UInt64)

/-- The counters of a node, its durable ceiling and its running calls. -/
structure State where
  /-- The stamp issued last. -/
  lastVersion : UInt64
  /-- The ceiling up to which stamps may be issued. -/
  versionHi : UInt64
  /-- The ceiling stored under `VersionHWMKey`, if one was ever written. -/
  hwm : Option UInt64
  /-- The call that holds `versionMu`. -/
  versionMu : Option Nat
  /-- Where each call stands. -/
  pc : Nat → Pc
  /-- How often the process was restarted. -/
  epoch : Nat
  /-- The stamps returned so far with the epoch they were returned in, newest first. -/
  issued : List (Nat × UInt64)

namespace State

/-- A node that was never started before. -/
@[simp] def init : State where
  lastVersion := 0
  versionHi := 0
  hwm := none
  versionMu := none
  pc _ := .idle
  epoch := 0
  issued := []

def setPc (s : State) (t : Nat) (pc : Pc) : State :=
  { s with pc := Function.update s.pc t pc }

/-- The process dies: memory and running calls are lost. -/
def crash (s : State) : State :=
  { s with lastVersion := 0, versionHi := 0, versionMu := none, pc := fun _ => .idle,
           epoch := s.epoch + 1 }

/-- Seat both counters at the durable ceiling, if there is one. -/
def loadVersionReservation (s : State) : State :=
  match s.hwm with
  | some hwm => { s with lastVersion := hwm, versionHi := hwm }
  | none => s

end State

/-- The durable ceiling, `0` before the first reservation. -/
@[simp] def ceiling (hwm : Option UInt64) : UInt64 := hwm.getD 0

/-- A step of one call, or a restart. -/
inductive Event where
  | readClock (t : Nat) (now : UInt64)
  | loadLast (t : Nat)
  | checkCeiling (t : Nat)
  | lock (t : Nat)
  | recheck (t : Nat)
  | putOk (t : Nat)
  | putFail (t : Nat) (persisted : Bool)
  | storeHi (t : Nat)
  | compareAndSwap (t : Nat)
  | restart

/-- The stamp a call tries to issue: the clock, or one past the stamp issued last. -/
def candidate (now last : UInt64) : UInt64 := if now ≤ last then last + 1 else now

/-- One step. An event that is not enabled changes nothing. -/
def step (s : State) : Event → State
  | .readClock t now =>
    match s.pc t with
    | .idle => s.setPc t (.clocked now)
    | _ => s
  | .loadLast t =>
    match s.pc t with
    | .clocked now => s.setPc t (.loaded s.lastVersion (candidate now s.lastVersion))
    | _ => s
  | .checkCeiling t =>
    match s.pc t with
    | .loaded last next =>
      if s.versionHi < next then s.setPc t (.waiting last next)
      else s.setPc t (.reserved last next)
    | _ => s
  | .lock t =>
    match s.pc t, s.versionMu with
    | .waiting last next, none => { s.setPc t (.locked last next) with versionMu := some t }
    | _, _ => s
  | .recheck t =>
    match s.pc t with
    | .locked last next =>
      -- Another caller may have extended the reservation while this one waited.
      if next ≤ s.versionHi then { s.setPc t (.reserved last next) with versionMu := none }
      else s.setPc t (.extending last next)
    | _ => s
  | .putOk t =>
    match s.pc t with
    | .extending last next =>
      { s.setPc t (.written last next) with hwm := some (next + versionReservationBlock) }
    | _ => s
  | .putFail t persisted =>
    match s.pc t with
    | .extending _ next =>
      -- A write that reports an error may have reached the disk all the same.
      { s.setPc t .idle with
        hwm := if persisted then some (next + versionReservationBlock) else s.hwm
        versionMu := none }
    | _ => s
  | .storeHi t =>
    match s.pc t with
    | .written last next =>
      { s.setPc t (.reserved last next) with
        versionHi := next + versionReservationBlock
        versionMu := none }
    | _ => s
  | .compareAndSwap t =>
    match s.pc t with
    | .reserved last next =>
      -- On failure the call starts over with a new clock reading.
      if s.lastVersion = last then
        { s.setPc t .idle with lastVersion := next, issued := (s.epoch, next) :: s.issued }
      else s.setPc t .idle
    | _ => s
  | .restart => s.crash.loadVersionReservation

/-- The value stays `blocks` reservation blocks away from `2 ^ 64`. -/
def Room (blocks : Nat) (v : UInt64) : Prop :=
  v.toNat + blocks * versionReservationBlock.toNat < 2 ^ 64

instance (blocks : Nat) (v : UInt64) : Decidable (Room blocks v) :=
  inferInstanceAs (Decidable (_ < _))

/-- The event does not compute a candidate within two reservation blocks of `2 ^ 64`. -/
def inRange (s : State) : Event → Bool
  | .loadLast t =>
    match s.pc t with
    | .clocked now => Room 2 (candidate now s.lastVersion)
    | _ => true
  | _ => true

/-! ## The invariant -/

/-- What is known about a call at each point. -/
def PcOk (s : State) (t : Nat) : Pc → Prop
  | .idle => True
  | .clocked _ => True
  | .loaded last next => last < next ∧ Room 2 next
  | .waiting last next => last < next ∧ Room 2 next
  | .locked last next => (last < next ∧ Room 2 next) ∧ s.versionMu = some t
  | .extending last next =>
    (last < next ∧ Room 2 next) ∧ s.versionHi < next ∧ s.versionMu = some t
  | .written last next =>
    (last < next ∧ Room 2 next) ∧ s.versionHi < next ∧ s.versionMu = some t ∧
      ceiling s.hwm = next + versionReservationBlock
  | .reserved last next => last < next ∧ next ≤ s.versionHi

/-- The counters stay below the durable ceiling, and the stamps issued so far below the counters. -/
structure Inv (s : State) : Prop where
  hi_le : s.versionHi ≤ ceiling s.hwm
  last_le : s.lastVersion ≤ s.versionHi
  room : Room 1 (ceiling s.hwm)
  pc : ∀ t, PcOk s t (s.pc t)
  issued_le : ∀ p ∈ s.issued, p.1 ≤ s.epoch ∧ p.2 ≤ s.lastVersion
  positive : ∀ p ∈ s.issued, 0 < p.2
  increasing : s.issued.Pairwise fun newer older => older.1 ≤ newer.1 ∧ older.2 < newer.2

lemma inv_init : Inv State.init where
  hi_le := by decide
  last_le := by decide
  room := by simp [Room, toNat_versionReservationBlock]
  pc _ := trivial
  issued_le := by simp
  positive := by simp
  increasing := by simp

def Pc.holdsLock : Pc → Bool
  | .locked _ _ | .extending _ _ | .written _ _ => true
  | _ => false

variable {s s' : State} {t u : Nat} {pc : Pc}

lemma PcOk.versionMu_of_holdsLock (h : PcOk s t pc) (hlock : pc.holdsLock = true) :
    s.versionMu = some t := by
  cases pc with
  | locked last next => exact h.2
  | extending last next => exact h.2.2
  | written last next => exact h.2.2.1
  | idle | clocked | loaded | waiting | reserved => simp [Pc.holdsLock] at hlock

/-- Outside the mutex a call only relies on the ceiling in memory, which never falls. -/
theorem PcOk.of_not_holdsLock (h : PcOk s t pc) (hlock : pc.holdsLock = false)
    (hhi : s.versionHi ≤ s'.versionHi) : PcOk s' t pc := by
  cases pc with
  | idle | clocked now => trivial
  | loaded last next | waiting last next => exact h
  | reserved last next => exact ⟨h.1, UInt64.le_trans h.2 hhi⟩
  | locked | extending | written => simp [Pc.holdsLock] at hlock

lemma Inv.not_holdsLock (h : Inv s) (hmu : s.versionMu ≠ some u) : (s.pc u).holdsLock = false := by
  by_contra hlock
  exact hmu ((h.pc u).versionMu_of_holdsLock (by simpa using hlock))

/-- A step of `t` keeps what is known about the calls, if it does not lower the ceiling in memory
and no other call holds the mutex. -/
theorem Inv.pcOk_update (h : Inv s) (hpc : s'.pc = Function.update s.pc t pc)
    (hhi : s.versionHi ≤ s'.versionHi) (hmu : ∀ u, u ≠ t → s.versionMu ≠ some u)
    (hself : PcOk s' t pc) : ∀ u, PcOk s' u (s'.pc u) := by
  intro u
  rw [hpc]
  by_cases hu : u = t
  · subst hu
    simpa using hself
  · rw [Function.update_of_ne hu]
    exact (h.pc u).of_not_holdsLock (h.not_holdsLock (hmu u hu)) hhi

lemma pcOk_congr (hhi : s'.versionHi = s.versionHi) (hmu : s'.versionMu = s.versionMu)
    (hhwm : s'.hwm = s.hwm) : PcOk s' u pc ↔ PcOk s u pc := by
  cases pc <;> simp [PcOk, hhi, hmu, hhwm]

/-- A step of `t` that moves nothing but its own program counter. -/
theorem Inv.setPc (h : Inv s) (hself : PcOk s t pc) : Inv (s.setPc t pc) :=
  { h with
    pc := fun u => by
      refine (pcOk_congr (s := s) rfl rfl rfl).mpr ?_
      rw [State.setPc]
      by_cases hu : u = t
      · subst hu
        simpa using hself
      · simpa [hu] using h.pc u }

lemma versionMu_ne_of_eq {v : Option Nat} (hmu : v = some t) : ∀ u, u ≠ t → v ≠ some u := by
  rintro u hu rfl
  exact hu (by simpa using hmu)

lemma Room.of_le {blocks : Nat} {v w : UInt64} (h : Room blocks w) (hle : v ≤ w) :
    Room blocks v := by
  rw [Room] at h ⊢
  rw [UInt64.le_iff_toNat_le] at hle
  omega

variable {next last : UInt64}

lemma toNat_reserve (h : Room 2 next) :
    (next + versionReservationBlock).toNat = next.toNat + versionReservationBlock.toNat := by
  simp only [Room] at h
  rw [UInt64.toNat_add]
  omega

lemma le_reserve (h : Room 2 next) : next ≤ next + versionReservationBlock := by
  rw [UInt64.le_iff_toNat_le, toNat_reserve h]
  omega

lemma room_reserve (h : Room 2 next) : Room 1 (next + versionReservationBlock) := by
  rw [Room, toNat_reserve h]
  rw [Room] at h
  omega

lemma lt_candidate {now : UInt64} (h : Room 1 last) : last < candidate now last := by
  rw [Room, toNat_versionReservationBlock] at h
  unfold candidate
  split
  · rw [UInt64.lt_iff_toNat_lt, UInt64.toNat_add]
    simp only [UInt64.reduceToNat]
    omega
  · rename_i hlt
    rw [UInt64.lt_iff_toNat_lt]
    rw [UInt64.le_iff_toNat_le] at hlt
    omega

/-- The reservation reaches the disk. The call that wrote it may still be told that it failed. -/
theorem Inv.persist (h : Inv s) (hpc : s.pc t = .extending last next) {mu : Option Nat}
    (hself : PcOk { s.setPc t pc with
      hwm := some (next + versionReservationBlock), versionMu := mu } t pc) :
    Inv { s.setPc t pc with hwm := some (next + versionReservationBlock), versionMu := mu } := by
  have hok : PcOk s t (.extending last next) := hpc ▸ h.pc t
  obtain ⟨hnext, hhi, hmu⟩ := hok
  exact { h with
    hi_le := UInt64.le_trans (UInt64.le_of_lt hhi) (le_reserve hnext.2)
    room := room_reserve hnext.2
    pc := h.pcOk_update rfl (UInt64.le_refl _) (versionMu_ne_of_eq hmu) hself }

/-- A stamp above all earlier ones and within the reservation is issued. -/
theorem Inv.issue (h : Inv s) (hlt : s.lastVersion < next) (hle : next ≤ s.versionHi) :
    Inv { s.setPc t .idle with lastVersion := next, issued := (s.epoch, next) :: s.issued } := by
  have hidle : Inv (s.setPc t .idle) := h.setPc trivial
  exact { hidle with
    last_le := hle
    pc := fun u => (pcOk_congr rfl rfl rfl).mpr (hidle.pc u)
    issued_le := by
      rintro p (_ | ⟨_, hp⟩)
      · exact ⟨le_rfl, UInt64.le_refl _⟩
      · exact ⟨(h.issued_le p hp).1,
          UInt64.le_of_lt (UInt64.lt_of_le_of_lt (h.issued_le p hp).2 hlt)⟩
    positive := by
      rintro p (_ | ⟨_, hp⟩)
      · exact UInt64.lt_of_le_of_lt UInt64.zero_le hlt
      · exact h.positive p hp
    increasing := List.Pairwise.cons (fun p hp => ⟨(h.issued_le p hp).1,
      UInt64.lt_of_le_of_lt (h.issued_le p hp).2 hlt⟩) h.increasing }

/-- After a restart both counters stand at the durable ceiling, above everything issued before. -/
theorem Inv.restart (h : Inv s) : Inv s.crash.loadVersionReservation := by
  have hlast : s.lastVersion ≤ ceiling s.hwm := UInt64.le_trans h.last_le h.hi_le
  have hissued : ∀ p ∈ s.issued, p.1 ≤ s.epoch + 1 ∧ p.2 ≤ ceiling s.hwm := fun p hp =>
    ⟨Nat.le_succ_of_le (h.issued_le p hp).1, UInt64.le_trans (h.issued_le p hp).2 hlast⟩
  have hroom := h.room
  simp only [State.loadVersionReservation, State.crash]
  cases hhwm : s.hwm with
  | none =>
    simp only [ceiling, hhwm, Option.getD_none] at hissued hroom
    exact ⟨by simp, UInt64.le_refl _, by simpa using hroom,
      fun _ => trivial, hissued, h.positive, h.increasing⟩
  | some hwm =>
    simp only [ceiling, hhwm, Option.getD_some] at hissued hroom
    exact ⟨by simp, UInt64.le_refl _, by simpa using hroom,
      fun _ => trivial, hissued, h.positive, h.increasing⟩

/-- Every step that stays in range keeps the invariant. -/
theorem inv_step (h : Inv s) (e : Event) (hrange : inRange s e = true) : Inv (step s e) := by
  cases e with
  | readClock t now =>
    simp only [step]
    split
    · exact h.setPc trivial
    · exact h
  | loadLast t =>
    simp only [step]
    split
    · rename_i now hpc
      have hroom : Room 2 (candidate now s.lastVersion) := by simpa [inRange, hpc] using hrange
      have hlast := h.room.of_le (UInt64.le_trans h.last_le h.hi_le)
      exact h.setPc ⟨lt_candidate hlast, hroom⟩
    · exact h
  | checkCeiling t =>
    simp only [step]
    split
    · rename_i last next hpc
      have hok : PcOk s t (.loaded last next) := hpc ▸ h.pc t
      split
      · exact h.setPc hok
      · rename_i hle
        exact h.setPc ⟨hok.1, UInt64.not_lt.mp hle⟩
    · exact h
  | lock t =>
    simp only [step]
    split
    · rename_i last next hpc hmu
      have hok : PcOk s t (.waiting last next) := hpc ▸ h.pc t
      exact { h with pc := h.pcOk_update rfl (UInt64.le_refl _) (by simp [hmu]) ⟨hok, rfl⟩ }
    · exact h
  | recheck t =>
    simp only [step]
    split
    · rename_i last next hpc
      have hok : PcOk s t (.locked last next) := hpc ▸ h.pc t
      split
      · rename_i hle
        exact { h with pc := h.pcOk_update rfl (UInt64.le_refl _) (versionMu_ne_of_eq hok.2)
                        ⟨hok.1.1, hle⟩ }
      · rename_i hlt
        exact h.setPc ⟨hok.1, UInt64.not_le.mp hlt, hok.2⟩
    · exact h
  | putOk t =>
    simp only [step]
    split
    · rename_i last next hpc
      have hok : PcOk s t (.extending last next) := hpc ▸ h.pc t
      exact h.persist hpc ⟨hok.1, hok.2.1, hok.2.2, rfl⟩
    · exact h
  | putFail t persisted =>
    simp only [step]
    split
    · rename_i last next hpc
      have hok : PcOk s t (.extending last next) := hpc ▸ h.pc t
      cases persisted with
      | false =>
        exact { h with
          pc := h.pcOk_update rfl (UInt64.le_refl _) (versionMu_ne_of_eq hok.2.2) trivial }
      | true => exact h.persist hpc trivial
    · exact h
  | storeHi t =>
    simp only [step]
    split
    · rename_i last next hpc
      have hok : PcOk s t (.written last next) := hpc ▸ h.pc t
      obtain ⟨hnext, hhi, hmu, hceiling⟩ := hok
      have hraise : s.versionHi ≤ next + versionReservationBlock :=
        UInt64.le_trans (UInt64.le_of_lt hhi) (le_reserve hnext.2)
      exact { h with
        hi_le := UInt64.le_of_eq hceiling.symm
        last_le := UInt64.le_trans h.last_le hraise
        pc := h.pcOk_update rfl hraise (versionMu_ne_of_eq hmu) ⟨hnext.1, le_reserve hnext.2⟩ }
    · exact h
  | compareAndSwap t =>
    simp only [step]
    split
    · rename_i last next hpc
      have hok : PcOk s t (.reserved last next) := hpc ▸ h.pc t
      split
      · -- The swap succeeds only if no stamp was issued since `last` was loaded.
        rename_i hlast
        exact h.issue (hlast ▸ hok.1) hok.2
      · exact h.setPc trivial
    · exact h
  | restart => exact h.restart

/-! ## Stamps -/

lemma inv_run {es : List Event} (h : RunOk step (fun s e => inRange s e = true) State.init es) :
    Inv (run step State.init es) :=
  invariant_run (I := Inv) (fun _ e hinv hrange => inv_step hinv e hrange) inv_init h

/-- In every run that stays away from `2 ^ 64`, whatever the clock shows, whichever reservation
writes fail and however often the process is restarted: no two stamps are equal, every stamp
exceeds all stamps of earlier epochs, and no stamp exceeds the ceiling written last. -/
theorem stamps_never_repeat {es : List Event}
    (h : RunOk step (fun s e => inRange s e = true) State.init es) :
    let s := run step State.init es
    (s.issued.map Prod.snd).Nodup ∧
      (∀ p ∈ s.issued, ∀ q ∈ s.issued, p.1 < q.1 → p.2 < q.2) ∧
      ∀ p ∈ s.issued, ∃ hwm, s.hwm = some hwm ∧ p.2 ≤ hwm := by
  intro s
  have hinv : Inv s := inv_run h
  refine ⟨?_, ?_, ?_⟩
  · rw [List.Nodup, List.pairwise_map]
    exact hinv.increasing.imp fun hlt heq => by
      rw [heq] at hlt
      exact UInt64.lt_irrefl _ hlt.2
  · -- The log is ordered by time, and a later epoch stands earlier in it.
    intro p hp q hq hlt
    obtain ⟨i, hi, rfl⟩ := List.getElem_of_mem hp
    obtain ⟨j, hj, rfl⟩ := List.getElem_of_mem hq
    rcases lt_trichotomy i j with hij | rfl | hji
    · have := (List.pairwise_iff_getElem.mp hinv.increasing i j hi hj hij).1
      omega
    · omega
    · exact (List.pairwise_iff_getElem.mp hinv.increasing j i hj hi hji).2
  · intro p hp
    have hle : p.2 ≤ ceiling s.hwm :=
      UInt64.le_trans (UInt64.le_trans (hinv.issued_le p hp).2 hinv.last_le) hinv.hi_le
    cases hhwm : s.hwm with
    | none =>
      rw [hhwm] at hle
      exact absurd (UInt64.lt_of_lt_of_le (hinv.positive p hp) hle) (UInt64.lt_irrefl 0)
    | some hwm =>
      rw [hhwm] at hle
      exact ⟨hwm, rfl, hle⟩

/-- A stamp, a restart, and a stamp by a call whose clock stepped back. -/
def restartRun : List Event :=
  [.readClock 0 100, .loadLast 0, .checkCeiling 0, .lock 0, .recheck 0, .putOk 0, .storeHi 0,
    .compareAndSwap 0, .restart, .readClock 1 5, .loadLast 1, .checkCeiling 1, .lock 1,
    .recheck 1, .putOk 1, .storeHi 1, .compareAndSwap 1]

theorem stamps_never_repeat_restartRun :
    let s := run step State.init restartRun
    s.issued = [(1, 60000000101), (0, 100)] ∧ (s.issued.map Prod.snd).Nodup ∧
      (∀ p ∈ s.issued, ∀ q ∈ s.issued, p.1 < q.1 → p.2 < q.2) ∧
      ∀ p ∈ s.issued, ∃ hwm, s.hwm = some hwm ∧ p.2 ≤ hwm :=
  ⟨by decide +kernel, stamps_never_repeat (by decide +kernel)⟩

end OCache.Version
