import OCache.Lib.EventSystem
import OCache.SegmentFile.Format

/-!
# The capacity of segments

Compactor workers and passes of the recompactor fill segments at the same time. Each takes an open
segment from the manager and reserves it, checks before every entry that the entry fits, and
otherwise closes the segment and takes another one. The manager looks for a segment with at least
`needed` bytes left, but both callers pass `needed = 0` and write the entry without another check.
So a segment that another worker filled and released is handed out, and the entry runs over its end.

The steps of different callers interleave. `acquireOpenSegmentWithReservation` and the operations of
a segment run under locks and are one step each; the manager passes by segments that are locked, or
were reserved when it looked at them. If the payload copy of `writeEntry` fails, the segment is as
before.
-/

namespace OCache.Compaction

open EventSystem SegmentFile

/-! ## Segments and callers -/

/-- A caller of the manager: a worker of the compactor, or the pass over an old segment. -/
inductive Caller where
  | compactor (worker : Nat)
  | recompactor (old : Nat)
deriving DecidableEq

/-- A segment of the manager. -/
structure Segment where
  /-- The file is open for writing (`file != nil`). -/
  opened : Bool := false
  /-- The bytes written so far. -/
  size : Nat := 0
  /-- The caller that the segment is reserved for. -/
  reservedBy : Option Caller := none

/-- What is copied to a segment. -/
structure Entry where
  key : List UInt8
  valueLength : Nat

/-- Header and value of an entry, `totalNeeded` at both callers. -/
def Entry.needed (e : Entry) : Nat := calculateValueHeaderSize e.key + e.valueLength

/-- Where a caller stands. -/
inductive Worker where
  | idle
  /-- Between two entries. -/
  | holding (seg : Nat)
  /-- The entry fits and is about to be written. -/
  | writing (seg : Nat) (e : Entry)
  /-- The segment is full and is about to be finalized. -/
  | finalizing (seg : Nat) (e : Entry)
  /-- The segment is closed and is about to leave the list of open segments. -/
  | dropping (seg : Nat) (e : Entry)
  | releasing (seg : Nat) (e : Entry)
  /-- A segment for the entry is about to be acquired. -/
  | acquiring (seg : Nat) (e : Entry)

/-- The segment of a caller. -/
@[simp] def Worker.seg : Worker → Option Nat
  | .idle => none
  | .holding p | .writing p _ | .finalizing p _ | .dropping p _ | .releasing p _ | .acquiring p _ =>
    some p

/-- The segment that a caller has closed. -/
@[simp] def Worker.closed : Worker → Option Nat
  | .dropping p _ | .releasing p _ | .acquiring p _ => some p
  | _ => none

/-- The entry that a caller is about to write. -/
@[simp] def Worker.entry : Worker → Option Entry
  | .writing _ e | .finalizing _ e | .dropping _ e | .releasing _ e | .acquiring _ e => some e
  | _ => none

/-- A successful `WriteEntry`. -/
structure Write where
  seg : Nat
  /-- The size of the segment afterwards. -/
  size : Nat
deriving DecidableEq

/-- The manager and its callers. -/
structure State where
  segments : Nat → Segment
  /-- The number of segments so far. Segments are numbered in the order of their creation. -/
  created : Nat
  /-- `openSegments` -/
  openSegments : List Nat
  workers : Caller → Worker
  /-- Every `WriteEntry` so far, newest first. Nothing reads it. -/
  log : List Write

/-- Nobody has reserved a segment, and nothing was written. The segments that were loaded may have
any size. -/
structure State.Initial (s : State) : Prop where
  workers : ∀ c, s.workers c = .idle
  openSegments : ∀ p ∈ s.openSegments, p < s.created
  log : s.log = []

/-- A manager without segments. -/
def State.empty : State where
  segments _ := {}
  created := 0
  openSegments := []
  workers _ := .idle
  log := []

lemma initial_empty : State.empty.Initial := ⟨fun _ => rfl, by simp [State.empty], rfl⟩

/-! ## Operations -/

section Operations

variable (segmentSize : Nat)

variable (seg : Segment)

/-- `Remaining` -/
def Segment.remaining : ℤ := segmentSize - seg.size

/-- `Release` -/
def Segment.release (c : Caller) : Segment :=
  { seg with reservedBy := if seg.reservedBy = some c then none else seg.reservedBy }

/-- How `Finalize` ends. A failure can come after the footer was counted. -/
inductive Finalized where
  | ok
  | failed (footer : Bool)
deriving DecidableEq

/-- `Finalize` -/
def Segment.finalize : Finalized → Segment
  | .ok =>
    if seg.opened then
      { opened := false
        size := seg.size + segmentFooterSize
        reservedBy := none }
    else seg
  | .failed footer =>
    if seg.opened ∧ footer then { seg with size := seg.size + segmentFooterSize } else seg

namespace State

variable (s : State)

def setSegment (p : Nat) (seg : Segment) : State :=
  { s with segments := Function.update s.segments p seg }

def setWorker (c : Caller) (w : Worker) : State :=
  { s with workers := Function.update s.workers c w }

/-- The segment that the scan of the manager finds for a caller. -/
def findOpen (c : Caller) (needed : Nat) (passed : Nat → Bool) : Option Nat :=
  s.openSegments.find? fun p =>
    !passed p && (s.segments p).opened && needed ≤ (s.segments p).remaining segmentSize &&
      ((s.segments p).reservedBy = none || (s.segments p).reservedBy = some c)

/-- `AcquireOpenSegmentWithReservation`, with the segment. -/
def acquireOpenSegmentWithReservation (c : Caller) (needed : Nat) (passed : Nat → Bool) :
    State × Nat :=
  match s.findOpen segmentSize c needed passed with
  | some p => (s.setSegment p { s.segments p with reservedBy := some c }, p)
  | none =>
    ({ s.setSegment s.created ⟨true, 0, some c⟩ with
        created := s.created + 1
        openSegments := s.openSegments ++ [s.created] }, s.created)

/-- The second half of `FinalizeSegment`: the segment leaves the list, the last one takes its
place. -/
def dropOpen (p : Nat) : State :=
  { s with
    openSegments :=
      if p ∈ s.openSegments then
        (s.openSegments.set (s.openSegments.idxOf p) (s.openSegments.getLastD p)).dropLast
      else s.openSegments }

/-- `WriteEntry` -/
def writeEntry (p : Nat) (e : Entry) (ok : Bool) : State :=
  let seg := s.segments p
  if seg.opened ∧ ok then
    { s.setSegment p { seg with size := seg.size + e.needed } with
      log := ⟨p, seg.size + e.needed⟩ :: s.log }
  else s

end State

/-! ## Steps -/

/-- A step of a caller with what its environment decides. -/
inductive Event where
  /-- Acquire a segment, at the start or for an entry; `ok` is whether a new one could be made. -/
  | acquire (c : Caller) (passed : Nat → Bool) (ok : Bool)
  /-- Take the next entry and check the capacity. -/
  | next (c : Caller) (e : Entry)
  | write (c : Caller) (ok : Bool)
  /-- Commit what was copied and finalize; a failed or cancelled commit counts as a failure. -/
  | finalize (c : Caller) (outcome : Finalized)
  | drop (c : Caller)
  /-- Release the segment, after closing it or at the end of the run. -/
  | release (c : Caller)

/-- A caller whose new segment could not be made: `ensureCapacity` leaves the compactor with the
closed one, `copyEntry` leaves the recompactor with none. -/
def Caller.afterFailedAcquire (p : Nat) : Caller → Worker
  | .compactor _ => .holding p
  | .recompactor _ => .idle

def step (s : State) : Event → State
  | .acquire c passed ok =>
    -- The size that is asked for is zero at every call of the source.
    let (s', p) := s.acquireOpenSegmentWithReservation segmentSize c 0 passed
    let failed := !ok && (s.findOpen segmentSize c 0 passed).isNone
    match s.workers c with
    | .idle => if failed then s else s'.setWorker c (.holding p)
    | .acquiring old e =>
      if failed then s.setWorker c (c.afterFailedAcquire old) else s'.setWorker c (.writing p e)
    | _ => s
  | .next c e =>
    match s.workers c with
    -- `ensureCapacity` and `copyEntry` compare before they write.
    | .holding p =>
      s.setWorker c
        (if e.needed ≤ (s.segments p).remaining segmentSize then .writing p e else .finalizing p e)
    | _ => s
  | .write c ok =>
    match s.workers c with
    | .writing p e => (s.writeEntry p e ok).setWorker c (.holding p)
    | _ => s
  | .finalize c outcome =>
    match s.workers c with
    -- A failed finalization leaves the caller with the segment it had.
    | .finalizing p e =>
      (s.setSegment p ((s.segments p).finalize outcome)).setWorker c
        (if outcome = .ok then .dropping p e else .holding p)
    | _ => s
  | .drop c =>
    match s.workers c with
    | .dropping p e => (s.dropOpen p).setWorker c (.releasing p e)
    | _ => s
  | .release c =>
    match s.workers c with
    | .holding p => (s.setSegment p ((s.segments p).release c)).setWorker c .idle
    | .releasing p e =>
      (s.setSegment p ((s.segments p).release c)).setWorker c (.acquiring p e)
    | _ => s

/-- Entries fit into an empty segment. -/
def fitsEmpty : Event → Bool
  | .next _ e => e.needed ≤ segmentSize
  | _ => true

/-- A segment that a caller finds for an entry, after closing a full one, has room for it. -/
def roomAfterRoll (s : State) : Event → Bool
  | .acquire c passed _ =>
    (s.workers c).closed.isNone || (s.workers c).entry.all fun e =>
      (s.findOpen segmentSize c 0 passed).all fun p => (s.segments p).size + e.needed ≤ segmentSize
  | _ => true

end Operations

/-! ## Invariant -/

variable {segmentSize : Nat}

/-- An open segment of a caller is reserved for it, and what is about to be written has room. -/
structure Inv (segmentSize : Nat) (s : State) : Prop where
  created : ∀ c p, (s.workers c).seg = some p → p < s.created
  openSegments : ∀ p ∈ s.openSegments, p < s.created
  reserved : ∀ c p, (s.workers c).seg = some p → (s.segments p).opened = true →
    (s.segments p).reservedBy = some c
  closed : ∀ c p, (s.workers c).closed = some p → (s.segments p).opened = false
  room : ∀ c p e, s.workers c = .writing p e → (s.segments p).opened = true →
    (s.segments p).size + e.needed ≤ segmentSize
  fits : ∀ c e, (s.workers c).entry = some e → e.needed ≤ segmentSize
  log : ∀ w ∈ s.log, w.size ≤ segmentSize

lemma State.Initial.inv {s : State} (h : s.Initial) : Inv segmentSize s where
  created c p hc := by simp [h.workers] at hc
  openSegments := h.openSegments
  reserved c p hc := by simp [h.workers] at hc
  closed c p hc := by simp [h.workers] at hc
  room c p e hc := by simp [h.workers] at hc
  fits c e hc := by simp [h.workers] at hc
  log := by simp [h.log]

lemma Worker.seg_of_closed {w : Worker} {p : Nat} (h : w.closed = some p) : w.seg = some p := by
  cases w <;> simp_all

namespace Inv

variable {s s' : State} {c : Caller} {w : Worker} {p : Nat} {seg : Segment}

/-- What has to be said about a step in which a caller goes to `w` and one segment becomes `seg`. -/
structure Moves (segmentSize : Nat) (s s' : State) (c : Caller) (w : Worker) (p : Nat)
    (seg : Segment) : Prop where
  workers : s'.workers = Function.update s.workers c w
  segments : s'.segments = Function.update s.segments p seg
  created : s.created ≤ s'.created
  openSegments : ∀ p ∈ s'.openSegments, p < s'.created
  /-- Other callers of the segment, if there are any, find it closed. -/
  others : ∀ c', c' ≠ c → (s.workers c').seg = some p → seg.opened = false
  /-- The caller stays at its segment or goes to none. -/
  at_seg : w.seg = some p ∨ w.seg = none
  bound : w.seg = some p → p < s'.created
  reserved : w.seg = some p → seg.opened = true → seg.reservedBy = some c
  closed : w.closed = some p → seg.opened = false
  room : ∀ e, w = .writing p e → seg.opened = true → seg.size + e.needed ≤ segmentSize
  fits : ∀ e, w.entry = some e → e.needed ≤ segmentSize
  log : ∀ l ∈ s'.log, l.size ≤ segmentSize

variable (h : Inv segmentSize s)

include h

lemma moves (hm : Moves segmentSize s s' c w p seg) : Inv segmentSize s' := by
  -- A caller is the one that moves, or it is as before.
  have hself : s'.workers c = w := by simp [hm.workers]
  have hother : ∀ c', c' ≠ c → s'.workers c' = s.workers c' :=
    fun c' hc => by simp [hm.workers, hc]
  have hseg : s'.segments p = seg := by simp [hm.segments]
  have hne : ∀ q, q ≠ p → s'.segments q = s.segments q :=
    fun q hq => by simp [hm.segments, hq]
  have hat : ∀ q, w.seg = some q → q = p := by
    intro q hq
    rcases hm.at_seg with hp | hp
    · exact Option.some.inj (hq.symm.trans hp)
    · cases hq.symm.trans hp
  exact {
    created := fun c' q hq => by
      by_cases hc : c' = c
      · subst hc
        rw [hself] at hq
        obtain rfl := hat q hq
        exact hm.bound hq
      · rw [hother c' hc] at hq
        exact (h.created c' q hq).trans_le hm.created
    openSegments := hm.openSegments
    reserved := fun c' q hq hopen => by
      by_cases hc : c' = c
      · subst hc
        rw [hself] at hq
        obtain rfl := hat q hq
        rw [hseg] at hopen ⊢
        exact hm.reserved hq hopen
      · rw [hother c' hc] at hq
        by_cases hqp : q = p
        · -- The segment that changes is open for the caller that moves only.
          subst hqp
          rw [hseg, hm.others c' hc hq] at hopen
          simp at hopen
        · rw [hne q hqp] at hopen ⊢
          exact h.reserved c' q hq hopen
    closed := fun c' q hq => by
      by_cases hc : c' = c
      · subst hc
        rw [hself] at hq
        obtain rfl := hat q (Worker.seg_of_closed hq)
        rw [hseg]
        exact hm.closed hq
      · rw [hother c' hc] at hq
        by_cases hqp : q = p
        · subst hqp
          rw [hseg]
          exact hm.others c' hc (Worker.seg_of_closed hq)
        · rw [hne q hqp]
          exact h.closed c' q hq
    room := fun c' q e hq hopen => by
      by_cases hc : c' = c
      · subst hc
        rw [hself] at hq
        obtain rfl := hat q (by rw [hq]; rfl)
        rw [hseg] at hopen ⊢
        exact hm.room e hq hopen
      · rw [hother c' hc] at hq
        by_cases hqp : q = p
        · subst hqp
          rw [hseg, hm.others c' hc (by rw [hq]; rfl)] at hopen
          simp at hopen
        · rw [hne q hqp] at hopen ⊢
          exact h.room c' q e hq hopen
    fits := fun c' e he => by
      by_cases hc : c' = c
      · subst hc
        rw [hself] at he
        exact hm.fits e he
      · rw [hother c' hc] at he
        exact h.fits c' e he
    log := hm.log }

/-- Two callers do not share an open segment. -/
theorem opened_eq_false (hp : (s.workers c).seg = some p) {c' : Caller}
    (hc : c' ≠ c) (hp' : (s.workers c').seg = some p) : (s.segments p).opened = false := by
  by_contra hopen
  rw [Bool.not_eq_false] at hopen
  have heq := (h.reserved c p hp hopen).symm.trans (h.reserved c' p hp' hopen)
  exact hc (Option.some.inj heq).symm

/-- A caller goes on with its own segment. -/
theorem own (w : Worker) (seg : Segment) (hp : (s.workers c).seg = some p)
    (hworkers : s'.workers = Function.update s.workers c w)
    (hsegments : s'.segments = Function.update s.segments p seg) (hcreated : s'.created = s.created)
    (hopens : ∀ q ∈ s'.openSegments, q ∈ s.openSegments)
    (hopened : seg.opened = true → (s.segments p).opened = true)
    (hat : w.seg = some p ∨ w.seg = none)
    (hreserved : w.seg = some p → seg.opened = true → seg.reservedBy = some c)
    (hclosed : w.closed = some p → seg.opened = false)
    (hroom : ∀ e, w = .writing p e → seg.opened = true → seg.size + e.needed ≤ segmentSize)
    (hfits : ∀ e, w.entry = some e → e.needed ≤ segmentSize)
    (hlog : ∀ l ∈ s'.log, l.size ≤ segmentSize) : Inv segmentSize s' := by
  refine h.moves (w := w) (p := p) ⟨hworkers, hsegments, hcreated.ge, ?_, ?_, hat, ?_, hreserved,
    hclosed, hroom, hfits, hlog⟩
  · intro q hq
    rw [hcreated]
    exact h.openSegments q (hopens q hq)
  · intro c' hc hp'
    -- Another caller can only have the segment if it is closed, and the step does not open it
    -- again.
    have hshut := h.opened_eq_false hp hc hp'
    by_contra hopen
    rw [hopened (by simpa using hopen)] at hshut
    simp at hshut
  · intro _
    rw [hcreated]
    exact h.created c p hp

end Inv

/-! ## Steps keep the invariant -/

section Steps

variable {s : State} {c : Caller} {p : Nat}

variable {passed : Nat → Bool}

lemma findOpen_spec {needed : Nat} (h : s.findOpen segmentSize c needed passed = some p) :
    p ∈ s.openSegments ∧ (s.segments p).opened = true ∧
      ((s.segments p).reservedBy = none ∨ (s.segments p).reservedBy = some c) := by
  have hmem := List.mem_of_find?_eq_some h
  have hfound := List.find?_some h
  simp only [Bool.and_eq_true, Bool.or_eq_true, decide_eq_true_eq] at hfound
  exact ⟨hmem, hfound.1.1.2, hfound.2⟩

section

variable (h : Inv segmentSize s)

include h

/-- A caller goes to the segment that it acquires, with room for the entry it has. -/
theorem Inv.acquire {needed : Nat} {w : Worker}
    (hat : w.seg = some (s.acquireOpenSegmentWithReservation segmentSize c needed passed).2)
    (hopen : w.closed = none)
    (hroom : ∀ p, s.findOpen segmentSize c needed passed = some p → ∀ q e, w = .writing q e →
      (s.segments p).size + e.needed ≤ segmentSize)
    (hfits : ∀ e, w.entry = some e → e.needed ≤ segmentSize) :
    Inv segmentSize
      ((s.acquireOpenSegmentWithReservation segmentSize c needed passed).1.setWorker c w) := by
  unfold State.acquireOpenSegmentWithReservation at hat ⊢
  split at hat
  · rename_i p hfound
    obtain ⟨hmem, hopened, hfree⟩ := findOpen_spec hfound
    refine h.moves (w := w) (p := p) ⟨rfl, rfl, le_rfl, h.openSegments, ?_, .inl hat,
      fun _ => h.openSegments p hmem, fun _ _ => rfl, hopen ▸ nofun, ?_, hfits, h.log⟩
    · -- The segment was free, so no other caller is at it.
      intro c' hc hp'
      have hreserved := h.reserved c' p hp' hopened
      rcases hfree with hnone | hself
      · simp [hnone] at hreserved
      · exact absurd (Option.some.inj (hself.symm.trans hreserved)).symm hc
    · intro e hw _
      exact hroom p hfound p e hw
  · rename_i hfound
    refine h.moves (w := w) (p := s.created) ⟨rfl, rfl, by simp [State.setWorker], ?_, ?_, .inl hat,
      fun _ => by simp [State.setWorker], fun _ _ => rfl, hopen ▸ nofun, ?_, hfits, h.log⟩
    · intro q hq
      simp only [State.setWorker, List.mem_append, List.mem_singleton] at hq ⊢
      rcases hq with hq | rfl
      · exact (h.openSegments q hq).trans (Nat.lt_succ_self _)
      · exact Nat.lt_succ_self _
    · -- Nobody is at a segment that does not exist yet.
      intro c' _ hp'
      exact absurd (h.created c' _ hp') (lt_irrefl _)
    · intro e hw _
      simpa using hfits e (by rw [hw]; rfl)

lemma inv_acquire {ok : Bool} (hroom : roomAfterRoll segmentSize s (.acquire c passed ok) = true) :
    Inv segmentSize (step segmentSize s (.acquire c passed ok)) := by
  simp only [step]
  split
  · split
    · exact h
    · exact h.acquire rfl rfl (by simp) (by simp)
  · rename_i old e hw
    have hfits : e.needed ≤ segmentSize := h.fits c e (by rw [hw]; rfl)
    have hclosed : (s.segments old).opened = false := h.closed c old (by rw [hw]; rfl)
    split
    · -- The compactor keeps a segment that nobody can write to.
      refine h.own (c.afterFailedAcquire old) (s.segments old) (by rw [hw]; rfl)
        rfl (Function.update_eq_self _ _).symm rfl (fun _ hq => hq) id ?_ (by simp [hclosed])
        (fun _ => hclosed) (by simp [hclosed]) ?_ h.log
      · cases c <;> simp [Caller.afterFailedAcquire]
      · intro e' he'
        cases c <;> simp [Caller.afterFailedAcquire] at he'
    · refine h.acquire rfl rfl ?_ ?_
      · intro p hfound q e' he'
        cases he'
        simpa [roomAfterRoll, hw, hfound] using hroom
      · rintro e' ⟨⟩
        exact hfits
  · exact h

lemma inv_next {e : Entry} (hfits : e.needed ≤ segmentSize) :
    Inv segmentSize (step segmentSize s (.next c e)) := by
  simp only [step]
  split
  · rename_i p hw
    have hp : (s.workers c).seg = some p := by rw [hw]; rfl
    refine h.own _ (s.segments p) hp rfl (Function.update_eq_self _ _).symm rfl
      (fun _ hq => hq) id ?_ (fun _ => h.reserved c p hp) ?_ ?_ ?_ h.log
    · split <;> exact .inl rfl
    · split <;> simp
    · intro e' he' _
      split at he'
      · -- The check, on integers because a full segment may be over its end.
        rename_i hremaining
        cases he'
        simp only [Segment.remaining] at hremaining
        omega
      · simp at he'
    · intro e' he'
      split at he' <;> cases he' <;> exact hfits
  · exact h

lemma inv_write (ok : Bool) : Inv segmentSize (step segmentSize s (.write c ok)) := by
  simp only [step]
  split
  · rename_i p e hw
    have hp : (s.workers c).seg = some p := by rw [hw]; rfl
    unfold State.writeEntry
    dsimp only
    split
    · rename_i hwritten
      have hroom := h.room c p e hw hwritten.1
      refine h.own (.holding p) _ hp rfl rfl rfl (fun _ hq => hq) id (.inl rfl)
        (fun _ => h.reserved c p hp) (by simp) (by simp) (by simp) ?_
      intro l hl
      rcases List.mem_cons.mp hl with rfl | hl
      · exact hroom
      · exact h.log l hl
    · exact h.own (.holding p) (s.segments p) hp rfl
        (Function.update_eq_self _ _).symm rfl (fun _ hq => hq) id (.inl rfl)
        (fun _ => h.reserved c p hp) (by simp) (by simp) (by simp) h.log
  · exact h

lemma inv_finalize (outcome : Finalized) :
    Inv segmentSize (step segmentSize s (.finalize c outcome)) := by
  simp only [step]
  split
  · rename_i p e hw
    have hp : (s.workers c).seg = some p := by rw [hw]; rfl
    have hfits : e.needed ≤ segmentSize := h.fits c e (by rw [hw]; rfl)
    have hreserved := h.reserved c p hp
    cases outcome with
    | ok =>
      have hshut : ((s.segments p).finalize .ok).opened = false := by
        simp only [Segment.finalize]
        split
        · rfl
        · rename_i hshut
          simpa using hshut
      refine h.own (.dropping p e) _ hp rfl rfl rfl (fun _ hq => hq) (by simp [hshut])
        (.inl rfl) (by simp [hshut]) (fun _ => hshut) (by simp) ?_ h.log
      rintro e' ⟨⟩
      exact hfits
    -- The segment stays open and reserved.
    | failed footer =>
      have hkept : ((s.segments p).finalize (.failed footer)).opened = (s.segments p).opened ∧
          ((s.segments p).finalize (.failed footer)).reservedBy = (s.segments p).reservedBy := by
        simp only [Segment.finalize]
        split <;> exact ⟨rfl, rfl⟩
      exact h.own (.holding p) _ hp rfl rfl rfl (fun _ hq => hq) (by simp [hkept.1])
        (.inl rfl) (by simpa [hkept] using hreserved) (by simp) (by simp)
        (by simp) h.log
  · exact h

end

lemma mem_of_mem_dropOpen {q : Nat} (h : q ∈ (s.dropOpen p).openSegments) : q ∈ s.openSegments := by
  unfold State.dropOpen at h
  dsimp only at h
  split at h
  · rename_i hp
    rcases List.mem_or_eq_of_mem_set (List.mem_of_mem_dropLast h) with hq | hq
    · exact hq
    · have hne : s.openSegments ≠ [] := List.ne_nil_of_mem hp
      rw [hq, List.getLastD_eq_getLast?, List.getLast?_eq_some_getLast hne, Option.getD_some]
      exact List.getLast_mem hne
  · exact h

variable (h : Inv segmentSize s)

include h

lemma inv_drop : Inv segmentSize (step segmentSize s (.drop c)) := by
  simp only [step]
  split
  · rename_i p e hw
    have hp : (s.workers c).seg = some p := by rw [hw]; rfl
    have hshut := h.closed c p (by rw [hw]; rfl)
    refine h.own (.releasing p e) (s.segments p) hp rfl
      (Function.update_eq_self _ _).symm rfl (fun _ hq => mem_of_mem_dropOpen hq) id (.inl rfl)
      (by simp [hshut]) (fun _ => hshut) (by simp) ?_ h.log
    rintro _ ⟨⟩
    exact h.fits c e (by rw [hw]; rfl)
  · exact h

lemma inv_release : Inv segmentSize (step segmentSize s (.release c)) := by
  simp only [step]
  split
  · rename_i p hw
    exact h.own .idle ((s.segments p).release c) (by rw [hw]; rfl) rfl rfl rfl
      (fun _ hq => hq) id (.inr rfl) (by simp) (by simp) (by simp)
      (by simp) h.log
  · rename_i p e hw
    have hshut : ((s.segments p).release c).opened = false := h.closed c p (by rw [hw]; rfl)
    refine h.own (.acquiring p e) _ (by rw [hw]; rfl) rfl rfl rfl (fun _ hq => hq)
      (by simp [hshut]) (.inl rfl) (by simp [hshut]) (fun _ => hshut) (by simp) ?_ h.log
    rintro _ ⟨⟩
    exact h.fits c e (by rw [hw]; rfl)
  · exact h

lemma inv_step {e : Event} (hfits : fitsEmpty segmentSize e = true)
    (hroom : roomAfterRoll segmentSize s e = true) : Inv segmentSize (step segmentSize s e) := by
  cases e with
  | acquire c passed ok => exact inv_acquire h hroom
  | next c e => exact inv_next h (by simpa [fitsEmpty] using hfits)
  | write c ok => exact inv_write h ok
  | finalize c outcome => exact inv_finalize h outcome
  | drop c => exact inv_drop h
  | release c => exact inv_release h

end Steps

/-! ## Runs -/

/-- For every segment size, every number of callers and every interleaving of their steps: if
entries fit into an empty segment, and a segment that is found after closing a full one has room for
the entry, no write runs over the end of its segment. -/
theorem writes_fit (segmentSize : Nat) {s : State} (hs : s.Initial) (es : List Event)
    (h : RunOk (step segmentSize)
      (fun s e => fitsEmpty segmentSize e = true ∧ roomAfterRoll segmentSize s e = true) s es) :
    ∀ w ∈ (run (step segmentSize) s es).log, w.size ≤ segmentSize :=
  (invariant_run (I := Inv segmentSize) (fun _ _ hI hok => inv_step hI hok.1 hok.2) hs.inv h).log

/-- Header and value have 80 bytes. -/
def eightyBytes : Entry := ⟨[], 62⟩

/-- Two compactor workers with a segment each. Worker 0 fills its segment to 80 of 100 bytes and
releases it; worker 1 has to close its own, and then takes that of worker 0. -/
def releasedSegment : List Event :=
  [.acquire (.compactor 1) (fun _ => false) true, .acquire (.compactor 0) (fun _ => false) true,
    .next (.compactor 0) eightyBytes, .write (.compactor 0) true, .release (.compactor 0),
    .next (.compactor 1) eightyBytes, .write (.compactor 1) true,
    .next (.compactor 1) eightyBytes, .finalize (.compactor 1) .ok, .drop (.compactor 1),
    .release (.compactor 1), .acquire (.compactor 1) (fun _ => false) true,
    .write (.compactor 1) true]

/-- The segment of 100 bytes ends up with 160. -/
theorem roll_overflows :
    (∀ e ∈ releasedSegment, fitsEmpty 100 e = true) ∧
      (run (step 100) State.empty releasedSegment).log = [⟨1, 160⟩, ⟨0, 80⟩, ⟨1, 80⟩] := by
  decide +kernel

/-- A worker and the recompactor; the worker's next segment is a new one, the recompactor's has
room. -/
def roomyRun : List Event :=
  [.acquire (.compactor 0) (fun _ => false) true, .next (.compactor 0) eightyBytes,
    .acquire (.recompactor 7) (fun _ => false) true, .next (.recompactor 7) ⟨[1], 21⟩,
    .write (.recompactor 7) true, .write (.compactor 0) true, .next (.compactor 0) eightyBytes,
    .finalize (.compactor 0) .ok, .drop (.compactor 0), .release (.compactor 0),
    .acquire (.compactor 0) (fun _ => false) true, .write (.compactor 0) true,
    .release (.recompactor 7)]

theorem writes_fit_roomyRun :
    RunOk (step 100) (fun s e => fitsEmpty 100 e = true ∧ roomAfterRoll 100 s e = true) State.empty
        roomyRun ∧
      ∀ w ∈ (run (step 100) State.empty roomyRun).log, w.size ≤ 100 := by
  have hok : RunOk (step 100) (fun s e => fitsEmpty 100 e = true ∧ roomAfterRoll 100 s e = true)
      State.empty roomyRun := by decide +kernel
  exact ⟨hok, writes_fit 100 initial_empty roomyRun hok⟩

end OCache.Compaction
