import OCache.Lib.EventSystem
import OCache.Lib.Total

/-!
# Reconciling the size counter while writes go on

`reconcileFromMetadata` pins a snapshot, loads the size counter, adds up the snapshot and adds the
difference to the counter. A `Put` commits its row and then adds the difference in size; a
`DeleteKey` subtracts the size and then removes the row. The writes are on distinct keys.

A write that the snapshot and the loaded counter both have, or both miss, is accounted for once. One
that stands between its two steps while the reconcile makes its two reads is seen by one of them
only, and its size stays in the counter twice or not at all.
-/

namespace OCache.Reconcile

open EventSystem Total

/-! ## The system -/

/-- The metadata rows, by the length of the value. -/
abbrev Rows := AList fun _ : String => ℤ

/-- Where a write stands. -/
inductive Call where
  | put (key : String) (length : ℤ)
  /-- `putLow` has read the size of the row it replaces. -/
  | putRead (key : String) (length prevSize : ℤ)
  /-- The row is committed, `notifyPut` is next. -/
  | putCommitted (delta : ℤ)
  | delete (key : String)
  | deleteRead (key : String) (length : ℤ)
  /-- `notifyDelete` was called, the row is still there. -/
  | deleteNotified (key : String) (length : ℤ)
  | done (delta : ℤ)

/-- Where `reconcileFromMetadata` stands. -/
inductive Progress where
  | idle
  | pinned (snapshot : Rows)
  | loaded (snapshot : Rows) (tracked : ℤ)
  | finished

/-- The rows, the counter and all executions. -/
structure State where
  rows : Rows
  totalSize : ℤ
  calls : List Call
  reconcile : Progress

def State.setCall (s : State) (i : Nat) (c : Call) : State := { s with calls := s.calls.set i c }

/-- The next step of a write. -/
def advance (s : State) (i : Nat) : State :=
  match s.calls[i]? with
  | some (.put key length) => s.setCall i (.putRead key length (weight id (s.rows.lookup key)))
  | some (.putRead key length prevSize) =>
    { s with rows := s.rows.insert key length }.setCall i (.putCommitted (length - prevSize))
  | some (.putCommitted delta) =>
    { s with totalSize := s.totalSize + delta }.setCall i (.done delta)
  | some (.delete key) =>
    match s.rows.lookup key with
    | some length => s.setCall i (.deleteRead key length)
    | none => s.setCall i (.done 0)
  | some (.deleteRead key length) =>
    { s with totalSize := s.totalSize - length }.setCall i (.deleteNotified key length)
  | some (.deleteNotified key length) =>
    { s with rows := s.rows.erase key }.setCall i (.done (-length))
  | some (.done _) | none => s

/-- A step of the system. -/
inductive Event where
  | advance (i : Nat)
  | snapshot
  | load
  /-- The scan is complete. -/
  | correct

def step (s : State) : Event → State
  | .advance i => advance s i
  | .snapshot =>
    match s.reconcile with
    | .idle => { s with reconcile := .pinned s.rows }
    | _ => s
  | .load =>
    match s.reconcile with
    | .pinned snapshot => { s with reconcile := .loaded snapshot s.totalSize }
    | _ => s
  | .correct =>
    match s.reconcile with
    | .loaded snapshot tracked =>
      { s with totalSize := s.totalSize + (total id snapshot - tracked), reconcile := .finished }
    | _ => s

/-! ## What the writes have done so far -/

namespace Call

/-- What the write has added to the counter. -/
@[simp] def counted : Call → ℤ
  | deleteNotified _ length => -length
  | done delta => delta
  | _ => 0

/-- What the write has added to the rows. -/
@[simp] def committed : Call → ℤ
  | putCommitted delta | done delta => delta
  | _ => 0

/-- The key whose row the write is yet to change. -/
def key? : Call → Option String
  | put key _ | putRead key .. | delete key | deleteRead key _ | deleteNotified key _ => some key
  | _ => none

def isStart : Call → Bool
  | put .. | delete _ => true
  | _ => false

def isDone : Call → Bool
  | done _ => true
  | _ => false

/-- What the write has read is still so. -/
def Current (rows : Rows) : Call → Prop
  | putRead key _ prevSize => prevSize = weight id (rows.lookup key)
  | deleteRead key length | deleteNotified key length => rows.lookup key = some length
  | _ => True

end Call

variable (calls : List Call)

/-- What all writes have added to the counter. -/
def counted : ℤ := (calls.map Call.counted).sum

/-- What all writes have added to the rows. -/
def committed : ℤ := (calls.map Call.committed).sum

/-- Two writes have different keys. -/
def Distinct : Prop :=
  ∀ (i j : Nat) (c d : Call) (key : String), calls[i]? = some c → calls[j]? = some d →
    c.key? = some key → d.key? = some key → i = j

/-- The reads of all writes are current. -/
structure Current (s : State) : Prop where
  distinct : Distinct s.calls
  calls : ∀ (i : Nat) (c : Call), s.calls[i]? = some c → c.Current s.rows

/-- No write has begun and no reconcile runs. -/
structure Start (s : State) : Prop where
  distinct : Distinct s.calls
  calls : ∀ c ∈ s.calls, c.isStart = true
  reconcile : s.reconcile = .idle

/-- All writes have returned. -/
def Finished (s : State) : Prop := ∀ c ∈ s.calls, c.isDone = true

instance (s : State) : Decidable (Finished s) := inferInstanceAs (Decidable (∀ c ∈ s.calls, _))

/-! ## Steps of writes -/

section Advance

variable {s : State} {i : Nat}

variable {c d : Call} {n : ℤ} {rows : Rows}

/-- A write goes on under the same key, or leaves its key. -/
theorem Distinct.set {calls : List Call} (h : Distinct calls) (hc : calls[i]? = some c)
    (hkey : ∀ key, d.key? = some key → c.key? = some key) : Distinct (calls.set i d) := by
  have hold : ∀ (j : Nat) (e : Call) (key : String), (calls.set i d)[j]? = some e →
      e.key? = some key → ∃ e' : Call, calls[j]? = some e' ∧ e'.key? = some key := by
    intro j e key hj hk
    rw [List.getElem?_set] at hj
    split at hj
    · rename_i hij
      subst hij
      split at hj
      · obtain rfl := Option.some.inj hj
        exact ⟨c, hc, hkey key hk⟩
      · simp at hj
    · exact ⟨e, hj, hk⟩
  intro j k e f key hj hk he hf
  obtain ⟨e', hj', he'⟩ := hold j e key hj he
  obtain ⟨f', hk', hf'⟩ := hold k f key hk hf
  exact h j k e' f' key hj' hk' he' hf'

variable (h : Current s)

include h

/-- The write `c` goes on as `d` and changes at most the row of its key. -/
theorem Current.set (hc : s.calls[i]? = some c)
    (hkey : ∀ key, d.key? = some key → c.key? = some key) (hd : d.Current rows)
    (hrows : ∀ key, c.key? ≠ some key → rows.lookup key = s.rows.lookup key) :
    Current ({ s with rows := rows, totalSize := n }.setCall i d) := by
  refine ⟨h.distinct.set hc hkey, fun j e hj => ?_⟩
  simp only [State.setCall] at hj ⊢
  by_cases hij : i = j
  · subst hij
    rw [List.getElem?_set_self (by exact (List.getElem?_eq_some_iff.mp hc).1)] at hj
    exact Option.some.inj hj ▸ hd
  · rw [List.getElem?_set_ne hij] at hj
    have hold := h.calls j e hj
    -- Another write has another key.
    have hne : ∀ key, e.key? = some key → c.key? ≠ some key :=
      fun key he hck => hij (h.distinct i j c e key hc hj hck he)
    cases e with
    | putRead key length prevSize | deleteRead key length | deleteNotified key length =>
      simp only [Call.Current] at hold ⊢
      rw [hrows key (hne key rfl), hold]
    | _ => trivial

/-- What a step of a write adds to the counter and to the rows is what the write says it added. -/
structure Booked (s s' : State) : Prop where
  current : Current s'
  counter : s'.totalSize - counted s'.calls = s.totalSize - counted s.calls
  rows : total id s'.rows - committed s'.calls = total id s.rows - committed s.calls
  reconcile : s'.reconcile = s.reconcile

lemma booked_set (hc : s.calls[i]? = some c) (hkey : ∀ key, d.key? = some key → c.key? = some key)
    (hd : d.Current rows) (hrows : ∀ key, c.key? ≠ some key → rows.lookup key = s.rows.lookup key)
    (hcounted : n = s.totalSize - c.counted + d.counted)
    (hcommitted : total id rows = total id s.rows - c.committed + d.committed) :
    Booked s ({ s with rows := rows, totalSize := n }.setCall i d) where
  current := h.set hc hkey hd hrows
  counter := by
    simp only [State.setCall, counted, sum_map_set Call.counted hc d, hcounted]
    ring
  rows := by
    simp only [State.setCall, committed, sum_map_set Call.committed hc d, hcommitted]
    ring
  reconcile := rfl

lemma booked_advance : Booked s (advance s i) := by
  have hskip : Booked s s := ⟨h, rfl, rfl, rfl⟩
  unfold advance
  split
  · rename_i key length hc
    exact booked_set h hc (fun _ hk => hk) rfl (fun _ _ => rfl) (by simp)
      (by simp)
  · -- The put commits: the row it replaces has the size it read.
    rename_i key length prevSize hc
    have hprev : prevSize = weight id (s.rows.lookup key) := h.calls i _ hc
    refine booked_set h hc (by simp [Call.key?]) trivial (fun k hk => ?_) (by simp) ?_
    · have hne : k ≠ key := by
        rintro rfl
        exact hk rfl
      exact AList.lookup_insert_ne hne
    · rw [total_insert, hprev]
      simp only [Call.committed, id]
      ring
  · rename_i delta hc
    exact booked_set h hc (by simp [Call.key?]) trivial (fun _ _ => rfl) (by simp)
      (by simp)
  · rename_i key hc
    split
    · rename_i length hrow
      exact booked_set h hc (fun _ hk => hk) hrow (fun _ _ => rfl) (by simp)
        (by simp)
    · exact booked_set h hc (by simp [Call.key?]) trivial (fun _ _ => rfl) (by simp)
        (by simp)
  · rename_i key length hc
    have hrow : s.rows.lookup key = some length := h.calls i _ hc
    exact booked_set h hc (fun _ hk => hk) hrow (fun _ _ => rfl)
      (by simp [sub_eq_add_neg]) (by simp)
  · -- The delete commits: the row is the one it read.
    rename_i key length hc
    have hrow : s.rows.lookup key = some length := h.calls i _ hc
    refine booked_set h hc (by simp [Call.key?]) trivial (fun k hk => ?_) (by simp) ?_
    · have hne : k ≠ key := by
        rintro rfl
        exact hk rfl
      exact AList.lookup_erase_ne hne
    · rw [total_erase, hrow]
      simp only [Call.committed, weight_some, id]
      ring
  all_goals exact hskip

lemma Current.setProgress (n : ℤ) (r : Progress) :
    Current { s with totalSize := n, reconcile := r } := ⟨h.distinct, h.calls⟩

/-- Writes alone keep the books. -/
theorem booked_run (is : List Nat) : Booked s (run step s (is.map .advance)) := by
  induction is generalizing s with
  | nil => exact ⟨h, rfl, rfl, rfl⟩
  | cons i is ih =>
    have hi := booked_advance (i := i) h
    have his := ih hi.current
    exact ⟨his.current, his.counter.trans hi.counter, his.rows.trans hi.rows,
      his.reconcile.trans hi.reconcile⟩

end Advance

/-! ## Whole runs -/

section Reads

variable {s : State} {snapshot : Rows} {tracked : ℤ}

lemma step_snapshot (h : s.reconcile = .idle) :
    step s .snapshot = { s with reconcile := .pinned s.rows } := by
  simp [step, h]

lemma step_load (h : s.reconcile = .pinned snapshot) :
    step s .load = { s with reconcile := .loaded snapshot s.totalSize } := by
  simp [step, h]

lemma step_correct (h : s.reconcile = .loaded snapshot tracked) :
    step s .correct = { s with
      totalSize := s.totalSize + (total id snapshot - tracked), reconcile := .finished } := by
  simp [step, h]

end Reads

section Runs

variable (s : State) (pre mid scan post : List Nat)

/-- The state that the snapshot is taken of. -/
def atSnapshot : State := run step s (pre.map .advance)

/-- The state that the counter is loaded from. -/
def atLoad : State := run step (step (atSnapshot s pre) .snapshot) (mid.map .advance)

/-- The state that the correction is added to. -/
def atCorrection : State := run step (step (atLoad s pre mid) .load) (scan.map .advance)

/-- The end of a run with one reconcile: writes go on before it, between any two of its steps and
after it. -/
def reconciled : State :=
  run step (step (atCorrection s pre mid scan) .correct) (post.map .advance)

end Runs

section Results

variable {s : State}

lemma Start.current (h : Start s) : Current s := by
  refine ⟨h.distinct, fun i c hc => ?_⟩
  have hstart := h.calls c (List.mem_of_getElem? hc)
  cases c with
  | put | delete => trivial
  | _ => simp [Call.isStart] at hstart

lemma sum_map_eq_zero {f : Call → ℤ} {calls : List Call} (h : ∀ c ∈ calls, f c = 0) :
    (calls.map f).sum = 0 := by
  induction calls with
  | nil => rfl
  | cons c calls ih =>
    rw [List.map_cons, List.sum_cons, h c List.mem_cons_self, zero_add]
    exact ih fun d hd => h d (List.mem_cons_of_mem _ hd)

lemma Start.counted_eq_zero (h : Start s) : counted s.calls = 0 := by
  refine sum_map_eq_zero fun c hc => ?_
  have hstart := h.calls c hc
  cases c with
  | put | delete => rfl
  | _ => simp [Call.isStart] at hstart

lemma Start.committed_eq_zero (h : Start s) : committed s.calls = 0 := by
  refine sum_map_eq_zero fun c hc => ?_
  have hstart := h.calls c hc
  cases c with
  | put | delete => rfl
  | _ => simp [Call.isStart] at hstart

/-- A write that has returned has changed the counter by as much as the rows. -/
theorem Finished.counted_eq_committed (h : Finished s) : counted s.calls = committed s.calls := by
  have hsame : s.calls.map Call.counted = s.calls.map Call.committed := by
    refine List.map_congr_left fun c hc => ?_
    have hdone := h c hc
    cases c with
    | done => rfl
    | _ => simp [Call.isDone] at hdone
  simp [counted, committed, hsame]

/-- Once all writes have returned the counter is off by the changes that only one of the snapshot
and the loaded counter has. -/
theorem reconciled_totalSize (hs : Start s) (pre mid scan post : List Nat)
    (hdone : Finished (reconciled s pre mid scan post)) :
    (reconciled s pre mid scan post).totalSize =
      total id (reconciled s pre mid scan post).rows +
        (committed (atSnapshot s pre).calls - counted (atLoad s pre mid).calls) := by
  -- The books between any two steps of the reconcile.
  have h1 : Booked s (atSnapshot s pre) := booked_run hs.current pre
  have hpin := step_snapshot (h1.reconcile.trans hs.reconcile)
  have h2 : Booked (step (atSnapshot s pre) .snapshot) (atLoad s pre mid) :=
    booked_run (hpin ▸ h1.current.setProgress _ _) mid
  have hload := step_load (h2.reconcile.trans (by rw [hpin]))
  have h3 : Booked (step (atLoad s pre mid) .load) (atCorrection s pre mid scan) :=
    booked_run (hload ▸ h2.current.setProgress _ _) scan
  have hcorrect := step_correct (h3.reconcile.trans (by rw [hload]))
  have h4 : Booked (step (atCorrection s pre mid scan) .correct) (reconciled s pre mid scan post) :=
    booked_run (hcorrect ▸ h3.current.setProgress _ _) post
  have hend := hdone.counted_eq_committed
  have hcounted := hs.counted_eq_zero
  have hcommitted := hs.committed_eq_zero
  have c1 := h1.counter
  have c2 := h2.counter
  have c3 := h3.counter
  have c4 := h4.counter
  have r1 := h1.rows
  have r2 := h2.rows
  have r3 := h3.rows
  have r4 := h4.rows
  simp only [hpin] at c2 r2
  simp only [hload] at c3 r3
  simp only [hcorrect] at c4 r4
  linarith

/-- The counter is repaired exactly if the loaded counter has the changes that the snapshot has. -/
theorem reconciled_iff (hs : Start s) (pre mid scan post : List Nat)
    (hdone : Finished (reconciled s pre mid scan post)) :
    (reconciled s pre mid scan post).totalSize = total id (reconciled s pre mid scan post).rows ↔
      counted (atLoad s pre mid).calls = committed (atSnapshot s pre).calls := by
  rw [reconciled_totalSize hs pre mid scan post hdone]
  constructor
  all_goals
    intro h
    linarith

end Results

/-- One put of two bytes, and a counter that is off by five. -/
def oneWrite : State := ⟨∅, 5, [.put "a" 2], .idle⟩

lemma start_oneWrite : Start oneWrite := by
  refine ⟨?_, by decide, rfl⟩
  intro i j c d key hi hj _ _
  have hlen : ∀ (k : Nat) (e : Call), oneWrite.calls[k]? = some e → k = 0 := by
    intro k e hk
    have := (List.getElem?_eq_some_iff.mp hk).1
    simp only [oneWrite, List.length_singleton] at this
    omega
  rw [hlen i c hi, hlen j d hj]

/-- The row is committed before the snapshot and the counter is updated after it was loaded. -/
theorem doubleCounted_drifts :
    Start oneWrite ∧ Finished (reconciled oneWrite [0, 0] [] [0] []) ∧
      (reconciled oneWrite [0, 0] [] [0] []).totalSize ≠
        total id (reconciled oneWrite [0, 0] [] [0] []).rows :=
  ⟨start_oneWrite, by decide, by decide⟩

/-- The put commits during the scan. -/
theorem reconciled_iff_oneWrite :
    (reconciled oneWrite [0] [] [0, 0] []).totalSize =
      total id (reconciled oneWrite [0] [] [0, 0] []).rows :=
  (reconciled_iff start_oneWrite [0] [] [0, 0] [] (by decide)).mpr (by decide)

end OCache.Reconcile
