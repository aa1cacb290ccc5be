import OCache.Lib.BackrefIndex
import OCache.Lib.EventSystem

/-!
# Recency of a key

Under the LRU policy a key's back-reference names an access entry that embeds a time, and eviction
goes by that time. A put writes its entry in the batch with the row. A read only queues its time:
the update waits in a channel, passes a gate that drops the ones that come soon after another, waits
in a batch and is written by a flush. Nothing compares the time that is written with the one that is
there.

So an entry can be replaced by an older one: by a flush of a read from before the last put, by a put
that is overtaken between its clock reading and its commit, and by a read that is queued late, if
the gate has forgotten its key. If none of these happens the time only grows.
-/

namespace OCache.Recency

open EventSystem

variable {K : Type}

/-! ## The system -/

/-- The sizes of the channel and of the gate's cache are the same. -/
structure Config where
  bufferSize : Nat
  delay : Int

/-- `accessUpdate`, and what a put writes: a key and a time. -/
abbrev AccessUpdate (K : Type) := TimedKey Nat K

structure System (K : Type) where
  clock : Nat := 0
  /-- The keys with a row, and the time that the put embedded that wrote it. -/
  rows : K → Option Nat := fun _ => none
  index : BackrefIndex Nat K := .empty
  /-- Puts that have read the clock and have not written their batch. -/
  puts : List (AccessUpdate K) := []
  /-- Deletes that have read the back-reference and have not written their batch. -/
  deletes : List (K × Option (TimedKey Nat K)) := []
  /-- Reads in `UpdateNow` that have read the clock and have not reached the channel. -/
  reads : List (AccessUpdate K) := []
  updates : List (AccessUpdate K) := []
  /-- Most recently used first. -/
  accessTimeLRU : List (AccessUpdate K) := []
  batch : List (AccessUpdate K) := []
  /-- `flushBatch` is running. -/
  flushing : Bool := false
  /-- The updates in the write batch of `flushBatch`, each with the entry found for its key. -/
  writeBatch : List (AccessUpdate K × Option (TimedKey Nat K)) := []
  /-- The last update of a key that went through the gate; no step reads it. -/
  passed : K → Nat := fun _ => 0

inductive Event (K : Type)
  | tick (d : Nat)
  | putStamp (key : K)
  | putCommit (i : Nat) (ok : Bool)
  | deleteRead (key : K)
  | deleteCommit (i : Nat) (ok : Bool)
  | getStamp (key : K)
  | getSend (i : Nat)
  | timeGateUpdate
  | flushBegin
  /-- The loop of `flushBatch` ranges over a map, so the keys come in any order. -/
  | flushRead (key : K)
  /-- The periodic write, or the last one. -/
  | flushWrite (ok : Bool)
  | flushEnd

section Step

variable [DecidableEq K]

/-! ### Writes and reads -/

variable (s : System K)

/-- The end of `putLow`: row, entry and back-reference in one batch. -/
def putLow (i : Nat) (ok : Bool) : System K :=
  match s.puts[i]? with
  | some p =>
    let s := { s with puts := s.puts.eraseIdx i }
    if ok then
      { s with
        rows := Function.update s.rows p.key (some p.time)
        index := s.index.put p.key p.time }
    else s
  | none => s

/-- The end of `DeleteKey`: the row, the entry that was found and the back-reference. -/
def deleteKey (i : Nat) (ok : Bool) : System K :=
  match s.deletes[i]? with
  | some (key, found) =>
    let s := { s with deletes := s.deletes.eraseIdx i }
    if ok then
      { s with
        rows := Function.update s.rows key none
        index := s.index.unlist key found }
    else s
  | none => s

variable (cfg : Config)

/-- `Update`: the update is dropped if the channel is full. -/
def update (s : System K) (i : Nat) : System K :=
  match s.reads[i]? with
  | some u =>
    { s with
      reads := s.reads.eraseIdx i
      updates := if s.updates.length < cfg.bufferSize then s.updates ++ [u] else s.updates }
  | none => s

/-! ### The updater -/

/-- The time that the gate's cache has for a key. -/
def lookup (lru : List (AccessUpdate K)) (key : K) : Option Nat :=
  (lru.find? fun u => u.key = key).map (·.time)

/-- `lru.Cache.Add`, and with the time that is there the promotion by `lru.Cache.Get`. -/
def add (size : Nat) (lru : List (AccessUpdate K)) (u : AccessUpdate K) : List (AccessUpdate K) :=
  (u :: lru.filter fun v => v.key ≠ u.key).take size

/-- `addToBatch`: an update replaces the one of its key. -/
def addToBatch (batch : List (AccessUpdate K)) (u : AccessUpdate K) : List (AccessUpdate K) :=
  u :: batch.filter fun v => v.key ≠ u.key

/-- An update that the gate lets through. -/
def pass (s : System K) (u : AccessUpdate K) : System K :=
  { s with
    batch := addToBatch s.batch u
    accessTimeLRU := add cfg.bufferSize s.accessTimeLRU u
    passed := Function.update s.passed u.key u.time }

/-- The gate opens for keys that it does not know, or whose last update is old. -/
def opens (s : System K) (u : AccessUpdate K) : Bool :=
  match lookup s.accessTimeLRU u.key with
  | some t => cfg.delay < (u.time : Int) - t
  | none => true

/-- `timeGateUpdate`. One goroutine receives updates and flushes, so none is received in a flush. -/
def timeGateUpdate (s : System K) : System K :=
  match s.updates, s.flushing with
  | u :: rest, false =>
    let s := { s with updates := rest }
    if opens cfg s u then pass cfg s u
    else
      { s with
        accessTimeLRU := (lookup s.accessTimeLRU u.key).elim s.accessTimeLRU fun t =>
          add cfg.bufferSize s.accessTimeLRU ⟨t, u.key⟩ }
  | _, _ => s

/-- One turn of the loop in `flushBatch`. -/
def flushRead (key : K) : System K :=
  match s.flushing, s.batch.find? fun u => u.key = key with
  | true, some u =>
    { s with
      batch := s.batch.filter fun v => v.key ≠ key
      writeBatch := s.writeBatch ++ [(u, s.index.backref key)] }
  | _, _ => s

/-- The write batch: the entries found go, the new ones come with their back-references. -/
def refreshAll (i : BackrefIndex Nat K) (b : List (AccessUpdate K × Option (TimedKey Nat K))) :
    BackrefIndex Nat K :=
  b.foldl (fun i x => i.refresh x.2 x.1) i

/-- A write that fails is logged and its updates are lost. -/
def flushWrite (ok : Bool) : System K :=
  { s with
    index := if ok then refreshAll s.index s.writeBatch else s.index
    writeBatch := [] }

def step (s : System K) : Event K → System K
  | .tick d => { s with clock := s.clock + d }
  | .putStamp key => { s with puts := s.puts ++ [⟨s.clock, key⟩] }
  | .putCommit i ok => putLow s i ok
  | .deleteRead key => { s with deletes := s.deletes ++ [(key, s.index.backref key)] }
  | .deleteCommit i ok => deleteKey s i ok
  | .getStamp key => { s with reads := s.reads ++ [⟨s.clock, key⟩] }
  | .getSend i => update cfg s i
  | .timeGateUpdate => timeGateUpdate cfg s
  | .flushBegin => { s with flushing := true }
  | .flushRead key => flushRead s key
  | .flushWrite ok => flushWrite s ok
  | .flushEnd => if s.batch = [] ∧ s.writeBatch = [] then { s with flushing := false } else s

end Step

/-- The time of the entry that the back-reference of a key names. -/
def recency (s : System K) (key : K) : Option Nat := (s.index.backref key).map (·.time)

/-- The key has a row at every point of a run. -/
def StaysPresent [DecidableEq K] (cfg : Config) (k : K) : System K → List (Event K) → Prop
  | s, [] => (s.rows k).isSome
  | s, e :: es => (s.rows k).isSome ∧ StaysPresent cfg k (step cfg s e) es

instance instDecidableStaysPresent [DecidableEq K] (cfg : Config) (k : K) :
    (s : System K) → (es : List (Event K)) → Decidable (StaysPresent cfg k s es)
  | s, [] => inferInstanceAs (Decidable ((s.rows k).isSome = true))
  | s, e :: es =>
    have := instDecidableStaysPresent cfg k (step cfg s e) es
    inferInstanceAs (Decidable ((s.rows k).isSome = true ∧ StaysPresent cfg k (step cfg s e) es))

lemma StaysPresent.head [DecidableEq K] {cfg : Config} {k : K} {s : System K}
    {es : List (Event K)} (h : StaysPresent cfg k s es) : (s.rows k).isSome := by
  cases es with
  | nil => exact h
  | cons e es => exact h.1

/-! ## Steps in order -/

/-- A put is not overtaken: the entry that it replaces is not from a later clock reading. The gate
does not let an update through after a later one of the same key. A flush does not write a read of a
key that was put after the read. Keys without a row do not matter. -/
def inOrder [DecidableEq K] (cfg : Config) (s : System K) : Event K → Bool
  | .putCommit i true =>
    match s.puts[i]? with
    | some p => s.rows p.key = none ∨ ∀ t ∈ recency s p.key, t ≤ p.time
    | none => true
  | .timeGateUpdate =>
    match s.updates with
    | u :: _ => s.flushing = false → opens cfg s u → s.passed u.key ≤ u.time
    | [] => true
  | .flushWrite true => ∀ x ∈ s.writeBatch, ∀ w ∈ s.rows x.1.key, w ≤ x.1.time
  | _ => true

/-! ## The invariant -/

/-- A present key has an entry that is not before its latest write, and is either that of the write
or not later than the last update of the key. -/
def Recent (rows : K → Option Nat) (passed : K → Nat) (i : BackrefIndex Nat K) : Prop :=
  ∀ k w, rows k = some w →
    ∃ e, i.backref k = some e ∧ w ≤ e.time ∧ (e.time = w ∨ e.time ≤ passed k)

/-- No entry of a key with a row is replaced by an older one. -/
def Forward (rows : K → Option Nat) (i j : BackrefIndex Nat K) : Prop :=
  ∀ k w e, rows k = some w → i.backref k = some e → ∃ e', j.backref k = some e' ∧ e.time ≤ e'.time

structure Inv (s : System K) : Prop where
  backed : s.index.Backed
  deletes : ∀ x ∈ s.deletes, ∀ e ∈ x.2, e.key = x.1
  batch : ∀ u ∈ s.batch, u.time = s.passed u.key
  writeBatch : ∀ x ∈ s.writeBatch, x.1.time = s.passed x.1.key ∧ ∀ e ∈ x.2, e.key = x.1.key
  idle : s.flushing = false → s.writeBatch = []
  recent : Recent s.rows s.passed s.index

lemma inv_init : Inv ({} : System K) where
  backed := BackrefIndex.backed_empty
  deletes := by simp
  batch := by simp
  writeBatch := by simp
  idle _ := rfl
  recent := by simp [Recent]

section Index

variable {rows : K → Option Nat} {passed : K → Nat} {i j l : BackrefIndex Nat K}

lemma Forward.refl : Forward rows i i := fun _ _ e _ he => ⟨e, he, le_rfl⟩

lemma Forward.trans (h : Forward rows i j) (h' : Forward rows j l) : Forward rows i l := by
  intro k w e hw he
  obtain ⟨e', he', hle⟩ := h k w e hw he
  obtain ⟨e'', he'', hle'⟩ := h' k w e' hw he'
  exact ⟨e'', he'', hle.trans hle'⟩

lemma Recent.mono (h : Recent rows passed i) {passed' : K → Nat} (hle : ∀ k, passed k ≤ passed' k) :
    Recent rows passed' i := by
  intro k w hw
  obtain ⟨e, he, hwe, hcase⟩ := h k w hw
  exact ⟨e, he, hwe, hcase.imp_right fun hp => hp.trans (hle k)⟩

variable [DecidableEq K]

variable {found : Option (TimedKey Nat K)} {u : AccessUpdate K}

/-- An entry at the time of the last update of its key, if that is not before the latest write. -/
theorem Recent.refresh (h : Recent rows passed i) (hpassed : u.time = passed u.key)
    (hwrite : ∀ w ∈ rows u.key, w ≤ u.time) : Recent rows passed (i.refresh found u) := by
  intro k w hw
  by_cases hk : k = u.key
  · subst hk
    exact ⟨u, by simp [BackrefIndex.refresh], hwrite w hw, .inr hpassed.le⟩
  · obtain ⟨e, he, hrest⟩ := h k w hw
    exact ⟨e, by simpa [BackrefIndex.refresh, hk] using he, hrest⟩

lemma Recent.forward_refresh (h : Recent rows passed i) (hpassed : u.time = passed u.key)
    (hwrite : ∀ w ∈ rows u.key, w ≤ u.time) : Forward rows i (i.refresh found u) := by
  intro k w e hw he
  by_cases hk : k = u.key
  · subst hk
    refine ⟨u, by simp [BackrefIndex.refresh], ?_⟩
    -- The entry found is that of the latest write or of an update that went through the gate
    -- earlier.
    obtain ⟨e', he', hwe, hcase⟩ := h u.key w hw
    obtain rfl : e' = e := Option.some.inj (he'.symm.trans he)
    rcases hcase with hwritten | hle
    · exact hwritten.le.trans (hwrite w hw)
    · exact hle.trans hpassed.ge
  · exact ⟨e, by simpa [BackrefIndex.refresh, hk] using he, le_rfl⟩

lemma refreshAll_spec {b : List (AccessUpdate K × Option (TimedKey Nat K))}
    (hb : ∀ x ∈ b, x.1.time = passed x.1.key ∧ ∀ e ∈ x.2, e.key = x.1.key)
    (hwrite : ∀ x ∈ b, ∀ w ∈ rows x.1.key, w ≤ x.1.time) (hbacked : i.Backed)
    (h : Recent rows passed i) :
    (refreshAll i b).Backed ∧ Recent rows passed (refreshAll i b) ∧ Forward rows i (refreshAll i b) := by
  induction b generalizing i with
  | nil => exact ⟨hbacked, h, .refl⟩
  | cons x b ih =>
    obtain ⟨hpassed, hfound⟩ := hb x List.mem_cons_self
    have hx := hwrite x List.mem_cons_self
    obtain ⟨hbacked', hrecent', hforward'⟩ := ih (fun y hy => hb y (List.mem_cons_of_mem _ hy))
      (fun y hy => hwrite y (List.mem_cons_of_mem _ hy)) (hbacked.refresh hfound)
      (h.refresh hpassed hx)
    exact ⟨hbacked', hrecent', (h.forward_refresh hpassed hx).trans hforward'⟩

lemma Recent.put (h : Recent rows passed i) (p : AccessUpdate K) :
    Recent (Function.update rows p.key (some p.time)) passed (i.put p.key p.time) := by
  intro k w hw
  by_cases hk : k = p.key
  · subst hk
    obtain rfl : p.time = w := by simpa using hw
    exact ⟨p, by simp [BackrefIndex.put], le_rfl, .inl rfl⟩
  · obtain ⟨e, he, hrest⟩ := h k w (by simpa [hk] using hw)
    exact ⟨e, by simpa [BackrefIndex.put, hk] using he, hrest⟩

lemma Recent.unlist (h : Recent rows passed i) (key : K) (found : Option (TimedKey Nat K)) :
    Recent (Function.update rows key none) passed (i.unlist key found) := by
  intro k w hw
  have hk : k ≠ key := by
    rintro rfl
    simp at hw
  obtain ⟨e, he, hrest⟩ := h k w (by simpa [hk] using hw)
  exact ⟨e, by simpa [BackrefIndex.unlist, hk] using he, hrest⟩

end Index

/-! ## Steps -/

/-- What a step in order does: it keeps the invariant, and the keys that keep their row go
forward. -/
structure Kept (s t : System K) : Prop where
  inv : Inv t
  forward : ∀ k, (t.rows k).isSome → ∀ w e, s.rows k = some w → s.index.backref k = some e →
    ∃ e', t.index.backref k = some e' ∧ e.time ≤ e'.time

section Steps

variable {cfg : Config} {s t : System K}

/-- Steps that leave rows and index alone. -/
theorem Inv.kept_of_eq (h : Inv t) (hindex : t.index = s.index) : Kept s t where
  inv := h
  forward k _ w e _ he := ⟨e, by rw [hindex, he], le_rfl⟩

variable {i : Nat} {ok : Bool}

variable (h : Inv s)

include h

lemma Inv.update : Kept s (update cfg s i) := by
  unfold Recency.update
  split
  · exact Inv.kept_of_eq { h with } rfl
  · exact h.kept_of_eq rfl

variable [DecidableEq K]

lemma Inv.putLow (hok : inOrder cfg s (.putCommit i ok)) : Kept s (putLow s i ok) := by
  unfold Recency.putLow
  split
  · rename_i p hp
    have herase : Inv { s with puts := s.puts.eraseIdx i } := { h with }
    cases ok with
    | false => exact herase.kept_of_eq rfl
    | true =>
      refine ⟨{ herase with backed := h.backed.put _ _, recent := h.recent.put p }, ?_⟩
      intro k _ w e hw he
      by_cases hk : k = p.key
      · subst hk
        have hle : e.time ≤ p.time := by simpa [inOrder, hp, hw, recency, he] using hok
        exact ⟨p, by simp [BackrefIndex.put], hle⟩
      · exact ⟨e, by simpa [BackrefIndex.put, hk] using he, le_rfl⟩
  · exact h.kept_of_eq rfl

lemma Inv.deleteKey : Kept s (deleteKey s i ok) := by
  unfold Recency.deleteKey
  split
  · rename_i key found hp
    have hfound := h.deletes _ (List.mem_of_getElem? hp)
    have herase : Inv { s with deletes := s.deletes.eraseIdx i } :=
      { h with deletes := fun x hx => h.deletes x (List.mem_of_mem_eraseIdx hx) }
    cases ok with
    | false => exact herase.kept_of_eq rfl
    | true =>
      refine ⟨{ herase with backed := h.backed.unlist hfound, recent := h.recent.unlist key found }, ?_⟩
      intro k hpresent w e hw he
      have hk : k ≠ key := by
        rintro rfl
        simp at hpresent
      exact ⟨e, by simpa [BackrefIndex.unlist, hk] using he, le_rfl⟩
  · exact h.kept_of_eq rfl

lemma Inv.pass (hidle : s.flushing = false) {u : AccessUpdate K} (hu : s.passed u.key ≤ u.time) :
    Inv (pass cfg s u) :=
  { h with
    batch := fun v hv => by
      rcases List.mem_cons.mp hv with rfl | hold
      · simp [Recency.pass]
      · obtain ⟨hmem, hkey⟩ := List.mem_filter.mp hold
        have hne : v.key ≠ u.key := by simpa using hkey
        simpa [Recency.pass, hne] using h.batch v hmem
    writeBatch := by simp [Recency.pass, h.idle hidle]
    recent := h.recent.mono fun k => by
      by_cases hk : k = u.key
      · subst hk
        simpa [Recency.pass] using hu
      · simp [Recency.pass, hk] }

lemma Inv.timeGateUpdate (hok : inOrder cfg s .timeGateUpdate) : Kept s (timeGateUpdate cfg s) := by
  unfold Recency.timeGateUpdate
  split
  · rename_i u rest hupdates hidle
    have hrest : Inv { s with updates := rest } := { h with }
    dsimp only
    split
    · rename_i hopens
      have hopen : opens cfg s u = true := hopens
      have hu : s.passed u.key ≤ u.time := by simpa [inOrder, hupdates, hidle, hopen] using hok
      exact (hrest.pass hidle hu).kept_of_eq rfl
    · exact Inv.kept_of_eq { hrest with } rfl
  · exact h.kept_of_eq rfl

lemma Inv.flushRead {key : K} : Kept s (flushRead s key) := by
  unfold Recency.flushRead
  split
  · rename_i u hbusy hfind
    refine Inv.kept_of_eq { h with batch := ?_, writeBatch := ?_, idle := ?_ } rfl
    · exact fun v hv => h.batch v (List.mem_filter.mp hv).1
    · intro x hx
      rcases List.mem_append.mp hx with hold | hnew
      · exact h.writeBatch x hold
      · rw [List.mem_singleton.mp hnew]
        have hkey : u.key = key := by simpa using List.find?_some hfind
        refine ⟨h.batch u (List.mem_of_find?_eq_some hfind), fun e he => ?_⟩
        rw [hkey]
        exact (h.backed key e he).1
    · simp [hbusy]
  · exact h.kept_of_eq rfl

lemma Inv.flushWrite (hok : inOrder cfg s (.flushWrite ok)) : Kept s (flushWrite s ok) := by
  cases ok with
  | false =>
    exact Inv.kept_of_eq { h with writeBatch := by simp [Recency.flushWrite], idle := fun _ => rfl } rfl
  | true =>
    have hwrite : ∀ x ∈ s.writeBatch, ∀ w ∈ s.rows x.1.key, w ≤ x.1.time := by
      simpa [inOrder] using hok
    obtain ⟨hbacked, hrecent, hforward⟩ := refreshAll_spec h.writeBatch hwrite h.backed h.recent
    exact
      { inv := { h with
          backed := hbacked
          writeBatch := by simp [Recency.flushWrite]
          idle := fun _ => rfl
          recent := hrecent }
        forward := fun k _ w e hw he => hforward k w e hw he }

lemma Inv.step {e : Event K} (hok : inOrder cfg s e) : Kept s (step cfg s e) := by
  cases e with
  | tick d | putStamp key => exact Inv.kept_of_eq { h with } rfl
  | putCommit i ok => exact h.putLow hok
  | deleteRead key =>
    refine Inv.kept_of_eq { h with deletes := ?_ } rfl
    intro x hx
    rcases List.mem_append.mp hx with hold | hnew
    · exact h.deletes x hold
    · rw [List.mem_singleton.mp hnew]
      exact fun e he => (h.backed key e he).1
  | deleteCommit i ok => exact h.deleteKey
  | getStamp key => exact Inv.kept_of_eq { h with } rfl
  | getSend i => exact h.update
  | timeGateUpdate => exact h.timeGateUpdate hok
  | flushBegin => exact Inv.kept_of_eq { h with idle := fun hidle => nomatch hidle } rfl
  | flushRead key => exact h.flushRead
  | flushWrite ok => exact h.flushWrite hok
  | flushEnd =>
    simp only [Recency.step]
    split
    · rename_i hdone
      exact Inv.kept_of_eq { h with idle := fun _ => hdone.2 } rfl
    · exact h.kept_of_eq rfl

/-- Over a run in which the key keeps its row, its entry only gets later. -/
theorem Inv.forward_run {es : List (Event K)}
    (hok : RunOk (Recency.step cfg) (fun s e => inOrder cfg s e = true) s es) {k : K}
    (hpresent : StaysPresent cfg k s es) {e : TimedKey Nat K} (he : s.index.backref k = some e) :
    ∃ e', (run (Recency.step cfg) s es).index.backref k = some e' ∧ e.time ≤ e'.time := by
  induction es generalizing s e with
  | nil => exact ⟨e, he, le_rfl⟩
  | cons a es ih =>
    have hkept := h.step hok.1
    obtain ⟨w, hw⟩ := Option.isSome_iff_exists.mp hpresent.1
    obtain ⟨e₁, he₁, hle₁⟩ := hkept.forward k hpresent.2.head w e hw he
    obtain ⟨e₂, he₂, hle₂⟩ := ih hkept.inv hok.2 hpresent.2 he₁
    exact ⟨e₂, he₂, hle₁.trans hle₂⟩

end Steps

/-- For every run whose steps are in order, from the empty store, and every part of it over which a
key keeps its row: at both ends the back-reference names an entry of the key that is there, the time
in it has not decreased, and it is not before the key's latest write. -/
theorem recency_forward [DecidableEq K] (cfg : Config) (es fs : List (Event K))
    (hok : RunOk (step cfg) (fun s e => inOrder cfg s e = true) {} (es ++ fs)) (k : K)
    (hpresent : StaysPresent cfg k (run (step cfg) {} es) fs) :
    ∃ e ∈ (run (step cfg) {} es).index.entries, ∃ e' ∈ (run (step cfg) {} (es ++ fs)).index.entries,
      (run (step cfg) {} es).index.backref k = some e ∧
        (run (step cfg) {} (es ++ fs)).index.backref k = some e' ∧
        e.key = k ∧ e'.key = k ∧ e.time ≤ e'.time ∧
        ∀ w, (run (step cfg) {} (es ++ fs)).rows k = some w → w ≤ e'.time := by
  have hstep : ∀ (s : System K) (a : Event K), Inv s → inOrder cfg s a = true → Inv (step cfg s a) :=
    fun s a h ha => (h.step ha).inv
  obtain ⟨hes, hfs⟩ := runOk_append.mp hok
  have hmid := invariant_run hstep inv_init hes
  have hend := invariant_run hstep inv_init hok
  obtain ⟨w, hw⟩ := Option.isSome_iff_exists.mp hpresent.head
  obtain ⟨e, he, -, -⟩ := hmid.recent k w hw
  obtain ⟨e', he', hle⟩ := hmid.forward_run hfs hpresent he
  rw [← run_append] at he'
  have hlatest : ∀ w, (run (step cfg) {} (es ++ fs)).rows k = some w → w ≤ e'.time := by
    intro w hw
    obtain ⟨e'', he'', hwe, -⟩ := hend.recent k w hw
    rwa [Option.some.inj (he'.symm.trans he'')]
  exact ⟨e, (hmid.backed k e he).2, e', (hend.backed k e' he').2, he, he', (hmid.backed k e he).1,
    (hend.backed k e' he').1, hle, hlatest⟩

/-! ## Runs -/

/-- A flush on its own, of the update of one key. -/
def flushOf (key : K) : List (Event K) := [.flushBegin, .flushRead key, .flushWrite true, .flushEnd]

/-- A put, then a read that is flushed, then another put. -/
def orderlyRun : List (Event Nat) :=
  ([.putStamp 0, .putCommit 0 true, .tick 1, .getStamp 0, .getSend 0, .timeGateUpdate] ++ flushOf 0 ++
    [.tick 1, .putStamp 0, .putCommit 0 true] : List (Event Nat))

/-- A read is queued, the key is put, and the read is flushed. -/
def staleFlush : List (Event Nat) :=
  ([.putStamp 0, .putCommit 0 true, .tick 1, .getStamp 0, .getSend 0, .timeGateUpdate, .tick 1,
    .putStamp 0, .putCommit 0 true] ++ flushOf 0 : List (Event Nat))

/-- Two puts commit in the other order. -/
def overtakenPut : List (Event Nat) :=
  [.putStamp 0, .tick 1, .putStamp 0, .putCommit 1 true, .putCommit 0 true]

/-- Two reads of a key reach the channel in the other order, and the gate forgets the key in
between. -/
def forgottenKey : List (Event Nat) :=
  ([.putStamp 0, .putCommit 0 true, .tick 1, .getStamp 0, .tick 1, .getStamp 0, .getSend 1,
    .timeGateUpdate] ++ flushOf 0 ++
    [.getStamp 1, .getSend 1, .timeGateUpdate, .getSend 0, .timeGateUpdate] ++ flushOf 0 :
    List (Event Nat))

theorem recency_forward_orderlyRun :
    ∃ e' ∈ (run (step ⟨1, 0⟩) {} (orderlyRun.take 2 ++ orderlyRun.drop 2)).index.entries,
      (run (step ⟨1, 0⟩) {} (orderlyRun.take 2 ++ orderlyRun.drop 2)).index.backref 0 = some e' ∧
        2 ≤ e'.time := by
  obtain ⟨-, -, e', hmem, -, hback, -, -, -, hlatest⟩ :=
    recency_forward ⟨1, 0⟩ (orderlyRun.take 2) (orderlyRun.drop 2) (by decide +kernel) 0
      (by decide +kernel)
  exact ⟨e', hmem, hback, hlatest 2 (by decide +kernel)⟩

/-- In each run the key is present from its first put on, and its time falls. -/
theorem recency_backward :
    (StaysPresent ⟨1, 0⟩ 0 (run (step ⟨1, 0⟩) {} (staleFlush.take 9)) (staleFlush.drop 9) ∧
      recency (run (step ⟨1, 0⟩) {} (staleFlush.take 9)) 0 = some 2 ∧
      recency (run (step ⟨1, 0⟩) {} staleFlush) 0 = some 1 ∧
      (run (step ⟨1, 0⟩) {} staleFlush).rows 0 = some 2) ∧
    (StaysPresent ⟨1, 0⟩ 0 (run (step ⟨1, 0⟩) {} (overtakenPut.take 4)) (overtakenPut.drop 4) ∧
      recency (run (step ⟨1, 0⟩) {} (overtakenPut.take 4)) 0 = some 1 ∧
      recency (run (step ⟨1, 0⟩) {} overtakenPut) 0 = some 0) ∧
    (StaysPresent ⟨1, 0⟩ 0 (run (step ⟨1, 0⟩) {} (forgottenKey.take 12)) (forgottenKey.drop 12) ∧
      recency (run (step ⟨1, 0⟩) {} (forgottenKey.take 12)) 0 = some 2 ∧
      recency (run (step ⟨1, 0⟩) {} forgottenKey) 0 = some 1) := by
  decide +kernel

end OCache.Recency
