import OCache.Cleaner.ExpiredKeys

/-!
# What the sweep of expired keys deletes

A flush deletes a row that was seen expired if the row has the same expiry, and a tombstone if it
has the same stamp. A row that was written meanwhile is told from the one that was seen, because it
is not expired or is a tombstone with a new stamp. A row that did not decode has nothing it could be
told by, and is deleted without a second look.
-/

namespace OCache.Cleaner

open EventSystem Merge ValueWire Eviction

/-! ## What is asked of the writes -/

/-- The re-check tells the row from the one that was seen: it is not expired, or a tombstone that
has another stamp or was not seen as a tombstone. -/
def Distinct (now : Int64) (seen row : ValueMessage) : Prop :=
  Store.expired now row = false ∨
    (row.expiry = tombstoneExpiry ∧
      (seen.expiry = tombstoneExpiry → row.version ≠ seen.version))

instance (now : Int64) (seen row : ValueMessage) : Decidable (Distinct now seen row) :=
  inferInstanceAs (Decidable (_ ∨ (_ ∧ (_ → _))))

section Spec

variable {E K : Type}

variable (w : Sweep E K)

/-- The message of the iterator's row. -/
def Sweep.seen (key : K) : Option (Option ValueMessage) :=
  (w.snapshot key).map ValueMessage.unmarshal

/-- The message of the stored row. -/
@[simp] def State.stored (s : State E K) (key : K) : Option (Option ValueMessage) :=
  (s.db.rows key).map ValueMessage.unmarshal

/-- The sweep has the key ahead, or waits to delete its row. -/
def Sweep.Exposed (key : K) : Prop :=
  key ∈ w.ahead ∨ .row key ∈ w.batch ∨ key ∈ w.candidates.map Candidate.key

/-- A row that is written over one the sweep can still delete is distinct from it, and that one
decodes. -/
def Sweep.Admits (key : K) (row : Option ValueMessage) : Prop :=
  match w.seen key, row with
  | some (some seen), some row => Distinct w.now seen row
  | _, _ => False

instance (w : Sweep E K) (key : K) (row : Option ValueMessage) : Decidable (w.Admits key row) := by
  unfold Sweep.Admits
  split <;> infer_instance

/-- The clock does not go back, and writes over rows the sweep can still delete are distinct. -/
def Admissible (s : State E K) : Event E K → Prop
  | .write w => s.sweep.Exposed w.key → w.lands (s.existing w.key) = true →
      s.sweep.Admits w.key (ValueMessage.unmarshal (w.stored (s.existing w.key)))
  | .tick clock => s.clock ≤ clock
  | _ => True

variable [DecidableEq E] [DecidableEq K]

instance (w : Sweep E K) (key : K) : Decidable (w.Exposed key) :=
  inferInstanceAs (Decidable (_ ∨ _ ∨ _))

instance (s : State E K) (e : Event E K) : Decidable (Admissible s e) :=
  match e with
  | .write _ => inferInstanceAs (Decidable (_ → _ → _))
  | .tick _ => inferInstanceAs (Decidable (_ ≤ _))
  | .scan _ | .flush _ _ _ | .shutdown | .index _ _ => inferInstanceAs (Decidable True)

end Spec

/-! ## The invariant -/

section Invariant

variable {E K : Type} {retention : Int64} {s s' : State E K}

/-- The row is gone, or nobody has written it, or it is distinct from the one the iterator shows. -/
def Tracked (s : State E K) (key : K) : Prop :=
  s.stored key = none ∨ (s.written key = false ∧ s.stored key = s.sweep.seen key) ∨
    ∃ seen row, s.sweep.seen key = some (some seen) ∧ s.stored key = some (some row) ∧
      Distinct s.sweep.now seen row

/-- What a candidate stands for. -/
def Dead (retention : Int64) (s : State E K) (c : Candidate K) : Prop :=
  ∃ seen, s.sweep.seen c.key = some (some seen) ∧ c.expiry = seen.expiry ∧
    Store.expired s.sweep.now seen = true ∧
    (seen.expiry = tombstoneExpiry →
      c.version = seen.version ∧ young retention s.clock seen.version = false)

structure Inv (retention : Int64) (s : State E K) : Prop where
  tracked : ∀ key, s.sweep.Exposed key → Tracked s key
  staged : ∀ key, .row key ∈ s.sweep.batch → s.sweep.seen key = some none
  dead : ∀ c ∈ s.sweep.candidates, Dead retention s c

/-- What a step of the sweep can do: rows are deleted, and the keys it waits to delete come from the
front of the iterator. -/
structure Continues (retention : Int64) (s s' : State E K) : Prop where
  now : s'.sweep.now = s.sweep.now
  snapshot : s'.sweep.snapshot = s.sweep.snapshot
  clock : s'.clock = s.clock
  written : s'.written = s.written
  rows : ∀ key, s'.db.rows key = s.db.rows key ∨ s'.db.rows key = none
  ahead : ∀ key ∈ s'.sweep.ahead, key ∈ s.sweep.ahead
  batch : ∀ key, .row key ∈ s'.sweep.batch →
    .row key ∈ s.sweep.batch ∨ (key ∈ s.sweep.ahead ∧ s.sweep.seen key = some none)
  candidates : ∀ c ∈ s'.sweep.candidates,
    c ∈ s.sweep.candidates ∨ (c.key ∈ s.sweep.ahead ∧ Dead retention s c)

lemma Continues.refl (retention : Int64) (s : State E K) : Continues retention s s where
  now := rfl
  snapshot := rfl
  clock := rfl
  written := rfl
  rows _ := .inl rfl
  ahead _ h := h
  batch _ h := .inl h
  candidates _ h := .inl h

namespace Continues

variable (h : Continues retention s s')
include h

lemma seen (key : K) : s'.sweep.seen key = s.sweep.seen key := by
  rw [Sweep.seen, Sweep.seen, h.snapshot]

lemma exposed {key : K} (hkey : s'.sweep.Exposed key) : s.sweep.Exposed key := by
  rcases hkey with hkey | hkey | hkey
  · exact .inl (h.ahead key hkey)
  · rcases h.batch key hkey with hold | ⟨hnew, -⟩
    · exact .inr (.inl hold)
    · exact .inl hnew
  · obtain ⟨c, hc, rfl⟩ := List.mem_map.mp hkey
    rcases h.candidates c hc with hold | ⟨hnew, -⟩
    · exact .inr (.inr (List.mem_map_of_mem hold))
    · exact .inl hnew

lemma tracked {key : K} (htracked : Tracked s key) : Tracked s' key := by
  rcases h.rows key with hrow | hrow
  · have hstored : s'.stored key = s.stored key := by rw [State.stored, State.stored, hrow]
    unfold Tracked at *
    rwa [h.now, h.seen, hstored, h.written]
  · exact .inl (by rw [State.stored, hrow]; rfl)

lemma dead {c : Candidate K} (hdead : Dead retention s c) : Dead retention s' c := by
  unfold Dead at *
  rwa [h.now, h.seen, h.clock]

lemma inv (hinv : Inv retention s) : Inv retention s' where
  tracked key hkey := h.tracked (hinv.tracked key (h.exposed hkey))
  staged key hkey := by
    rw [h.seen]
    rcases h.batch key hkey with hold | ⟨-, hseen⟩
    · exact hinv.staged key hold
    · exact hseen
  dead c hc := by
    rcases h.candidates c hc with hold | ⟨-, hdead⟩
    · exact h.dead (hinv.dead c hold)
    · exact h.dead hdead

end Continues

/-! ## The steps of the sweep -/

lemma row_not_mem_stageEvictionIndexDeletes (db : Database E K) (readable : Bool) (key key' : K) :
    .row key' ∉ stageEvictionIndexDeletes db readable key := by
  unfold stageEvictionIndexDeletes
  split <;> simp

variable {key : K} {value : List UInt8}

/-- The scan remembers dead rows. -/
theorem dead_candidate {seen : ValueMessage} {c : Candidate K}
    (hseen : s.sweep.seen key = some (some seen))
    (hvalue : ValueMessage.unmarshal value = some seen)
    (h : candidate? retention s.clock s.sweep.now key value seen.expiry = some c) :
    c.key = key ∧ Dead retention s c := by
  have hversion : (valueMessageVersion value).getD 0 = seen.version := by
    rw [valueMessageVersion_eq, hvalue]
    rfl
  unfold candidate? at h
  rw [hversion] at h
  split at h
  · rename_i hexpired
    have hexp : Store.expired s.sweep.now seen = true := by simpa [Store.expired] using hexpired
    -- A tombstone has to be old as well.
    split at h
    · dsimp only at h
      split at h
      · simp at h
      · rename_i hyoung
        obtain rfl := Option.some_inj.mp h
        exact ⟨rfl, seen, hseen, rfl, hexp, fun _ => ⟨rfl, by simpa using hyoung⟩⟩
    · rename_i hlive
      obtain rfl := Option.some_inj.mp h
      exact ⟨rfl, seen, hseen, rfl, hexp, fun htomb => absurd htomb hlive⟩
  · simp at h

/-- A change of the phase alone. -/
theorem continues_phase (h : Continues retention s s') (phase : Phase) :
    Continues retention s { s' with sweep := { s'.sweep with phase := phase } } :=
  ⟨h.now, h.snapshot, h.clock, h.written, h.rows, h.ahead, h.batch, h.candidates⟩

lemma continues_finish (h : Continues retention s s') : Continues retention s s'.finish :=
  ⟨h.now, h.snapshot, h.clock, h.written, h.rows, h.ahead, h.batch, h.candidates⟩

lemma continues_shutdown (retention : Int64) (s : State E K) :
    Continues retention s (shutdown s) := by
  unfold shutdown
  split
  · exact continues_phase (.refl _ _) _
  · exact continues_phase (.refl _ _) _
  · exact .refl _ _

lemma continues_flushIfFull {w : Sweep E K} (h : Continues retention s { s with sweep := w }) :
    Continues retention s { s with sweep := w.flushIfFull } := by
  unfold Sweep.flushIfFull
  split
  · exact continues_phase h _
  · exact h

lemma continues_visit {ahead : List K} (readable : Bool) (hahead : s.sweep.ahead = key :: ahead)
    (hvalue : s.sweep.snapshot key = some value) :
    Continues retention s { s with
      sweep := Sweep.visit retention s.clock s.db readable key value { s.sweep with ahead := ahead } } := by
  have hseen : s.sweep.seen key = some (ValueMessage.unmarshal value) := by
    rw [Sweep.seen, hvalue]
    rfl
  have hkey : key ∈ s.sweep.ahead := by simp [hahead]
  have hrest : ∀ key' ∈ ahead, key' ∈ s.sweep.ahead := by
    intro key' hmem
    simp [hahead, hmem]
  rw [Sweep.visit, valueMessageExpiry_eq]
  cases hdecoded : ValueMessage.unmarshal value with
  | none =>
    -- A row that does not decode goes into the batch without a re-check.
    refine ⟨rfl, rfl, rfl, rfl, fun _ => .inl rfl, hrest, ?_, fun _ hc => .inl hc⟩
    intro key' hmem
    simp only [Option.map_none, List.mem_append, List.mem_cons, Delete.row.injEq,
      row_not_mem_stageEvictionIndexDeletes, or_false] at hmem
    rcases hmem with hold | rfl
    · exact .inl hold
    · exact .inr ⟨hkey, by rw [hseen, hdecoded]⟩
  | some seen =>
    apply continues_flushIfFull
    refine ⟨rfl, rfl, rfl, rfl, fun _ => .inl rfl, hrest, fun _ hmem => .inl hmem, ?_⟩
    intro c hc
    rcases List.mem_append.mp hc with hold | hnew
    · exact .inl hold
    · obtain ⟨rfl, hdead⟩ :=
        dead_candidate (by rw [hseen, hdecoded]) hdecoded (Option.mem_toList.mp hnew)
      exact .inr ⟨hkey, hdead⟩

lemma continues_scan (retention : Int64) (readable : Bool) (s : State E K) :
    Continues retention s (scan retention readable s) := by
  unfold scan
  split
  · rename_i key ahead _ hahead
    dsimp only
    split
    · rename_i value hvalue
      exact continues_visit readable hahead hvalue
    · refine ⟨rfl, rfl, rfl, rfl, fun _ => .inl rfl, ?_, fun _ h => .inl h, fun _ h => .inl h⟩
      intro key' hmem
      simp [hahead, hmem]
  · split
    · exact continues_phase (.refl _ _) _
    · exact continues_finish (.refl _ _)
  · exact .refl _ _

lemma inv_cleanupExpiredKeys (order : List K) (now : Int64) (db : Database E K)
    (reclaimed : Reclaimed) (totalSize : Int64) (cleanedKeys : Nat) (clock : Int) :
    Inv retention (cleanupExpiredKeys order now db reclaimed totalSize cleanedKeys clock) where
  tracked key _ := .inr (.inl ⟨rfl, rfl⟩)
  staged key h := by simp [cleanupExpiredKeys] at h
  dead c h := by simp [cleanupExpiredKeys] at h

/-! ## The flush -/

lemma db_scan (readable : Bool) (s : State E K) : (scan retention readable s).db = s.db := by
  unfold scan
  split
  · dsimp only
    split <;> rfl
  · split
    · rfl
    · rfl
  · rfl

lemma db_shutdown (s : State E K) : (shutdown s).db = s.db := by
  unfold shutdown
  split <;> rfl

/-- What staging deletions leaves alone. -/
structure SameScan (w w' : Sweep E K) : Prop where
  now : w'.now = w.now
  snapshot : w'.snapshot = w.snapshot
  ahead : w'.ahead = w.ahead

lemma sameScan_stage (db : Database E K) (readable : Bool) (key : K) (value : List UInt8)
    (w : Sweep E K) : SameScan w (w.stage db readable key value) := by
  unfold Sweep.stage
  dsimp only
  split
  · exact ⟨rfl, rfl, rfl⟩
  · split
    all_goals exact ⟨rfl, rfl, rfl⟩

lemma batch_stage (db : Database E K) (readable : Bool) (key : K) (value : List UInt8)
    (w : Sweep E K) : (w.stage db readable key value).batch =
      w.batch ++ .row key :: stageEvictionIndexDeletes db readable key := by
  unfold Sweep.stage
  dsimp only
  split
  · rfl
  · split
    · rfl
    · rfl

/-- The row of a key passes the re-check of a candidate. -/
def Passes (db : Database E K) (cs : List (Candidate K)) (key : K) : Prop :=
  ∃ c ∈ cs, c.key = key ∧ ∃ value, db.rows key = some value ∧ c.matches value = true

/-- A row that the re-check cannot tell from the row that was seen is the row that was seen. -/
theorem not_distinct_of_matches {c : Candidate K} {seen row : ValueMessage} {now : Int64}
    (hvalue : ValueMessage.unmarshal value = some row) (hmatches : c.matches value = true)
    (hexpiry : c.expiry = seen.expiry) (hexpired : Store.expired now seen = true)
    (hversion : seen.expiry = tombstoneExpiry → c.version = seen.version) :
    ¬Distinct now seen row := by
  simp only [Candidate.matches, valueMessageExpiry_eq, valueMessageVersion_eq, hvalue,
    Option.map_some, Option.getD_some, decide_eq_true_eq] at hmatches
  obtain ⟨hsame, hstamp⟩ := hmatches
  rintro (hlive | ⟨htomb, hother⟩)
  · simp only [Store.expired, hsame, hexpiry, decide_eq_false_iff_not] at hlive
    simp only [Store.expired, decide_eq_true_eq] at hexpired
    exact hlive hexpired
  · have hseen : seen.expiry = tombstoneExpiry := by rw [← hexpiry, ← hsame, htomb]
    exact hother hseen ((hstamp (hexpiry.trans hseen)).trans (hversion hseen))

/-- What is deleted is dead. -/
theorem dead_of_deleted (hinv : Inv retention s) (hrow : s.db.rows key = some value)
    (h : .row key ∈ s.sweep.batch ∨ Passes s.db s.sweep.candidates key) :
    s.written key = false ∧ ∀ vm, ValueMessage.unmarshal value = some vm →
      Store.expired s.sweep.now vm = true ∧
        (vm.expiry = tombstoneExpiry → young retention s.clock vm.version = false) := by
  have hstored : s.stored key = some (ValueMessage.unmarshal value) := by
    rw [State.stored, hrow]
    rfl
  rcases h with hstaged | ⟨c, hc, rfl, value', hvalue', hmatches⟩
  · -- The iterator shows a row that does not decode, so nobody has written the row.
    have hseen := hinv.staged key hstaged
    rcases hinv.tracked key (.inr (.inl hstaged)) with hgone | ⟨hwritten, hsame⟩ | ⟨seen, _, hother, -⟩
    · cases hgone.symm.trans hstored
    · refine ⟨hwritten, fun vm hvm => ?_⟩
      rw [hstored, hseen, hvm] at hsame
      simp at hsame
    · simp [hseen] at hother
  · obtain rfl : value' = value := Option.some_inj.mp (hvalue'.symm.trans hrow)
    obtain ⟨seen, hseen, hexpiry, hexpired, htomb⟩ := hinv.dead c hc
    rcases hinv.tracked c.key (.inr (.inr (List.mem_map_of_mem hc))) with
      hgone | ⟨hwritten, hsame⟩ | ⟨seen', row, hseen', hrow', hdistinct⟩
    · cases hgone.symm.trans hstored
    · refine ⟨hwritten, fun vm hvm => ?_⟩
      obtain rfl : seen = vm := by
        rw [hstored, hseen, hvm] at hsame
        simpa using hsame.symm
      exact ⟨hexpired, fun h => (htomb h).2⟩
    · -- The re-check would have told a written row from the one that was seen.
      obtain rfl : seen' = seen := by simpa [hseen] using hseen'.symm
      rw [hrow'] at hstored
      exact absurd hdistinct (not_distinct_of_matches (Option.some_inj.mp hstored.symm) hmatches hexpiry
        hexpired fun h => (htomb h).1)

variable (db : Database E K) (readable backrefReadable : K → Bool)

lemma recheck_spec (w : Sweep E K) (c : Candidate K) :
    SameScan w (w.recheck db readable backrefReadable c) ∧
      ∀ key, .row key ∈ (w.recheck db readable backrefReadable c).batch →
        .row key ∈ w.batch ∨ Passes db [c] key := by
  unfold Sweep.recheck
  split
  · rename_i value hvalue
    split
    · rename_i hpass
      refine ⟨sameScan_stage _ _ _ _ _, fun key hmem => ?_⟩
      simp only [batch_stage, List.mem_append, List.mem_cons, Delete.row.injEq,
        row_not_mem_stageEvictionIndexDeletes, or_false] at hmem
      rcases hmem with hold | rfl
      · exact .inl hold
      · exact .inr ⟨c, by simp, rfl, value, hvalue, hpass.2⟩
    · exact ⟨⟨rfl, rfl, rfl⟩, fun _ h => .inl h⟩
  · exact ⟨⟨rfl, rfl, rfl⟩, fun _ h => .inl h⟩

/-- The batch of a flush deletes what was staged and what passes the re-check. -/
theorem foldl_recheck_spec (cs : List (Candidate K)) (w : Sweep E K) :
    SameScan w (cs.foldl (Sweep.recheck db readable backrefReadable) w) ∧
      ∀ key, .row key ∈ (cs.foldl (Sweep.recheck db readable backrefReadable) w).batch →
        .row key ∈ w.batch ∨ Passes db cs key := by
  induction cs generalizing w with
  | nil => exact ⟨⟨rfl, rfl, rfl⟩, fun _ h => .inl h⟩
  | cons c cs ih =>
    obtain ⟨hsame, hbatch⟩ := recheck_spec db readable backrefReadable w c
    obtain ⟨hsame', hbatch'⟩ := ih (w.recheck db readable backrefReadable c)
    refine ⟨⟨hsame'.now.trans hsame.now, hsame'.snapshot.trans hsame.snapshot,
      hsame'.ahead.trans hsame.ahead⟩, fun key hmem => ?_⟩
    rcases hbatch' key hmem with hmem | ⟨c', hc', hrest⟩
    · rcases hbatch key hmem with hold | ⟨c', hc', hrest⟩
      · exact .inl hold
      · exact .inr ⟨c', by simp_all, hrest⟩
    · exact .inr ⟨c', List.mem_cons_of_mem _ hc', hrest⟩

variable [DecidableEq E] [DecidableEq K]

/-- The write of a batch empties it, and deletes the rows in it if it succeeds. -/
theorem write_spec (s : State E K) (ok : Bool) :
    SameScan s.sweep (s.write ok).sweep ∧ (s.write ok).sweep.batch = [] ∧
      (s.write ok).sweep.candidates = s.sweep.candidates ∧ (s.write ok).clock = s.clock ∧
      (s.write ok).written = s.written ∧
      ∀ key, (s.write ok).db.rows key = s.db.rows key ∨
        (.row key ∈ s.sweep.batch ∧ (s.write ok).db.rows key = none) := by
  unfold State.write
  dsimp only
  split
  · rename_i hcount
    have hbatch : s.sweep.batch = [] := by
      rw [Sweep.count] at hcount
      exact List.length_eq_zero_iff.mp (by omega)
    exact ⟨⟨rfl, rfl, rfl⟩, hbatch, rfl, rfl, rfl, fun _ => .inl rfl⟩
  · split
    · refine ⟨⟨rfl, rfl, rfl⟩, rfl, rfl, rfl, rfl, fun key => ?_⟩
      by_cases hmem : .row key ∈ s.sweep.batch
      · exact .inr ⟨hmem, by simp [Database.write, hmem]⟩
      · exact .inl (by simp [Database.write, hmem])
    · exact ⟨⟨rfl, rfl, rfl⟩, rfl, rfl, rfl, rfl, fun _ => .inl rfl⟩

/-- A flush deletes rows that were staged and rows that pass the re-check. -/
theorem flush_spec (retention : Int64) (ok : Bool) (s : State E K) :
    Continues retention s (flush readable backrefReadable ok s) ∧
      ∀ key, (flush readable backrefReadable ok s).db.rows key = s.db.rows key ∨
        .row key ∈ s.sweep.batch ∨ Passes s.db s.sweep.candidates key := by
  unfold flush
  split
  · rename_i final _
    dsimp only
    -- First the candidates that pass go into the batch, then the batch is written.
    obtain ⟨hsame, hbatch⟩ :=
      foldl_recheck_spec s.db readable backrefReadable s.sweep.candidates s.sweep
    generalize s.sweep.candidates.foldl (Sweep.recheck s.db readable backrefReadable) s.sweep = w
      at hsame hbatch
    obtain ⟨hsame', hempty, hcands, hclock, hwritten, hrows⟩ :=
      write_spec { s with sweep := { w with candidates := [] } } ok
    generalize State.write { s with sweep := { w with candidates := [] } } ok = s' at *
    have hcontinues : Continues retention s s' :=
      { now := hsame'.now.trans hsame.now
        snapshot := hsame'.snapshot.trans hsame.snapshot
        clock := hclock
        written := hwritten
        rows := fun key => (hrows key).imp_right And.right
        ahead := fun key hmem => by rwa [hsame'.ahead.trans hsame.ahead] at hmem
        batch := fun key hmem => by simp [hempty] at hmem
        candidates := fun c hmem => by simp [hcands] at hmem }
    have hdeleted : ∀ key, s'.db.rows key = s.db.rows key ∨
        .row key ∈ s.sweep.batch ∨ Passes s.db s.sweep.candidates key := fun key =>
      (hrows key).imp_right fun hmem => hbatch key hmem.1
    split
    · exact ⟨continues_finish hcontinues, hdeleted⟩
    · exact ⟨continues_phase hcontinues _, hdeleted⟩
  · exact ⟨.refl _ _, fun _ => .inl rfl⟩

end Invariant

/-! ## The steps of the others -/

section Others

variable {E K : Type} [DecidableEq K] {retention : Int64} {s : State E K}

variable {w : Write K}

omit [DecidableEq K] in
/-- A write that does not land leaves the message that was stored. -/
theorem unmarshal_stored_of_not_lands {existing : List UInt8} (h : w.lands existing = false) :
    ValueMessage.unmarshal (w.stored existing) = ValueMessage.unmarshal existing := by
  cases w with
  | put key payload expiry => simp [Write.lands] at h
  | putIfVersion key payload expiry stamp expected =>
    exact unmarshal_mergeMetadataCAS_of_not_lands (sized_casPutOperand payload.2 _ _ _)
      (by simp [isCas]) h
  | deleteIfVersion key stamp expected =>
    exact unmarshal_mergeMetadataCAS_of_not_lands (sized_casDeleteOperand _ _) (by simp [isCas]) h

omit [DecidableEq K] in
/-- A write to a missing row lands. -/
theorem lands_nil (w : Write K) : w.lands [] = true := by
  cases w <;> rfl

/-- A write that does not land leaves every message and every mark. -/
theorem stored_apply_of_not_lands (h : w.lands (s.existing w.key) = false) (key : K) :
    (s.apply w).stored key = s.stored key ∧ (s.apply w).written key = s.written key := by
  by_cases hkey : key = w.key
  · subst hkey
    obtain ⟨value, hvalue⟩ : ∃ value, s.db.rows w.key = some value := by
      cases hrow : s.db.rows w.key with
      | none => simp [State.existing, hrow, lands_nil] at h
      | some value => exact ⟨value, rfl⟩
    have hexisting : s.existing w.key = value := by simp [State.existing, hvalue]
    rw [hexisting] at h
    simp [hvalue, hexisting, h, unmarshal_stored_of_not_lands h]
  · simp [hkey]

lemma stored_apply_of_ne {key : K} (h : key ≠ w.key) :
    (s.apply w).stored key = s.stored key ∧ (s.apply w).written key = s.written key := by
  simp [h]

lemma stored_apply_self (w : Write K) :
    (s.apply w).stored w.key = some (ValueMessage.unmarshal (w.stored (s.existing w.key))) := by
  simp

/-- An admitted write leaves a distinct row. -/
theorem tracked_of_admits
    (h : s.sweep.Admits w.key (ValueMessage.unmarshal (w.stored (s.existing w.key)))) :
    Tracked (s.apply w) w.key := by
  unfold Sweep.Admits at h
  split at h
  · rename_i seen row hseen hrow
    exact .inr (.inr ⟨seen, row, hseen, by rw [stored_apply_self, hrow], h⟩)
  · exact h.elim

lemma inv_apply (hinv : Inv retention s) (hok : Admissible s (.write w)) :
    Inv retention (s.apply w) where
  tracked key hkey := by
    have hsame : (s.apply w).stored key = s.stored key ∧
        (s.apply w).written key = s.written key → Tracked (s.apply w) key := by
      rintro ⟨hstored, hwritten⟩
      have h := hinv.tracked key hkey
      unfold Tracked at *
      rwa [hstored, hwritten]
    cases hlands : w.lands (s.existing w.key) with
    | false => exact hsame (stored_apply_of_not_lands hlands key)
    | true =>
      by_cases heq : key = w.key
      · subst heq
        exact tracked_of_admits (hok hkey hlands)
      · exact hsame (stored_apply_of_ne heq)
  staged := hinv.staged
  dead := hinv.dead

omit [DecidableEq K] in
lemma young_eq_false_of_le {clock clock' : Int} {version : UInt64} (h : clock ≤ clock')
    (hold : young retention clock version = false) : young retention clock' version = false := by
  rw [young, decide_eq_false_iff_not] at *
  rintro ⟨hversion, hage⟩
  refine hold ⟨hversion, ?_⟩
  unfold SignedWord.since at *
  omega

omit [DecidableEq K] in
lemma inv_tick {clock : Int} (hinv : Inv retention s) (h : s.clock ≤ clock) :
    Inv retention { s with clock := clock } :=
  { hinv with
    dead := fun c hc => by
      obtain ⟨seen, hseen, hexpiry, hexpired, htomb⟩ := hinv.dead c hc
      exact ⟨seen, hseen, hexpiry, hexpired, fun htombstone =>
        ⟨(htomb htombstone).1, young_eq_false_of_le h (htomb htombstone).2⟩⟩ }

end Others

/-! ## The sweep deletes dead rows only -/

section Main

variable {E K : Type} [DecidableEq E] [DecidableEq K] {retention : Int64} {s : State E K}

lemma inv_step (hinv : Inv retention s) (e : Event E K) (hok : Admissible s e) :
    Inv retention (step retention s e) := by
  cases e with
  | scan readable => exact (continues_scan retention readable s).inv hinv
  | flush readable backrefReadable ok => exact (flush_spec readable backrefReadable retention ok s).1.inv hinv
  | shutdown => exact (continues_shutdown retention s).inv hinv
  | write w => exact inv_apply hinv hok
  | index backrefs entries => exact ⟨hinv.tracked, hinv.staged, hinv.dead⟩
  | tick clock => exact inv_tick hinv hok

lemma now_step (s : State E K) (e : Event E K) : (step retention s e).sweep.now = s.sweep.now := by
  cases e with
  | scan readable => exact (continues_scan retention readable s).now
  | flush readable backrefReadable ok =>
    exact (flush_spec readable backrefReadable retention ok s).1.now
  | shutdown => exact (continues_shutdown retention s).now
  | write w | index backrefs entries | tick clock => rfl

lemma now_run (retention : Int64) (s : State E K) (es : List (Event E K)) :
    (run (step retention) s es).sweep.now = s.sweep.now :=
  run_eq_of_forall (f := fun s => s.sweep.now) (fun e _ s => now_step s e) s

/-- Only a flush makes rows disappear. -/
theorem staged_or_passes_of_deleted {e : Event E K} {key : K} {value : List UInt8}
    (hrow : s.db.rows key = some value) (hgone : (step retention s e).db.rows key = none) :
    .row key ∈ s.sweep.batch ∨ Passes s.db s.sweep.candidates key := by
  have hkept : ∀ {db : Database E K}, db.rows key = none → db.rows key ≠ s.db.rows key := by
    intro db hnone hsame
    rw [hnone, hrow] at hsame
    simp at hsame
  cases e with
  | scan readable => exact absurd (by rw [step, db_scan]) (hkept hgone)
  | flush readable backrefReadable ok =>
    exact ((flush_spec readable backrefReadable retention ok s).2 key).resolve_left
      (hkept hgone)
  | shutdown => exact absurd (by rw [step, db_shutdown]) (hkept hgone)
  | write w =>
    by_cases hkey : key = w.key
    · subst hkey
      simp [step] at hgone
    · exact absurd (by simp [step, hkey]) (hkept hgone)
  | index backrefs entries | tick clock => exact absurd rfl (hkept hgone)

/-- The sweep deletes no row that was written since its iterator was opened, no row that decodes and
is not expired, and no tombstone whose stamp is younger than the retention. -/
theorem cleanupExpiredKeys_safe (retention : Int64) (order : List K) (now : Int64) (db : Database E K)
    (reclaimed : Reclaimed) (totalSize : Int64) (cleanedKeys : Nat) (clock : Int)
    (es : List (Event E K))
    (hok : RunOk (step retention) Admissible
      (cleanupExpiredKeys order now db reclaimed totalSize cleanedKeys clock) es)
    (e : Event E K) (key : K) (value : List UInt8)
    (hrow : (run (step retention)
      (cleanupExpiredKeys order now db reclaimed totalSize cleanedKeys clock) es).db.rows key =
        some value)
    (hgone : (run (step retention)
      (cleanupExpiredKeys order now db reclaimed totalSize cleanedKeys clock) (es ++ [e])).db.rows key =
        none) :
    (run (step retention)
      (cleanupExpiredKeys order now db reclaimed totalSize cleanedKeys clock) es).written key = false ∧
    ∀ vm, ValueMessage.unmarshal value = some vm → Store.expired now vm = true ∧
      (vm.expiry = tombstoneExpiry → young retention (run (step retention)
        (cleanupExpiredKeys order now db reclaimed totalSize cleanedKeys clock) es).clock vm.version =
          false) := by
  have hinv := invariant_run (I := Inv retention) (fun s e hinv hok => inv_step hinv e hok)
    (inv_cleanupExpiredKeys order now db reclaimed totalSize cleanedKeys clock) hok
  have hnow := now_run retention
    (cleanupExpiredKeys order now db reclaimed totalSize cleanedKeys clock) es
  rw [run_append] at hgone
  -- The last event is a flush, of a row that was dead in the state before it.
  have hdead := dead_of_deleted hinv hrow (staged_or_passes_of_deleted hrow hgone)
  rw [hnow] at hdead
  exact hdead

end Main

/-! ## Two sweeps -/

/-- A sweep without index and bookkeeping. -/
def sweepOf (order : List Nat) (now : Int64) (rows : Nat → Option (List UInt8)) (clock : Int) :
    State Nat Nat :=
  cleanupExpiredKeys order now ⟨rows, fun _ => none, []⟩ ⟨[], []⟩ 0 0 clock

def putOne (key : Nat) (expiry : Int64) : Event Nat Nat :=
  .write (.put key ⟨.inline [1], by simp [Payload.Sized]⟩ expiry)

def flushAll : Event Nat Nat := .flush (fun _ => true) (fun _ => true) true

/-- An expired row, an old tombstone, a row that does not decode and an expired row that is
written. -/
def fourRows : Nat → Option (List UInt8)
  | 0 => some ({ data := [7], expiry := 5, valueLength := 1 } : ValueMessage).marshal
  | 1 => some (tombstone 3).marshal
  | 2 => some [0xff]
  | 3 => some ({ data := [7], expiry := 5, valueLength := 1 } : ValueMessage).marshal
  | _ => none

def fourScans : List (Event Nat Nat) :=
  [.scan true, .scan true, .scan true, .scan true, putOne 3 100, .scan true]

theorem cleanupExpiredKeys_safe_tombstone :
    ((run (step 20) (sweepOf [0, 1, 2, 3] 10 fourRows 40) fourScans).written 1 = false ∧
      ∀ vm, ValueMessage.unmarshal (tombstone 3).marshal = some vm → Store.expired 10 vm = true ∧
        (vm.expiry = tombstoneExpiry → young 20 (run (step 20) (sweepOf [0, 1, 2, 3] 10 fourRows 40)
          fourScans).clock vm.version = false)) ∧
      (run (step 20) (sweepOf [0, 1, 2, 3] 10 fourRows 40) (fourScans ++ [flushAll])).db.rows 3 ≠ none :=
  ⟨cleanupExpiredKeys_safe 20 [0, 1, 2, 3] 10 _ _ _ _ _ fourScans (by decide +kernel) flushAll 1 _
    (by decide +kernel) (by decide +kernel), by decide +kernel⟩

/-- The row does not decode when it is scanned. A value is put before the flush, and the flush
deletes it: the value does not expire, and it was written in the window. -/
theorem cleanupExpiredKeys_drops :
    (run (step 20) (sweepOf [2] 10 fourRows 40) [.scan true, putOne 2 0, .scan true]).db.rows 2 =
        some (Store.putRow (.inline [1]) 0).marshal ∧
      (run (step 20) (sweepOf [2] 10 fourRows 40) [.scan true, putOne 2 0, .scan true]).written 2 =
        true ∧
      (run (step 20) (sweepOf [2] 10 fourRows 40)
        [.scan true, putOne 2 0, .scan true, flushAll]).db.rows 2 = none := by
  decide +kernel

end OCache.Cleaner
