import OCache.Store.Calls

/-!
# Eviction by index, on any database

`evictByIndex` walks the ordered entries of the eviction index, oldest first, until it has freed
enough bytes. It looks every row and back-reference up in the store, while the deletions it has
decided on wait in a batch. The batch is written when it has grown to 1000 operations and at the
end, and only then the backing bytes are reclaimed and counted.

The database is arbitrary: entries that do not parse, entries without a row, several entries for a
key, back-references that are missing or name something else, rows that do not decode, expired rows
and tombstones. Nothing fails and nobody else writes.
-/

namespace OCache.Eviction

/-! ## The pass -/

section Pass

variable {E K : Type} [DecidableEq E] [DecidableEq K]

/-- What the pass reads and deletes. Entries are in the order of the index; a back-reference holds
the key of an entry. -/
structure Database (E K : Type) where
  rows : K → Option (List UInt8)
  backrefs : K → Option E
  entries : List E

/-- An operation of the write batch. -/
inductive Delete (E K : Type) where
  | row (key : K)
  | entry (e : E)
  | backref (key : K)
deriving DecidableEq

/-- The database after a batch. -/
def Database.write (db : Database E K) (batch : List (Delete E K)) : Database E K where
  rows key := if .row key ∈ batch then none else db.rows key
  backrefs key := if .backref key ∈ batch then none else db.backrefs key
  entries := db.entries.filter fun e => .entry e ∉ batch

/-- Where backing bytes are reclaimed. -/
structure Reclaimed where
  deletionQueue : List String
  /-- Additions to the delete index. -/
  deleteIndex : List (String × Int64)

/-- `stageFileDeletion` -/
def stageFileDeletion (r : Reclaimed) (vm : ValueMessage) : Reclaimed :=
  match vm.valueType with
  | .rawFile => { r with deletionQueue := r.deletionQueue ++ [vm.rawFilePath] }
  | .segment => { r with deleteIndex := r.deleteIndex ++ [(vm.segmentPath, vm.valueLength)] }
  | _ => r

/-- What the pass makes of an entry. -/
inductive Verdict (K : Type) where
  | skip
  /-- Delete the entry alone. -/
  | reclaim
  | corrupt (key : K)
  | evict (key : K) (vm : ValueMessage)

/-- The lookups for an entry. -/
def examine (parseKey : E → Option K) (db : Database E K) (now : Int64) (e : E) : Verdict K :=
  match parseKey e with
  | none => .skip
  | some key =>
    match db.rows key with
    | none => .reclaim
    | some data =>
      match ValueMessage.unmarshal data with
      | none => .corrupt key
      | some vm =>
        -- Expired rows are left to the TTL sweep.
        if Store.expired now vm then .skip
        else if db.backrefs key ≠ none ∧ db.backrefs key ≠ some e then .reclaim
        else .evict key vm

/-- The variables of the pass. -/
structure Pass (E K : Type) where
  db : Database E K
  batch : List (Delete E K)
  pendingBytes : Int64
  pendingCount : Nat
  pendingFiles : List ValueMessage
  committedBytes : Int64
  evictedCount : Nat
  reclaimed : Reclaimed

namespace Pass

/-- `commit` -/
def commit (p : Pass E K) : Pass E K :=
  if p.batch = [] then p
  else
    { db := p.db.write p.batch
      batch := []
      pendingBytes := 0
      pendingCount := 0
      pendingFiles := []
      committedBytes := p.committedBytes + p.pendingBytes
      evictedCount := p.evictedCount + p.pendingCount
      reclaimed := p.pendingFiles.foldl stageFileDeletion p.reclaimed }

/-- The body of the loop, behind the checks at its top. -/
def visit (parseKey : E → Option K) (now : E → Int64) (p : Pass E K) (e : E) : Pass E K :=
  match examine parseKey p.db (now e) e with
  | .skip => p
  | .reclaim => { p with batch := p.batch ++ [.entry e] }
  | .corrupt key => { p with batch := p.batch ++ [.row key, .entry e, .backref key] }
  | .evict key vm =>
    { p with
      batch := p.batch ++ [.row key, .entry e, .backref key]
      pendingBytes := p.pendingBytes + vm.valueLength
      pendingCount := p.pendingCount + 1
      pendingFiles := p.pendingFiles ++ [vm] }

/-- A batch of this many operations is written. -/
def maxBatch : Nat := 1000

/-- The periodic flush at the top of the loop. -/
def flush (p : Pass E K) : Pass E K := if maxBatch ≤ p.batch.length then p.commit else p

/-- The loop, over the entries the iterator has ahead. -/
def loop (parseKey : E → Option K) (now : E → Int64) (target : Int64) : List E → Pass E K → Pass E K
  | [], p => p
  | e :: es, p =>
    if target ≤ p.flush.committedBytes + p.flush.pendingBytes then p.flush
    else loop parseKey now target es (p.flush.visit parseKey now e)

end Pass

/-- The store around the pass. -/
structure Cleaner (E K : Type) where
  db : Database E K
  reclaimed : Reclaimed
  totalSize : Int64
  evictedKeys : Nat

/-- `evictByIndex`, with the clock readings at the entries: the state afterwards and the number of
keys that were evicted. -/
def evictByIndex (parseKey : E → Option K) (now : E → Int64) (target : Int64) (c : Cleaner E K) :
    Cleaner E K × Nat :=
  let p := (Pass.loop parseKey now target c.db.entries ⟨c.db, [], 0, 0, [], 0, 0, c.reclaimed⟩).commit
  ({ db := p.db
     reclaimed := p.reclaimed
     totalSize := c.totalSize - p.committedBytes
     evictedKeys := c.evictedKeys + p.evictedCount }, p.evictedCount)

end Pass

/-! ## What should be evicted -/

/-- A beginning of a list: the shortest that meets a condition, or the whole list. -/
structure Shortest {α : Type*} (reached : List α → Prop) (xs ys : List α) : Prop where
  beginning : ys <+: xs
  stop : reached ys ∨ ys = xs
  shortest : ∀ zs, zs <+: ys → zs ≠ ys → ¬reached zs

/-- A key that can be evicted, with its row. -/
structure Victim (K : Type) where
  key : K
  vm : ValueMessage

/-- The bytes of victims. -/
def bytes {K : Type} : List (Victim K) → Int64
  | [] => 0
  | v :: vs => v.vm.valueLength + bytes vs

/-- The first victims of the keys. -/
def distinct {K : Type} [DecidableEq K] (vs : List (Victim K)) : List (Victim K) :=
  vs.foldl (fun vs v => if v.key ∈ vs.map (·.key) then vs else vs ++ [v]) []

lemma bytes_append {K : Type} (vs ws : List (Victim K)) :
    bytes (vs ++ ws) = bytes vs + bytes ws := by
  induction vs with
  | nil => exact (Int64.zero_add _).symm
  | cons v vs ih => rw [List.cons_append, bytes, bytes, ih, Int64.add_assoc]

section Spec

variable {E K : Type} [DecidableEq E]

/-- An entry is evictable if its key has a live row, and a back-reference that is absent or equal to
the entry. -/
def evictable (parseKey : E → Option K) (db : Database E K) (now : E → Int64) (e : E) :
    Option (Victim K) := do
  let key ← parseKey e
  let data ← db.rows key
  let vm ← ValueMessage.unmarshal data
  if Store.expired (now e) vm then none
  else if db.backrefs key = none ∨ db.backrefs key = some e then some ⟨key, vm⟩
  else none

/-- The evictable entries, oldest first. -/
def evictables (parseKey : E → Option K) (db : Database E K) (now : E → Int64) : List (Victim K) :=
  db.entries.filterMap (evictable parseKey db now)

/-- The row does not decode. -/
def Corrupt (db : Database E K) (key : K) : Prop :=
  ∃ data, db.rows key = some data ∧ ValueMessage.unmarshal data = none

/-- The database without the rows of some keys. -/
def Database.without [DecidableEq K] (db : Database E K) (keys : List K) : Database E K :=
  { db with rows := fun key => if key ∈ keys then none else db.rows key }

/-- How far a pass has come: the keys that earlier batches have deleted, those that wait in the
batch, the operations of the batch and the bytes of all these keys. -/
structure Progress (K : Type) where
  flushed : List K
  waiting : List K
  operations : Nat
  freed : Int64

/-- A batch that is full is written. -/
def Progress.flush (w : Progress K) : Progress K :=
  if Pass.maxBatch ≤ w.operations then
    { w with flushed := w.flushed ++ w.waiting, waiting := [], operations := 0 }
  else w

/-- On the way to the target no key becomes evictable a second time while its deletion waits in the
batch, and no entry leads to a row that does not decode. -/
def Clean [DecidableEq K] (parseKey : E → Option K) (db : Database E K) (now : E → Int64)
    (target : Int64) : List E → Progress K → Prop
  | [], _ => True
  | e :: es, w =>
    target ≤ w.freed ∨
      match examine parseKey (db.without w.flush.flushed) (now e) e with
      | .skip => Clean parseKey db now target es w.flush
      | .reclaim =>
        Clean parseKey db now target es { w.flush with operations := w.flush.operations + 1 }
      | .corrupt _ => False
      | .evict key vm => key ∉ w.flush.waiting ∧
        Clean parseKey db now target es
          { w.flush with
            waiting := w.flush.waiting ++ [key]
            operations := w.flush.operations + 3
            freed := w.flush.freed + vm.valueLength }

variable {parseKey : E → Option K} {db : Database E K} {now : E → Int64} {e : E}

/-- The pass evicts through the evictable entries of the database it looks at. -/
theorem examine_eq_evict {key : K} {vm : ValueMessage} :
    examine parseKey db (now e) e = .evict key vm ↔ evictable parseKey db now e = some ⟨key, vm⟩ := by
  unfold examine evictable
  cases parseKey e with
  | none => simp
  | some k =>
    cases hrow : db.rows k with
    | none => simp [hrow]
    | some data =>
      cases hvm : ValueMessage.unmarshal data with
      | none => simp [hrow, hvm]
      | some vm' =>
        by_cases hexp : Store.expired (now e) vm' = true
        · simp [hrow, hvm, hexp]
        · by_cases href : db.backrefs k = none ∨ db.backrefs k = some e
          · have hnot : ¬(db.backrefs k ≠ none ∧ db.backrefs k ≠ some e) := by tauto
            simp [hrow, hvm, hexp, if_neg hnot, href]
          · have hboth : db.backrefs k ≠ none ∧ db.backrefs k ≠ some e := not_or.mp href
            simp [hrow, hvm, hexp, if_pos hboth, href]

lemma evictable_eq_some {v : Victim K} :
    evictable parseKey db now e = some v ↔
      parseKey e = some v.key ∧
        (∃ data, db.rows v.key = some data ∧ ValueMessage.unmarshal data = some v.vm) ∧
          Store.expired (now e) v.vm = false ∧
            (db.backrefs v.key = none ∨ db.backrefs v.key = some e) := by
  simp only [evictable, Option.bind_eq_bind, Option.bind_eq_some_iff]
  constructor
  · rintro ⟨key, hkey, data, hrow, vm, hvm, h⟩
    split at h
    · simp at h
    · rename_i hexp
      split at h
      · rename_i href
        obtain rfl := Option.some.inj h
        exact ⟨hkey, ⟨data, hrow, hvm⟩, by simpa using hexp, href⟩
      · simp at h
  · rintro ⟨hkey, ⟨data, hrow, hvm⟩, hexp, href⟩
    refine ⟨v.key, hkey, data, hrow, v.vm, hvm, ?_⟩
    rw [if_neg (by simp [hexp]), if_pos href]

lemma corrupt_of_examine {key : K} (h : examine parseKey db (now e) e = .corrupt key) :
    Corrupt db key := by
  unfold examine at h
  cases hkey : parseKey e with
  | none => simp [hkey] at h
  | some k =>
    cases hrow : db.rows k with
    | none => simp [hkey, hrow] at h
    | some data =>
      cases hvm : ValueMessage.unmarshal data with
      | none =>
        obtain rfl : k = key := by simpa [hkey, hrow, hvm] using h
        exact ⟨data, hrow, hvm⟩
      | some vm =>
        simp only [hkey, hrow, hvm] at h
        split at h
        · simp at h
        · split at h
          all_goals simp at h

/-- An entry is evictable after some keys are gone if it was before and its key is not among
them. -/
theorem evictable_without [DecidableEq K] {keys : List K} {v : Victim K} :
    evictable parseKey (db.without keys) now e = some v ↔
      evictable parseKey db now e = some v ∧ v.key ∉ keys := by
  rw [evictable_eq_some, evictable_eq_some]
  simp only [Database.without]
  by_cases hmem : v.key ∈ keys <;> simp [hmem]

end Spec

/-! ## The keys of victims -/

section Distinct

variable {K : Type} [DecidableEq K] {vs : List (Victim K)}

lemma distinct_concat (vs : List (Victim K)) (v : Victim K) :
    distinct (vs ++ [v]) =
      if v.key ∈ (distinct vs).map (·.key) then distinct vs else distinct vs ++ [v] := by
  rw [distinct, List.foldl_append]
  rfl

/-- Every key has one victim. -/
theorem keys_distinct (vs : List (Victim K)) :
    ((distinct vs).map (·.key)).Nodup ∧
      ∀ key, key ∈ (distinct vs).map (·.key) ↔ key ∈ vs.map (·.key) := by
  induction vs using List.reverseRecOn with
  | nil => exact ⟨List.nodup_nil, fun _ => Iff.rfl⟩
  | append_singleton vs v ih =>
    obtain ⟨hnodup, hmem⟩ := ih
    rw [distinct_concat]
    split
    · rename_i hseen
      refine ⟨hnodup, fun key => ?_⟩
      rw [hmem, List.map_append, List.mem_append, List.map_singleton, List.mem_singleton]
      refine ⟨.inl, fun h => h.elim id ?_⟩
      rintro rfl
      exact (hmem _).mp hseen
    · rename_i hnew
      rw [List.map_append, List.map_singleton]
      refine ⟨List.nodup_append.mpr ⟨hnodup, by simp, ?_⟩, fun key => ?_⟩
      · rintro key hkey key' hkey' rfl
        exact hnew (List.mem_singleton.mp hkey' ▸ hkey)
      · rw [List.mem_append, hmem, List.map_append, List.map_singleton, List.mem_append]

end Distinct

/-! ## The database of a pass -/

section Invariant

variable {E K : Type} {parseKey : E → Option K} {now : E → Int64} {target : Int64}
  {db₀ db : Database E K} {r₀ : Reclaimed} {gone waiting : List (Victim K)} {bad : List K}
  {p : Pass E K} {e : E}

/-- The pass has evicted some keys and has others in its batch, in both cases maybe repeatedly. It
has dropped some rows that do not decode, or is about to. -/
structure Inv (db₀ : Database E K) (r₀ : Reclaimed) (gone waiting : List (Victim K)) (bad : List K)
    (p : Pass E K) : Prop where
  kept : ∀ key, p.db.rows key = none ∨
    p.db.rows key = db₀.rows key ∧ p.db.backrefs key = db₀.backrefs key
  removed : ∀ key, p.db.rows key = none →
    db₀.rows key = none ∨ key ∈ gone.map (·.key) ∨ key ∈ bad
  evicted : ∀ v ∈ gone, p.db.rows v.key = none
  dropped : ∀ key ∈ bad, p.db.rows key = none ∨ .row key ∈ p.batch
  staged : ∀ v ∈ waiting, .row v.key ∈ p.batch
  row : ∀ key, .row key ∈ p.batch → key ∈ waiting.map (·.key) ∨ key ∈ bad
  backref : ∀ key, .backref key ∈ p.batch → .row key ∈ p.batch
  corrupt : ∀ key ∈ bad, Corrupt db₀ key
  pendingBytes : p.pendingBytes = bytes waiting
  pendingCount : p.pendingCount = waiting.length
  pendingFiles : p.pendingFiles = waiting.map (·.vm)
  committedBytes : p.committedBytes = bytes gone
  evictedCount : p.evictedCount = gone.length
  reclaimed : p.reclaimed = (gone.map (·.vm)).foldl stageFileDeletion r₀

lemma inv_start (db₀ : Database E K) (r₀ : Reclaimed) :
    Inv db₀ r₀ [] [] [] ⟨db₀, [], 0, 0, [], 0, 0, r₀⟩ where
  kept _ := .inr ⟨rfl, rfl⟩
  removed _ := .inl
  evicted := by simp
  dropped := by simp
  staged := by simp
  row := by simp
  backref := by simp
  corrupt := by simp
  pendingBytes := rfl
  pendingCount := rfl
  pendingFiles := rfl
  committedBytes := rfl
  evictedCount := rfl
  reclaimed := rfl

namespace Inv

variable (h : Inv db₀ r₀ gone waiting bad p)

include h

/-- The deletion of an entry joins the batch. -/
theorem reclaim (e : E) : Inv db₀ r₀ gone waiting bad { p with batch := p.batch ++ [.entry e] } :=
  { h with
    dropped := fun key hkey => (h.dropped key hkey).imp_right (List.mem_append_left _)
    staged := fun v hv => List.mem_append_left _ (h.staged v hv)
    row := fun key hmem => h.row key (by simpa using hmem)
    backref := fun key hmem => List.mem_append_left _ (h.backref key (by simpa using hmem)) }

/-- So does that of a row that does not decode. -/
theorem drop (e : E) {key : K} (hkey : Corrupt db₀ key) :
    Inv db₀ r₀ gone waiting (bad ++ [key])
      { p with batch := p.batch ++ [.row key, .entry e, .backref key] } :=
  { h with
    removed := fun k hk => (h.removed k hk).imp_right (.imp_right (List.mem_append_left _))
    dropped := fun k hk => by
      rcases List.mem_append.mp hk with hold | hnew
      · exact (h.dropped k hold).imp_right (List.mem_append_left _)
      · exact .inr (by simp [List.mem_singleton.mp hnew])
    staged := fun v hv => List.mem_append_left _ (h.staged v hv)
    row := fun k hmem => by
      rcases List.mem_append.mp hmem with hold | hnew
      · exact (h.row k hold).imp_right (List.mem_append_left _)
      · exact .inr (List.mem_append_right _ (by simpa using hnew))
    backref := fun k hmem => by
      rcases List.mem_append.mp hmem with hold | hnew
      · exact List.mem_append_left _ (h.backref k hold)
      · exact List.mem_append_right _ (by simpa using hnew)
    corrupt := fun k hk => by
      rcases List.mem_append.mp hk with hold | hnew
      · exact h.corrupt k hold
      · exact List.mem_singleton.mp hnew ▸ hkey }

/-- And that of a victim. -/
theorem evict (e : E) (v : Victim K) :
    Inv db₀ r₀ gone (waiting ++ [v]) bad
      { p with
        batch := p.batch ++ [.row v.key, .entry e, .backref v.key]
        pendingBytes := p.pendingBytes + v.vm.valueLength
        pendingCount := p.pendingCount + 1
        pendingFiles := p.pendingFiles ++ [v.vm] } :=
  { h with
    dropped := fun key hkey => (h.dropped key hkey).imp_right (List.mem_append_left _)
    staged := fun w hw => by
      rcases List.mem_append.mp hw with hold | hnew
      · exact List.mem_append_left _ (h.staged w hold)
      · exact List.mem_append_right _ (by simp [List.mem_singleton.mp hnew])
    row := fun key hmem => by
      rw [List.map_append, List.mem_append]
      rcases List.mem_append.mp hmem with hold | hnew
      · exact (h.row key hold).imp_left .inl
      · exact .inl (.inr (by simpa using hnew))
    backref := fun key hmem => by
      rcases List.mem_append.mp hmem with hold | hnew
      · exact List.mem_append_left _ (h.backref key hold)
      · exact List.mem_append_right _ (by simpa using hnew)
    pendingBytes := by rw [bytes_append, h.pendingBytes, bytes, bytes, Int64.add_zero]
    pendingCount := by rw [List.length_append, h.pendingCount, List.length_singleton]
    pendingFiles := by rw [List.map_append, h.pendingFiles, List.map_singleton] }

/-- A row that the pass finds is the one that was there. -/
theorem corrupt_of_examine [DecidableEq E] {key : K}
    (hexamine : examine parseKey p.db (now e) e = .corrupt key) : Corrupt db₀ key := by
  obtain ⟨data, hrow, hvm⟩ := Eviction.corrupt_of_examine hexamine
  rcases h.kept key with hgone | ⟨hrows, -⟩
  · simp [hgone] at hrow
  · exact ⟨data, hrows ▸ hrow, hvm⟩

/-- What waits in the batch is evicted when it is written. -/
theorem commit [DecidableEq E] [DecidableEq K] : Inv db₀ r₀ (gone ++ waiting) [] bad p.commit := by
  unfold Pass.commit
  split
  · -- Nothing is written if the batch is empty, and then nothing waits.
    rename_i hempty
    obtain rfl : waiting = [] := by
      rw [List.eq_nil_iff_forall_not_mem]
      intro v hv
      have := h.staged v hv
      simp [hempty] at this
    rwa [List.append_nil]
  · -- A key whose row is not in the batch keeps its back-reference too.
    have hrow : ∀ key, (p.db.write p.batch).rows key = none ∧ .row key ∈ p.batch ∨
        (p.db.write p.batch).rows key = p.db.rows key ∧
          (p.db.write p.batch).backrefs key = p.db.backrefs key := by
      intro key
      by_cases hmem : Delete.row key ∈ p.batch
      · exact .inl ⟨if_pos hmem, hmem⟩
      · exact .inr ⟨if_neg hmem, if_neg fun hback => hmem (h.backref key hback)⟩
    refine ⟨fun key => ?_, fun key hnone => ?_, fun v hv => ?_, fun key hkey => ?_, by simp, by simp,
      by simp, h.corrupt, rfl, rfl, rfl, ?_, ?_, ?_⟩
    · rcases hrow key with ⟨hnone, -⟩ | ⟨hrows, hbackrefs⟩
      · exact .inl hnone
      · rw [hrows, hbackrefs]
        exact h.kept key
    · rw [List.map_append, List.mem_append]
      rcases hrow key with ⟨-, hmem⟩ | ⟨hrows, -⟩
      · exact .inr ((h.row key hmem).imp_left .inr)
      · exact (h.removed key (hrows ▸ hnone)).imp_right (.imp_left .inl)
    · rcases List.mem_append.mp hv with hgone | hwaiting
      · rcases hrow v.key with ⟨hnone, -⟩ | ⟨hrows, -⟩
        · exact hnone
        · exact hrows.trans (h.evicted v hgone)
      · exact if_pos (h.staged v hwaiting)
    · rcases hrow key with ⟨hnone, -⟩ | ⟨hrows, -⟩
      · exact .inl hnone
      · rcases h.dropped key hkey with hnone | hmem
        · exact .inl (hrows.trans hnone)
        · exact .inl (if_pos hmem)
    · rw [bytes_append, ← h.committedBytes, ← h.pendingBytes]
    · rw [List.length_append, ← h.evictedCount, ← h.pendingCount]
    · rw [List.map_append, List.foldl_append, ← h.reclaimed, ← h.pendingFiles]

end Inv

/-! ## The loop -/

lemma Inv.reached_iff (h : Inv db₀ r₀ gone waiting bad p) :
    target ≤ p.committedBytes + p.pendingBytes ↔ target ≤ bytes (gone ++ waiting) := by
  rw [bytes_append, h.committedBytes, h.pendingBytes]

section Loop

variable [DecidableEq E] [DecidableEq K]

/-- How far the pass has come. -/
def progress (gone waiting : List (Victim K)) (p : Pass E K) : Progress K :=
  ⟨gone.map (·.key), waiting.map (·.key), p.batch.length, bytes (gone ++ waiting)⟩

/-- What the pass has evicted when it flushes is the same afterwards. -/
theorem Inv.flush (h : Inv db₀ r₀ gone waiting bad p) :
    ∃ gone' waiting', gone' ++ waiting' = gone ++ waiting ∧ Inv db₀ r₀ gone' waiting' bad p.flush ∧
      (progress gone waiting p).flush = progress gone' waiting' p.flush := by
  unfold Pass.flush
  split
  · rename_i hfull
    refine ⟨gone ++ waiting, [], List.append_nil _, h.commit, ?_⟩
    have hne : p.batch ≠ [] := by
      rintro hnil
      simp [hnil, Pass.maxBatch] at hfull
    simp [progress, Progress.flush, hfull, Pass.commit, hne]
  · rename_i hfull
    exact ⟨gone, waiting, rfl, h, if_neg hfull⟩

/-- From here on nothing that was evicted or dropped is forgotten. -/
theorem Inv.loop (h : Inv db₀ r₀ gone waiting bad p) (parseKey : E → Option K) (now : E → Int64)
    (target : Int64) (es : List E) :
    ∃ gone' waiting' bad', Inv db₀ r₀ gone' waiting' bad' (Pass.loop parseKey now target es p) ∧
      gone ++ waiting <+: gone' ++ waiting' ∧ bad <+: bad' := by
  induction es generalizing gone waiting bad p with
  | nil => exact ⟨gone, waiting, bad, h, List.prefix_rfl, List.prefix_rfl⟩
  | cons e es ih =>
    obtain ⟨gone₁, waiting₁, hseen, hflush, -⟩ := h.flush
    rw [← hseen, Pass.loop]
    split
    · exact ⟨gone₁, waiting₁, bad, hflush, List.prefix_rfl, List.prefix_rfl⟩
    · unfold Pass.visit
      cases hexamine : examine parseKey p.flush.db (now e) e with
      | skip => exact ih hflush
      | reclaim => exact ih (hflush.reclaim e)
      | corrupt key =>
        obtain ⟨gone', waiting', bad', hinv, hfront, hbad⟩ :=
          ih (hflush.drop e (hflush.corrupt_of_examine hexamine))
        exact ⟨gone', waiting', bad', hinv, hfront, (List.prefix_append _ _).trans hbad⟩
      | evict key vm =>
        obtain ⟨gone', waiting', bad', hinv, hfront, hbad⟩ := ih (hflush.evict e ⟨key, vm⟩)
        rw [← List.append_assoc] at hfront
        exact ⟨gone', waiting', bad', hinv, (List.prefix_append _ _).trans hfront, hbad⟩

/-- Unless a row was dropped, the pass finds what was there before without the evicted keys. -/
theorem Inv.examine_eq (h : Inv db₀ r₀ gone waiting [] p) :
    examine parseKey p.db (now e) e =
      examine parseKey (db₀.without (gone.map (·.key))) (now e) e := by
  unfold examine
  cases hkey : parseKey e with
  | none => rfl
  | some key =>
    simp only [Database.without]
    by_cases hgone : key ∈ gone.map (·.key)
    · obtain ⟨v, hv, rfl⟩ := List.mem_map.mp hgone
      rw [if_pos hgone, h.evicted v hv]
    · rw [if_neg hgone]
      rcases h.kept key with hnone | ⟨hrows, hbackrefs⟩
      · have hnone₀ := (h.removed key hnone).resolve_right (by simpa using hgone)
        rw [hnone, hnone₀]
      · rw [hrows, hbackrefs]
        rfl

/-- A pass that is not clean drops a row or evicts a key twice. -/
theorem Inv.loop_of_not_clean (es : List E) (h : Inv db₀ r₀ gone waiting [] p)
    (hclean : ¬Clean parseKey db₀ now target es (progress gone waiting p)) :
    ∃ gone' waiting' bad', Inv db₀ r₀ gone' waiting' bad' (Pass.loop parseKey now target es p) ∧
      (bad' ≠ [] ∨ ¬((gone' ++ waiting').map (·.key)).Nodup) := by
  induction es generalizing gone waiting p with
  | nil => exact absurd trivial hclean
  | cons e es ih =>
    obtain ⟨gone₁, waiting₁, hseen, hflush, hprogress⟩ := h.flush
    rw [Clean, hprogress, not_or] at hclean
    obtain ⟨hnot, hclean⟩ := hclean
    have hnot : ¬target ≤ p.flush.committedBytes + p.flush.pendingBytes := by
      rw [hflush.reached_iff, hseen]
      exact hnot
    rw [Pass.loop, if_neg hnot]
    simp only [progress] at hclean
    rw [← hflush.examine_eq] at hclean
    unfold Pass.visit
    cases hexamine : examine parseKey p.flush.db (now e) e with
    | skip =>
      rw [hexamine] at hclean
      exact ih hflush hclean
    | reclaim =>
      rw [hexamine] at hclean
      exact ih (hflush.reclaim e) (by simpa [progress] using hclean)
    | corrupt key =>
      obtain ⟨gone', waiting', bad', hinv, -, hbad⟩ :=
        (hflush.drop e (hflush.corrupt_of_examine hexamine)).loop parseKey now target es
      refine ⟨gone', waiting', bad', hinv, .inl ?_⟩
      rintro rfl
      simp at hbad
    | evict key vm =>
      rw [hexamine] at hclean
      by_cases htwin : key ∈ waiting₁.map (·.key)
      · obtain ⟨gone', waiting', bad', hinv, hfront, -⟩ :=
          (hflush.evict e ⟨key, vm⟩).loop parseKey now target es
        refine ⟨gone', waiting', bad', hinv, .inr fun hnodup => ?_⟩
        have := hnodup.sublist (hfront.sublist.map _)
        rw [← List.append_assoc, List.map_append, List.nodup_append] at this
        exact this.2.2 key (by simp [htwin]) key (by simp) rfl
      · refine ih (hflush.evict e ⟨key, vm⟩) fun hrest => hclean ⟨htwin, ?_⟩
        simpa [progress, bytes_append, bytes, Int64.add_assoc] using hrest

/-- If no beginning reaches the target, none that is shorter than with one more does. -/
theorem not_reached_concat {α : Type} {reached : List α → Prop} {xs : List α} (o : Option α)
    (hxs : ¬reached xs) (h : ∀ ys, ys <+: xs → ys ≠ xs → ¬reached ys) :
    ∀ ys, ys <+: xs ++ o.toList → ys ≠ xs ++ o.toList → ¬reached ys := by
  intro ys hys hne
  cases o with
  | none =>
    rw [Option.toList_none, List.append_nil] at hys hne
    exact h ys hys hne
  | some x =>
    have hys : ys <+: xs := (List.prefix_concat_iff.mp hys).resolve_left hne
    by_cases hall : ys = xs
    · rwa [hall]
    · exact h ys hys hall

/-- A clean pass goes through the evictable entries until the bytes of their keys reach the
target. -/
theorem Inv.loop_of_clean (seen : List (Victim K)) (es : List E) (h : Inv db₀ r₀ gone waiting [] p)
    (hclean : Clean parseKey db₀ now target es (progress gone waiting p))
    (hseen : distinct seen = gone ++ waiting)
    (hbefore : ∀ vs, vs <+: seen → vs ≠ seen → ¬target ≤ bytes (distinct vs)) :
    ∃ gone' waiting' seen', Inv db₀ r₀ gone' waiting' [] (Pass.loop parseKey now target es p) ∧
      distinct seen' = gone' ++ waiting' ∧
      Shortest (fun vs => target ≤ bytes (distinct vs))
        (seen ++ es.filterMap (evictable parseKey db₀ now)) seen' := by
  induction es generalizing gone waiting p seen with
  | nil =>
    refine ⟨gone, waiting, seen, h, hseen, ?_⟩
    rw [List.filterMap_nil, List.append_nil]
    exact ⟨List.prefix_rfl, .inr rfl, hbefore⟩
  | cons e es ih =>
    obtain ⟨gone₁, waiting₁, hsame, hflush, hprogress⟩ := h.flush
    rw [← hsame] at hseen
    rw [Pass.loop]
    by_cases hreached : target ≤ bytes (gone₁ ++ waiting₁)
    · rw [if_pos (hflush.reached_iff.mpr hreached)]
      exact ⟨gone₁, waiting₁, seen, hflush, hseen, List.prefix_append _ _, .inl (hseen ▸ hreached),
        hbefore⟩
    · rw [if_neg (mt hflush.reached_iff.mp hreached)]
      rw [Clean, hprogress] at hclean
      have hclean := hclean.resolve_left fun h => hreached (hsame.symm ▸ h)
      -- The next evictable entry, if this is one, follows what was seen.
      have hsplit : seen ++ (e :: es).filterMap (evictable parseKey db₀ now) =
          seen ++ (evictable parseKey db₀ now e).toList ++
            es.filterMap (evictable parseKey db₀ now) := by
        rw [List.filterMap_cons]
        cases evictable parseKey db₀ now e with
        | none | some v => simp
      have hbefore := not_reached_concat (evictable parseKey db₀ now e) (hseen.symm ▸ hreached) hbefore
      rw [hsplit]
      have hevict : ∀ v : Victim K, examine parseKey p.flush.db (now e) e = .evict v.key v.vm ↔
          evictable parseKey db₀ now e = some v ∧ v.key ∉ gone₁.map (·.key) := fun v => by
        rw [hflush.examine_eq, examine_eq_evict, evictable_without]
      -- An entry that is not evicted is not evictable, or its key has been evicted.
      have hother : (∀ v : Victim K, examine parseKey p.flush.db (now e) e ≠ .evict v.key v.vm) →
          distinct (seen ++ (evictable parseKey db₀ now e).toList) = gone₁ ++ waiting₁ := by
        intro hne
        cases hv : evictable parseKey db₀ now e with
        | none => rwa [Option.toList_none, List.append_nil]
        | some v =>
          have hgone : v.key ∈ gone₁.map (·.key) := by
            by_contra hgone
            exact hne v ((hevict v).mpr ⟨hv, hgone⟩)
          rw [Option.toList_some, distinct_concat, hseen, if_pos]
          rw [List.map_append]
          exact List.mem_append_left _ hgone
      simp only [progress] at hclean
      rw [← hflush.examine_eq] at hclean
      unfold Pass.visit
      cases hexamine : examine parseKey p.flush.db (now e) e with
      | skip =>
        rw [hexamine] at hclean
        exact ih _ hflush hclean (hother (by simp [hexamine])) hbefore
      | reclaim =>
        rw [hexamine] at hclean
        exact ih _ (hflush.reclaim e) (by simpa [progress] using hclean)
          (hother (by simp [hexamine])) hbefore
      | corrupt key =>
        rw [hexamine] at hclean
        exact hclean.elim
      | evict key vm =>
        rw [hexamine] at hclean
        obtain ⟨hfresh, hclean⟩ := hclean
        obtain ⟨hv, hgone⟩ := (hevict ⟨key, vm⟩).mp hexamine
        rw [hv] at hbefore ⊢
        refine ih _ (hflush.evict e ⟨key, vm⟩) ?_ ?_ hbefore
        · simpa [progress, bytes_append, bytes, Int64.add_assoc] using hclean
        · rw [Option.toList_some, distinct_concat, hseen, if_neg, List.append_assoc]
          rw [List.map_append, List.mem_append, not_or]
          exact ⟨hgone, hfresh⟩

end Loop

end Invariant

/-- A pass evicts the right keys and accounts for each once. The keys are those of the shortest
beginning of the evictable entries in which the lengths of distinct keys reach the target; every
other row is as it was. -/
structure Exact {E K : Type} [DecidableEq E] [DecidableEq K] (parseKey : E → Option K)
    (now : E → Int64) (target : Int64) (c c' : Cleaner E K) (count : Nat)
    (victims : List (Victim K)) : Prop where
  shortest :
    Shortest (fun vs => target ≤ bytes (distinct vs)) (evictables parseKey c.db now) victims
  rows : ∀ key, c'.db.rows key = if key ∈ victims.map (·.key) then none else c.db.rows key
  count_eq : count = (distinct victims).length
  evictedKeys : c'.evictedKeys = c.evictedKeys + (distinct victims).length
  reclaimed : c'.reclaimed = ((distinct victims).map (·.vm)).foldl stageFileDeletion c.reclaimed
  totalSize : c'.totalSize = c.totalSize - bytes (distinct victims)

section Exact

variable {E K : Type} [DecidableEq E] [DecidableEq K] {parseKey : E → Option K} {now : E → Int64}
  {target : Int64} {c : Cleaner E K} {gone waiting : List (Victim K)} {bad : List K}

/-- The pass as far as its last batch. -/
def lastBatch (parseKey : E → Option K) (now : E → Int64) (target : Int64) (c : Cleaner E K) :
    Pass E K :=
  Pass.loop parseKey now target c.db.entries ⟨c.db, [], 0, 0, [], 0, 0, c.reclaimed⟩

/-- Every row that was to be deleted is gone in the end. -/
theorem rows_evictByIndex
    (h : Inv c.db c.reclaimed gone waiting bad (lastBatch parseKey now target c)) {key : K}
    (hkey : key ∈ (gone ++ waiting).map (·.key) ∨ key ∈ bad) :
    (evictByIndex parseKey now target c).1.db.rows key = none := by
  have hempty : (lastBatch parseKey now target c).commit.batch = [] := by
    unfold Pass.commit
    split
    · assumption
    · rfl
  rcases hkey with hmem | hbad
  · obtain ⟨v, hv, rfl⟩ := List.mem_map.mp hmem
    exact h.commit.evicted v hv
  · exact (h.commit.dropped key hbad).resolve_right (by simp [hempty])

/-- A clean pass is exact. -/
theorem exact_of_clean (hclean : Clean parseKey c.db now target c.db.entries ⟨[], [], 0, 0⟩) :
    ∃ victims, Exact parseKey now target c (evictByIndex parseKey now target c).1
      (evictByIndex parseKey now target c).2 victims := by
  obtain ⟨gone, waiting, victims, hinv, hdistinct, hshortest⟩ :=
    (inv_start c.db c.reclaimed).loop_of_clean [] c.db.entries hclean rfl (by simp)
  have hmem : ∀ key, key ∈ (gone ++ waiting).map (·.key) ↔ key ∈ victims.map (·.key) := by
    rw [← hdistinct]
    exact (keys_distinct victims).2
  refine ⟨victims, hshortest, fun key => ?_, ?_, ?_, ?_, ?_⟩
  · by_cases hvictim : key ∈ victims.map (·.key)
    · rw [if_pos hvictim]
      exact rows_evictByIndex hinv (.inl ((hmem key).mpr hvictim))
    · rw [if_neg hvictim]
      rcases hinv.commit.kept key with hnone | ⟨hrows, -⟩
      · rcases hinv.commit.removed key hnone with hnone₀ | hgone | hbad
        · exact hnone.trans hnone₀.symm
        · exact absurd ((hmem key).mp hgone) hvictim
        · simp at hbad
      · exact hrows
  · rw [hdistinct]
    exact hinv.commit.evictedCount
  · rw [hdistinct]
    exact congrArg (c.evictedKeys + ·) hinv.commit.evictedCount
  · rw [hdistinct]
    exact hinv.commit.reclaimed
  · rw [hdistinct]
    exact congrArg (c.totalSize - ·) hinv.commit.committedBytes

/-- An exact pass is clean: a row that does not decode is not a victim's, and a key that is counted
twice makes the count too high. -/
theorem clean_of_exact {victims : List (Victim K)}
    (h : Exact parseKey now target c (evictByIndex parseKey now target c).1
      (evictByIndex parseKey now target c).2 victims) :
    Clean parseKey c.db now target c.db.entries ⟨[], [], 0, 0⟩ := by
  by_contra hclean
  obtain ⟨gone, waiting, bad, hinv, hdirty⟩ :=
    (inv_start c.db c.reclaimed).loop_of_not_clean c.db.entries hclean
  have hvictim : ∀ v ∈ victims, ∃ data, c.db.rows v.key = some data ∧
      ValueMessage.unmarshal data = some v.vm := by
    intro v hv
    obtain ⟨e, -, he⟩ := List.mem_filterMap.mp (h.shortest.beginning.subset hv)
    exact (evictable_eq_some.mp he).2.1
  obtain rfl : bad = [] := by
    rw [List.eq_nil_iff_forall_not_mem]
    intro key hkey
    obtain ⟨data, hrow, hdata⟩ := hinv.corrupt key hkey
    have hnone := rows_evictByIndex hinv (.inr hkey)
    rw [h.rows] at hnone
    split at hnone
    · rename_i hmem
      obtain ⟨v, hv, rfl⟩ := List.mem_map.mp hmem
      obtain ⟨data', hrow', hdata'⟩ := hvictim v hv
      obtain rfl := Option.some.inj (hrow.symm.trans hrow')
      simp [hdata] at hdata'
    · simp [hrow] at hnone
  -- The victims' keys are among those that were counted, so each of these was counted once.
  obtain ⟨hnodup, hkeys⟩ := keys_distinct victims
  have hsub : (distinct victims).map (·.key) ⊆ (gone ++ waiting).map (·.key) := by
    intro key hkey
    obtain ⟨v, hv, rfl⟩ := List.mem_map.mp ((hkeys key).mp hkey)
    obtain ⟨data, hrow, -⟩ := hvictim v hv
    have hnone := h.rows v.key
    rw [if_pos ((hkeys v.key).mp hkey)] at hnone
    rcases hinv.commit.removed v.key hnone with hnone₀ | hgone | hbad
    · simp [hnone₀] at hrow
    · exact hgone
    · simp at hbad
  have hlength : (gone ++ waiting).length = (distinct victims).length :=
    hinv.commit.evictedCount.symm.trans h.count_eq
  have hperm := (hnodup.subperm hsub).perm_of_length_le (by simp only [List.length_map]; omega)
  exact hdirty.resolve_left (by simp) (hperm.nodup_iff.mp hnodup)

end Exact

/-- On every database and for every target, the pass evicts the right keys and accounts for each
once if and only if on its way to the target it meets no row that does not decode, and no key that
is evictable again while its deletion waits in the batch. -/
theorem evictByIndex_exact_iff {E K : Type} [DecidableEq E] [DecidableEq K]
    (parseKey : E → Option K) (now : E → Int64) (target : Int64) (c : Cleaner E K) :
    (∃ victims, Exact parseKey now target c (evictByIndex parseKey now target c).1
      (evictByIndex parseKey now target c).2 victims) ↔
      Clean parseKey c.db now target c.db.entries ⟨[], [], 0, 0⟩ := by
  constructor
  · rintro ⟨victims, h⟩
    exact clean_of_exact h
  · exact exact_of_clean

/-! ## Two entries for a key -/

/-- Entries are times with keys. -/
def parseEntry (e : Nat × String) : Option String := some e.2

/-- A raw file of two bytes. -/
def rawRow (path : String) : List UInt8 :=
  ValueMessage.marshal { valueType := .rawFile, rawFilePath := path, valueLength := 2 }

/-- Keys `a` and `b` with two bytes each. -/
def twoKeys (entries : List (Nat × String)) : Cleaner (Nat × String) String where
  db :=
    { rows := fun key =>
        if key = "a" then some (rawRow "f") else if key = "b" then some (rawRow "g") else none
      backrefs := fun _ => none
      entries := entries }
  reclaimed := ⟨[], []⟩
  totalSize := 4
  evictedKeys := 0

/-- Key `a` has two entries and no back-reference. It is counted twice, its file is queued twice and
its bytes are taken off the total twice; and because they seem to reach the target, `b` stays
although the lengths of distinct keys do not reach it before. -/
theorem evictByIndex_twice :
    let r := evictByIndex parseEntry (fun _ => 100) 4 (twoKeys [(1, "a"), (2, "a"), (3, "b")])
    r.2 = 2 ∧ r.1.reclaimed.deletionQueue = ["f", "f"] ∧ r.1.totalSize = 0 ∧
      r.1.db.rows "a" = none ∧ r.1.db.rows "b" = some (rawRow "g") := by
  decide +kernel

end OCache.Eviction
