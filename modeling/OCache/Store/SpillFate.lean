import OCache.Lib.SignedWord
import OCache.Store.Spill

/-!
# What becomes of a spilled file

A `PutIfVersion` that has written a raw file returns in one of many ways. Each has to leave the file
with somebody: on a row, in the deletion queue, in the compaction index. The exception is a large
file whose call could not read back at all.

A file on a row belongs to the call that replaces the row, and to nobody once that call has read
back another stamp than its own: it takes itself for a loser and leaves the replaced file to the
winner, who has replaced something else. So a compare-and-swap that lands between the merge and the
read-back of another one loses the file that the other one has replaced.
-/

namespace OCache.Store.Spill

open Merge Cas EventSystem

/-! ## Conditions on a run -/

/-- The step changes the row of the key and is neither a compare-and-swap nor a migration. -/
def overwrites (s : State) (key : String) : Store.Event → Bool
  | .putCommit j true =>
    match s.calls j with
    | .putRead k .. => k = key
    | _ => false
  | .deleteCommit j true =>
    match s.calls j with
    | .deleting k _ => k = key
    | _ => false
  | .removeCommit j true =>
    match s.calls j with
    | .sweeping _ batch | .evicting batch => key ∈ batch.map Prod.fst
    | _ => false
  | .purge k _ => k = key
  | _ => false

/-- An operand lands on the row of the key: the row that its call has read before. -/
def replaces (s : State) (key : String) : Store.Event → Option (Option ValueMessage)
  | .casMerge j true =>
    match s.calls j with
    | .casMerging k operand prev =>
      if k = key ∧ applies (s.rows key) operand = true then some prev else none
    | _ => none
  | _ => none

/-- What the executions do to the key of a spilled file. -/
structure Orderly (s : State) (key path : String) (e : Store.Event) : Prop where
  /-- Only compare-and-swaps and migrations write the row. -/
  casOnly : overwrites s key e = false
  /-- An operand that takes the file off the row is from a call that has read this row. -/
  readFirst : ∀ prev row, replaces s key e = some prev → s.rows key = some row →
    rawPath row = some path → prev = some row
  /-- A call that has replaced the file reads back before the next operand lands. -/
  readBack : ∀ prev, replaces s key e = some prev → ∀ j operand read,
    s.calls j = .casMerged key operand read → path ∈ reclaimReplacedValue read →
      carries (s.rows key) operand.version = false
  /-- The compactor does not drop the index row of the file for a row in a segment. -/
  kept : forfeits s key path e = false

/-- The file of length `length` that call `i` has spilled is on a row, was queued, is in the index,
or is large and could not be read back. -/
def AccountedFor (cfg : Config) (t : System) (i : Nat) (key path : String) (length : Int64) : Prop :=
  (t.store.rows key).bind rawPath = some path ∨ (path ∈ t.store.queued ∨ path ∈ t.store.unlinked) ∨
    (key, path) ∈ t.store.compactionIndex ∨
    (i ∈ t.unread ∧ Int64.ofNat cfg.compactThreshold < length)

instance (cfg : Config) (t : System) (i : Nat) (key path : String) (length : Int64) :
    Decidable (AccountedFor cfg t i key path length) := by
  unfold AccountedFor
  infer_instance

/-- Another execution has taken the file off its row and is about to queue it. -/
def InHand (s : State) (key path : String) : Prop :=
  (∃ j, path ∈ (s.calls j).reclaims) ∨
    (∃ j operand prev, s.calls j = .casMerged key operand prev ∧ path ∈ reclaimReplacedValue prev ∧
      carries (s.rows key) operand.version = true) ∨
    ∃ x ∈ s.migrations, path ∈ x.handsOver

/-- The condition on a step of the system. -/
def Undisturbed (key path : String) (t : System) : Event → Prop
  | .store e => Orderly t.store key path e
  | _ => True

/-- A state of some run. -/
def Reachable (cfg : Config) (t : System) : Prop :=
  ∃ es, RunOk (step cfg) (fun t e => freshNames t e = true) System.init es ∧
    run (step cfg) System.init es = t

/-! ## Stamps -/

section Stamps

variable {cfg : Config} {s s' : State}

/-- What a step does to the rows that calls are about to write: a new one has a new stamp or
none. -/
structure Stamps (s s' : State) : Prop where
  lastStamp : s.lastStamp ≤ s'.lastStamp
  writes : ∀ j r, (s'.calls j).writes = some r →
    (s.calls j).writes = some r ∨ r.version = 0 ∨ s.lastStamp < r.version

lemma Stamps.of_calls (hstamp : s'.lastStamp = s.lastStamp) (hcalls : s'.calls = s.calls) :
    Stamps s s' where
  lastStamp := by rw [hstamp]; exact UInt64.le_refl _
  writes j r hr := .inl (by rwa [hcalls] at hr)

lemma Stamps.of_call {i : Nat} {c : Call} (hcalls : s'.calls = Function.update s.calls i c)
    (hstamp : s.lastStamp ≤ s'.lastStamp) (hc : ∀ r, c.writes = some r →
      (s.calls i).writes = some r ∨ r.version = 0 ∨ s.lastStamp < r.version) : Stamps s s' where
  lastStamp := hstamp
  writes j r hr := by
    rw [hcalls] at hr
    rcases eq_or_ne j i with rfl | hj
    · rw [Function.update_self] at hr
      exact hc r hr
    · rw [Function.update_of_ne hj] at hr
      exact .inl hr

lemma stamps_callMove {e : Store.Event} (hmove : CallMove cfg s e s') : Stamps s s' := by
  cases hmove
  case idle | get | purge | unlink => exact .of_calls rfl rfl
  case look hnew _ => exact .of_call rfl (UInt64.le_refl _) ((Call.of_isReading hnew).1 ▸ nofun)
  case putWrite i key path data expiry checksum hc =>
    refine .of_call rfl (UInt64.le_refl _) fun r hr => .inr (.inl ?_)
    cases hr
    cases cfg.payload data path checksum <;> rfl
  case putRead hc | casPutRefresh hc _ =>
    exact .of_call rfl (UInt64.le_refl _) fun r hr => .inl (by rw [hc]; exact hr)
  case casPutWrite hstamp | casDeleteStamp hstamp =>
    refine .of_call rfl (UInt64.le_of_lt hstamp) fun r hr => .inr (.inr ?_)
    cases hr
    simpa using hstamp
  all_goals exact .of_call rfl (UInt64.le_refl _) (by simp)

end Stamps

/-! ## Who is responsible -/

/-- A spilled file. -/
structure Spilled where
  /-- The call that wrote it. -/
  call : Nat
  key : String
  path : String
  stamp : UInt64
  length : Int64

namespace Spilled

variable (w : Spilled)

/-- The operand that carries the file. -/
structure Operand (operand : ValueMessage) : Prop where
  opType : operand.opType = .casPut
  path : rawPath operand = some w.path
  version : operand.version = w.stamp
  length : operand.valueLength = w.length

/-- The stamp is not on the row, and no call will put it there. -/
structure Spent (s : State) : Prop where
  nonzero : w.stamp ≠ 0
  issued : w.stamp ≤ s.lastStamp
  row : carries (s.rows w.key) w.stamp = false
  writes : ∀ j r, (s.calls j).writes = some r → r.version ≠ w.stamp

/-- Call `j`, which stands at `c`, is responsible for the file: it wrote it and has not merged it,
it has lost and does not know yet, it has replaced the row with the file, or it is about to queue
the file. -/
def Answers (s : State) (j : Nat) : Call → Prop
  | .casPutWritten k operand | .casMerging k operand _ => j = w.call ∧ k = w.key ∧ w.Operand operand
  | .casMerged k operand prev => k = w.key ∧
    ((j = w.call ∧ w.Operand operand ∧ w.Spent s) ∨
      (w.path ∈ reclaimReplacedValue prev ∧ carries (s.rows w.key) operand.version = true))
  | .casWon _ _ paths | .reclaiming paths => w.path ∈ paths
  | _ => False

end Spilled

/-- Somebody is responsible for the file, or it is where it may stay. -/
inductive Safe (cfg : Config) (w : Spilled) (t : System) : Prop
  | answered (j : Nat) (h : w.Answers t.store j (t.store.calls j))
  | referenced (row : ValueMessage) (hrow : t.store.rows w.key = some row)
      (hpath : rawPath row = some w.path)
  | queued (h : Queued t.store w.path)
  | handed (x : Migration) (hx : x ∈ t.store.migrations) (h : w.path ∈ x.handsOver)
  | indexed (h : (w.key, w.path) ∈ t.store.compactionIndex)
  | unread (h : w.call ∈ t.unread) (hlarge : Int64.ofNat cfg.compactThreshold < w.length)

/-- The invariant of a spilled file. -/
structure Duty (cfg : Config) (w : Spilled) (t : System) : Prop where
  safe : Safe cfg w t
  /-- A run that deletes the index row of the file queues the file. -/
  drops : ∀ x ∈ t.store.migrations, (w.key, w.path) ∈ x.drops →
    w.path ∈ x.pending ∨ Queued t.store w.path ∨ w.path ∈ x.reclaims

section Calls

variable {cfg : Config} {w : Spilled} {s s' : State} {t t' : System}

lemma Spilled.Spent.keep (h : w.Spent s) (hS : Stamps s s')
    (hrow : carries (s'.rows w.key) w.stamp = false) : w.Spent s' where
  nonzero := h.nonzero
  issued := UInt64.le_trans h.issued hS.lastStamp
  row := hrow
  writes j r hr := by
    rcases hS.writes j r hr with hold | hzero | hnew
    · exact h.writes j r hold
    · rw [hzero]
      exact h.nonzero.symm
    · rintro heq
      rw [heq] at hnew
      exact UInt64.lt_irrefl _ (UInt64.lt_of_lt_of_le hnew h.issued)

variable {c : Call} {j : Nat}

lemma Spilled.Answers.keep (h : w.Answers s j c) (hspent : w.Spent s → w.Spent s')
    (hcarries : ∀ operand prev, c = .casMerged w.key operand prev →
      w.path ∈ reclaimReplacedValue prev → carries (s.rows w.key) operand.version = true →
        carries (s'.rows w.key) operand.version = true) : w.Answers s' j c := by
  cases c
  case casMerged k operand prev =>
    obtain ⟨rfl, h⟩ := h
    refine ⟨rfl, h.imp (fun ⟨hj, hop, hs⟩ => ⟨hj, hop, hspent hs⟩) fun ⟨hp, hc⟩ => ?_⟩
    exact ⟨hp, hcarries operand prev rfl hp hc⟩
  all_goals exact h

/-- A call that answers for the file stays where it is, goes on answering for it or queues it. -/
def Passes (w : Spilled) (s s' : State) (k : Nat) : Prop :=
  s'.calls k = s.calls k ∨
    (w.Answers s k (s.calls k) → w.Answers s' k (s'.calls k) ∨ Queued s' w.path)

lemma passes_of_update (hcalls : s'.calls = Function.update s.calls j c)
    (hc : w.Answers s j (s.calls j) → w.Answers s' j c ∨ Queued s' w.path) (k : Nat) :
    Passes w s s' k := by
  rcases eq_or_ne k j with rfl | hk
  · exact .inr (by rwa [hcalls, Function.update_self])
  · exact .inl (by rw [hcalls, Function.update_of_ne hk])

variable {operand : ValueMessage} {e : Store.Event} {key : String} {i : Nat}

/-- A call that gives up queues its own file. -/
theorem passes_giveUp (hop : w.Answers s j (s.calls j) → w.Operand operand) (k : Nat) :
    Passes w s (s.setCall j (.reclaiming (reclaimable (some operand)))) k := by
  refine passes_of_update rfl (fun hans => .inl ?_) k
  simp [Spilled.Answers, reclaimable, (hop hans).path]

lemma Spilled.Answers.operand_of_own {row : ValueMessage} (h : w.Answers s j c)
    (hown : c.own = some row) : w.Operand row := by
  cases c
  case casPutWritten | casMerging =>
    cases hown
    exact h.2.2
  case putRead => cases h
  all_goals cases hown

lemma Spilled.not_answers_of_isReading (h : c.isReading = true) : ¬w.Answers s j c := by
  cases c
  case casPutWritten | casMerging | casMerged | casWon => cases h
  case reclaiming paths =>
    cases paths with
    | nil => exact List.not_mem_nil
    | cons => cases h
  all_goals exact id

lemma passes_callMove (hmerge : ∀ j, e ≠ .casMerge j true) (hmove : CallMove cfg s e s')
    (k : Nat) : Passes w s s' k := by
  cases hmove
  case idle | get | purge | unlink => exact .inl rfl
  case look hold _ _ | remove hold _ _ =>
    exact passes_of_update rfl (fun hans => absurd hans (Spilled.not_answers_of_isReading hold)) k
  case abandon hown => exact passes_giveUp (fun hans => hans.operand_of_own hown) k
  case casPutRefresh hc _ =>
    refine passes_of_update rfl (fun hans => .inl ?_) k
    rw [hc] at hans
    obtain ⟨hj, hkey, hop⟩ := hans
    exact ⟨hj, hkey, hop.opType, hop.path, hop.version, hop.length⟩
  case casMerge => exact absurd rfl (hmerge _)
  case casWon hc hwon _ | casDeleted hc hwon _ =>
    -- A call that has won has not lost.
    refine passes_of_update rfl (fun hans => .inl ?_) k
    rw [hc] at hans
    obtain ⟨rfl, ⟨-, hop, hspent⟩ | ⟨hp, -⟩⟩ := hans
    · rw [hop.version, hspent.row] at hwon
      cases hwon
    · exact hp
  case casLost hc hlost =>
    refine passes_of_update rfl (fun hans => .inl ?_) k
    rw [hc] at hans
    obtain ⟨rfl, ⟨-, hop, -⟩ | ⟨-, hcarries⟩⟩ := hans
    · simp [Spilled.Answers, reclaimable, hop.path]
    · exact absurd hcarries hlost
  case casFinish hc | casFinishFails hc =>
    refine passes_of_update rfl (fun hans => .inl ?_) k
    rwa [hc] at hans
  case reclaim path paths hc =>
    refine passes_of_update rfl (fun hans => ?_) k
    rw [hc] at hans
    rcases List.mem_cons.mp hans with hp | hp
    · exact .inr (.inl (by simp [State.queue, hp]))
    · exact .inl hp
  -- No other move is of a call that answers for a file.
  all_goals exact passes_of_update rfl (by simp [*, Spilled.Answers]) k

/-- Steps other than compare-and-swaps and migrations leave the row of the key alone. -/
theorem rows_step (he : e.isMigration = false) (hmerge : ∀ j, e ≠ .casMerge j true)
    (hkey : overwrites s key e = false) : (Store.step cfg s e).rows key = s.rows key := by
  cases e
  all_goals try cases he
  all_goals try exact congrFun (step_of_keepsRows cfg s rfl).1 key
  case purge k path =>
    have hk : key ≠ k := by simpa [overwrites, eq_comm] using hkey
    simp only [Store.step, Store.purge]
    split
    · exact Function.update_of_ne hk _ _
    · rfl
  case putCommit j ok =>
    simp only [Store.step, putCommit]
    split
    · rename_i k row prev hpc
      split
      · subst ‹ok = true›
        have hk : key ≠ k := by simpa [overwrites, hpc, eq_comm] using hkey
        exact Function.update_of_ne hk _ _
      · rfl
    · rfl
  case deleteCommit j ok =>
    simp only [Store.step, deleteCommit]
    split
    · rename_i k read hpc
      split
      · subst ‹ok = true›
        have hk : key ≠ k := by simpa [overwrites, hpc, eq_comm] using hkey
        exact Function.update_of_ne hk _ _
      · rfl
    · rfl
  case removeCommit j ok =>
    simp only [Store.step, removeCommit]
    split
    all_goals try rfl
    all_goals
      rename_i batch hpc
      split
      · subst ‹ok = true›
        have hk : key ∉ batch.map Prod.fst := by
          simpa only [overwrites, hpc, decide_eq_false_iff_not] using hkey
        exact if_neg hk
      · rfl
  case casMerge j ok =>
    cases ok with
    | true => exact absurd rfl (hmerge j)
    | false =>
      simp only [Store.step, casMerge]
      split <;> rfl

variable (h : Duty cfg w t)

include h

lemma Duty.drops_aside (hA : Aside t.store s') :
    ∀ x ∈ s'.migrations, (w.key, w.path) ∈ x.drops →
      w.path ∈ x.pending ∨ Queued s' w.path ∨ w.path ∈ x.reclaims := by
  intro x hx hd
  rw [hA.migrations] at hx
  exact (h.drops x hx hd).imp_right (Or.imp_left (hA.queued _))

/-- A step that keeps the row of the key and moves calls that answer for the file safely. -/
theorem Duty.of_calls (hA : Aside t.store t'.store) (hS : Stamps t.store t'.store)
    (hrow : t'.store.rows w.key = t.store.rows w.key) (hunread : ∀ i ∈ t.unread, i ∈ t'.unread)
    (hcalls : ∀ k, t'.store.calls k = t.store.calls k ∨
      (w.Answers t.store k (t.store.calls k) → Safe cfg w t')) : Duty cfg w t' where
  safe := by
    cases h.safe with
    | answered j hans =>
      rcases hcalls j with hsame | hmoved
      · refine .answered j ?_
        rw [hsame]
        exact hans.keep (fun hs => hs.keep hS (by rw [hrow]; exact hs.row))
          fun _ _ _ _ hc => by rwa [hrow]
      · exact hmoved hans
    | referenced row hrow' hpath => exact .referenced row (hrow.trans hrow') hpath
    | queued hq => exact .queued (hA.queued _ hq)
    | handed x hx hp => exact .handed x (by rwa [hA.migrations]) hp
    | indexed hi => exact .indexed (hA.index _ hi)
    | unread hu hlarge => exact .unread (hunread _ hu) hlarge
  drops := h.drops_aside hA

lemma Duty.of_passes (hA : Aside t.store s') (hS : Stamps t.store s')
    (hrow : s'.rows w.key = t.store.rows w.key) (hpasses : ∀ k, Passes w t.store s' k) :
    Duty cfg w { t with store := s' } := by
  refine h.of_calls hA hS hrow (fun _ hi => hi) fun k => (hpasses k).imp_right fun hmoved hans => ?_
  rcases hmoved hans with hans' | hqueued
  · exact .answered k hans'
  · exact .queued hqueued

lemma duty_casPutRefreshFails : Duty cfg w { t with store := casPutRefreshFails t.store i } := by
  unfold casPutRefreshFails
  split
  · rename_i key operand hpc
    refine h.of_passes ⟨rfl, rfl, fun _ h => h, fun _ h => h⟩
      (.of_call rfl (UInt64.le_refl _) (by simp)) rfl (passes_giveUp fun hans => ?_)
    rw [hpc] at hans
    exact hans.2.2
  · exact h

/-- A call that has lost and does not know it leaves an index row, unless the file is large. -/
theorem duty_casReadBackFails (hlength : Int64.ofNat cfg.inlineThreshold < w.length)
    {prev : Option ValueMessage} (hpc : t.store.calls i = .casMerged key operand prev) :
    Duty cfg w ⟨casReadBackFails cfg t.store i, i :: t.unread⟩ := by
  have heq : casReadBackFails cfg t.store i = (t.store.indexRaw cfg key operand).setCall i
      (.reclaiming (reclaimReplacedValue prev)) := by simp [casReadBackFails, hpc]
  rw [heq]
  refine h.of_calls ⟨rfl, rfl, fun _ h => h, fun _ h => List.mem_append_left _ h⟩
    (.of_call rfl (UInt64.le_refl _) (by simp)) rfl
    (fun _ hi => List.mem_cons_of_mem _ hi) fun k => ?_
  rcases eq_or_ne k i with rfl | hk
  · refine .inr fun hans => ?_
    rw [hpc] at hans
    obtain ⟨rfl, ⟨hcall, hop, -⟩ | ⟨hp, -⟩⟩ := hans
    · by_cases hlarge : Int64.ofNat cfg.compactThreshold < w.length
      · exact .unread (hcall ▸ List.mem_cons_self) hlarge
      · have hmedium : cfg.isMedium operand.valueLength = true := by
          simpa [Config.isMedium, hop.length, hlength] using Int64.not_lt.mp hlarge
        exact .indexed (by simp [hop.path, hmedium])
    · exact .answered k (by simpa [Spilled.Answers] using hp)
  · exact .inl (by simp [hk])

end Calls

/-! ## Merges -/

section Merge

variable {cfg : Config} {w : Spilled} {s : State} {t : System} {j : Nat}

variable {operand : ValueMessage}

variable {row : ValueMessage} {stamp : UInt64} {prev : Option ValueMessage}

/-- A merge that does not land leaves the row as it was. -/
theorem mergeRow_of_not_applies (hcas : isCas operand = true) (hbase : baseOf (some row) = some row)
    (happlies : ¬applies (some row) operand = true) : mergeRow (some row) [operand] = row := by
  rw [mergeRow_cas hcas, if_neg happlies, hbase, Option.getD_some]

/-- A merge puts a stamp on the row only if it lands. -/
theorem carries_of_mergeRow {row : Option ValueMessage} (hcas : isCas operand = true)
    (hstamp : stamp ≠ 0) (hrow : carries row stamp = false)
    (happlies : applies row operand = true → operand.version ≠ stamp) :
    carries (some (mergeRow row [operand])) stamp = false := by
  rw [mergeRow_cas hcas]
  split
  · rename_i hlands
    simpa using happlies hlands
  · cases hbase : baseOf row with
    | none => simp [tombstone, hstamp.symm]
    | some base =>
      rw [eq_some_of_baseOf hbase] at hrow
      exact hrow

/-- The row that the call was about to write is not on any row, and no other call is about to write
its stamp. So after a merge that does not land nobody puts it there. -/
theorem spent_of_merging (hI : Ownership s) (hpc : s.calls j = .casMerging w.key operand prev)
    (hop : w.Operand operand) (hstamp : operand.version ≠ 0)
    (happlies : ¬applies (s.rows w.key) operand = true) :
    w.Spent ((s.setRow w.key (some (mergeRow (s.rows w.key) [operand]))).setCall j
      (.casMerged w.key operand prev)) := by
  have hwrites : (s.calls j).writes = some (casResult operand) := by simp [hpc]
  have hpending := (hI.calls j).writes _ hwrites
  have hcas : isCas operand = true := by simp [isCas, hop.opType]
  rw [hop.version] at hstamp
  refine ⟨hstamp, ?_, ?_, fun k r hr heq => ?_⟩
  · have hle := hpending.stored.version
    rwa [casResult_version, hop.version] at hle
  · have hrow : carries (s.rows w.key) w.stamp = false := by
      cases hrow : s.rows w.key with
      | none => rfl
      | some row =>
        have hfresh := hpending.fresh w.key row hrow
        simp only [Clash, casResult_version, hop.version, not_or, not_and] at hfresh
        simpa [eq_comm] using hfresh.2 hstamp
    simpa using
      carries_of_mergeRow hcas hstamp hrow fun h => absurd h happlies
  · have hk : k ≠ j := by
      rintro rfl
      simp at hr
    have hold : (s.calls k).writes = some r := by
      simpa [hk] using hr
    -- Two calls are never about to write the same stamp.
    refine hk (hI.distinct k j r _ hold hwrites (.inr ⟨heq ▸ hstamp, ?_⟩))
    rw [casResult_version, hop.version, heq]

/-- A stamp stays on the row if the merge does not land. -/
theorem carries_mergeRow_of_not_applies {row : Option ValueMessage} (hcas : isCas operand = true)
    (hstamp : stamp ≠ 0) (happlies : ¬applies row operand = true) (h : carries row stamp = true) :
    carries (some (mergeRow row [operand])) stamp = true := by
  cases row with
  | none => simp at h
  | some row =>
    have hbase : baseOf (some row) = some row := by
      rw [baseOf, if_neg]
      rintro ⟨⟩
      exact hstamp (by simpa [eq_comm] using h)
    rwa [mergeRow_of_not_applies hcas hbase happlies]

lemma mem_reclaimReplacedValue_self {path : String} (hpath : rawPath row = some path)
    (hne : path ≠ "") : path ∈ reclaimReplacedValue (some row) := by
  simp [reclaimReplacedValue, reclaimable, hpath, hne]

/-- The operand of call `j` is merged into the row of the key. -/
theorem safe_merge (h : Safe cfg w t) (hsound : Sound t.store)
    (hok : Orderly t.store w.key w.path (.casMerge j true))
    (hpc : t.store.calls j = .casMerging w.key operand prev) :
    Safe cfg w { t with store := casMerge t.store j true } := by
  have hS : Stamps t.store (Store.step cfg t.store (.casMerge j true)) :=
    stamps_callMove (callMove_step rfl)
  have hcall := hsound.ownership.calls j
  have hguard := hsound.guarded j
  have hwrites : (t.store.calls j).writes = some (casResult operand) := by simp [hpc]
  rw [hpc] at hcall hguard
  obtain ⟨hcas, hdelete, -⟩ := hcall.wf
  have heq : casMerge t.store j true = (t.store.setRow w.key
      (some (mergeRow (t.store.rows w.key) [operand]))).setCall j (.casMerged w.key operand prev) := by
    simp [casMerge, hpc]
  have hself : (casMerge t.store j true).calls j = .casMerged w.key operand prev := by
    simp [heq]
  have hother : ∀ i, i ≠ j → (casMerge t.store j true).calls i = t.store.calls i := by
    intro i hi
    simp [heq, hi]
  have hrow : (casMerge t.store j true).rows w.key =
      some (mergeRow (t.store.rows w.key) [operand]) := by
    simp [heq]
  have hreplaces : applies (t.store.rows w.key) operand = true →
      replaces t.store w.key (.casMerge j true) = some prev := by
    intro happlies
    simp [replaces, hpc, happlies]
  cases h with
  | answered i hans =>
    rcases eq_or_ne i j with rfl | hi
    · -- The call that wrote the file: its row has the file if the operand lands.
      rw [hpc] at hans
      obtain ⟨hi, -, hop⟩ := hans
      by_cases happlies : applies (t.store.rows w.key) operand = true
      · refine .referenced (casResult operand) ?_ ((rawPath_casResult hdelete).trans hop.path)
        rw [hrow, mergeRow_cas hcas, if_pos happlies]
      · refine .answered i ?_
        rw [hself]
        refine ⟨rfl, .inl ⟨hi, hop, ?_⟩⟩
        rw [heq]
        exact spent_of_merging hsound.ownership hpc hop hguard.1 happlies
    · refine .answered i ?_
      rw [hother i hi]
      refine hans.keep (fun hs => hs.keep hS ?_) fun operand' read hc hp hcarries => ?_
      · have hversion := hs.writes j _ hwrites
        rw [casResult_version] at hversion
        rw [hrow]
        exact carries_of_mergeRow hcas hs.nonzero hs.row fun _ => hversion
      · rw [hrow]
        have hstamp := hsound.guarded i
        rw [hc] at hstamp
        refine carries_mergeRow_of_not_applies hcas hstamp.1 (fun happlies => ?_) hcarries
        have hread := hok.readBack prev (hreplaces happlies) i operand' read hc hp
        cases hread.symm.trans hcarries
  | referenced row hrow' hpath =>
    by_cases happlies : applies (t.store.rows w.key) operand = true
    · -- The call has read the row that it replaces, and answers for the file from now on.
      obtain rfl := hok.readFirst prev row (hreplaces happlies) hrow' hpath
      have hne := (hsound.ownership.rows w.key row hrow').stored.path w.path hpath
      refine .answered j ?_
      rw [hself]
      refine ⟨rfl, .inr ⟨mem_reclaimReplacedValue_self hpath hne, ?_⟩⟩
      rw [hrow, mergeRow_cas hcas, if_pos happlies]
      simp
    · have htype : row.valueType ≠ .inline := by
        intro hinline
        simp [rawPath, hinline] at hpath
      rw [hrow'] at hrow happlies
      refine .referenced row ?_ hpath
      rw [hrow, mergeRow_of_not_applies hcas (baseOf_of_ne_inline htype) happlies]
  | queued hq => exact .queued (by rw [heq]; exact hq)
  | handed x hx hp => exact .handed x (by rw [heq]; exact hx) hp
  | indexed hi => exact .indexed (by rw [heq]; exact hi)
  | unread hu hlarge => exact .unread hu hlarge

lemma duty_casMerge (h : Duty cfg w t) (hsound : Sound t.store)
    (hok : Orderly t.store w.key w.path (.casMerge j true)) :
    Duty cfg w { t with store := casMerge t.store j true } := by
  have hA : Aside t.store (Store.step cfg t.store (.casMerge j true)) :=
    aside_callMove (callMove_step rfl)
  have hS : Stamps t.store (Store.step cfg t.store (.casMerge j true)) :=
    stamps_callMove (callMove_step rfl)
  by_cases hkey : ∃ operand prev, t.store.calls j = .casMerging w.key operand prev
  · obtain ⟨operand, prev, hpc⟩ := hkey
    exact ⟨safe_merge h.safe hsound hok hpc, h.drops_aside hA⟩
  · -- The merge is under another key, or there is none.
    have hmerge : (casMerge t.store j true).rows w.key = t.store.rows w.key ∧
        ∀ k, Passes w t.store (casMerge t.store j true) k := by
      unfold casMerge
      split
      · rename_i key operand prev hpc
        have hne : w.key ≠ key := by
          rintro rfl
          exact hkey ⟨operand, prev, hpc⟩
        refine ⟨Function.update_of_ne hne _ _, passes_of_update rfl fun hans => ?_⟩
        rw [hpc] at hans
        exact absurd hans.2.1.symm hne
      · exact ⟨rfl, fun _ => .inl rfl⟩
    exact h.of_passes hA hS hmerge.1 hmerge.2

end Merge

/-! ## Migrations -/

section Migrations

variable {cfg : Config} {w : Spilled} {s' : State} {t : System} {e : Store.Event}

variable {m : Nat}

lemma mem_set_or_eq {α : Type*} {l : List α} {x y z : α} (hm : l[m]? = some x) (hz : z ∈ l) :
    z ∈ l.set m y ∨ z = x := by
  obtain ⟨n, hn⟩ := List.mem_iff_getElem?.mp hz
  rcases eq_or_ne n m with rfl | hne
  · exact .inr (Option.some.inj (hn.symm.trans hm))
  · exact .inl (List.mem_iff_getElem?.mpr ⟨n, by rwa [List.getElem?_set_ne hne.symm]⟩)

lemma mem_set_self {α : Type*} {l : List α} {x y : α} (hm : l[m]? = some x) : y ∈ l.set m y :=
  List.mem_set (List.getElem?_eq_some_iff.mp hm).1 y

/-- A step of a migration that writes no rows. -/
theorem Safe.of_migration (h : Safe cfg w t) (hcalls : s'.calls = t.store.calls)
    (hrows : s'.rows = t.store.rows) (hstamp : s'.lastStamp = t.store.lastStamp)
    (hindex : s'.compactionIndex = t.store.compactionIndex)
    (hqueued : ∀ p, Queued t.store p → Queued s' p)
    (hhanded : ∀ x ∈ t.store.migrations, w.path ∈ x.handsOver →
      (∃ y ∈ s'.migrations, w.path ∈ y.handsOver) ∨ Queued s' w.path) :
    Safe cfg w { t with store := s' } := by
  cases h with
  | answered j hans =>
    refine .answered j ?_
    rw [show ({ t with store := s' } : System).store.calls j = t.store.calls j from congrFun hcalls j]
    refine hans.keep (fun hs => hs.keep (.of_calls hstamp hcalls) ?_) fun _ _ _ _ hc => ?_
    · rw [hrows]
      exact hs.row
    · rwa [hrows]
  | referenced row hrow hpath => exact .referenced row ((congrFun hrows _).trans hrow) hpath
  | queued hq => exact .queued (hqueued _ hq)
  | handed x hx hp =>
    rcases hhanded x hx hp with ⟨y, hy, hp'⟩ | hq
    · exact .handed y hy hp'
    · exact .queued hq
  | indexed hi => exact .indexed (by rwa [hindex])
  | unread hu hlarge => exact .unread hu hlarge

/-- A batch is committed: it takes files off their rows and rows off the index. -/
theorem Duty.safe_commit (h : Duty cfg w t) (hsound : Sound t.store) {x y : Migration}
    {dropped : List (String × String)} (hm : t.store.migrations[m]? = some x)
    (hdropped : ∀ d ∈ dropped, d ∈ x.drops) (hhands : x.handsOver = [])
    (hready : x.Cleared → x.reclaims = []) (hpending : ∀ p ∈ x.pending, p ∈ y.handsOver) :
    Safe cfg w { t with store := (t.store.commitBatch x.staged dropped).setMigration m y } := by
  have hx : x ∈ t.store.migrations := List.mem_of_getElem? hm
  have hy : y ∈ ((t.store.commitBatch x.staged dropped).setMigration m y).migrations := mem_set_self hm
  cases h.safe with
  | answered j hans =>
    refine .answered j (hans.keep (fun hs => hs.keep (.of_calls rfl rfl) ?_) ?_)
    · -- A batch puts no stamp on a row and takes none off.
      by_contra hcarries
      rw [Bool.not_eq_false] at hcarries
      cases hs.row.symm.trans (carries_of_commit hsound.ownership hx hs.nonzero hcarries)
    · intro operand prev hc _ hcarries
      have hstamp := hsound.guarded j
      rw [hc] at hstamp
      exact carries_commit hsound.ownership hx (hsound.staged x hx) hstamp.1 hcarries
  | referenced row hrow hpath =>
    -- A file that is taken off its row is pending, and is handed over next.
    rcases referenced_commit hsound.ownership hx (hsound.staged x hx) hrow hpath with
      hkept | hqueued | hp
    · exact .referenced row hkept hpath
    · exact .queued hqueued
    · exact .handed y hy (hpending _ hp)
  | queued hq => exact .queued hq
  | handed z hz hp =>
    rcases mem_set_or_eq hm hz with hz' | rfl
    · exact .handed z hz' hp
    · exact nomatch hhands ▸ hp
  | indexed hi =>
    by_cases hd : (w.key, w.path) ∈ dropped
    · -- The batch drops only index rows of files that it has taken care of.
      rcases h.drops x hx (hdropped _ hd) with hp | hqueued | hp
      · exact .handed y hy (hpending _ hp)
      · exact .queued hqueued
      · exact nomatch hready (hsound.cleared x hx) ▸ hp
    · exact .indexed (List.mem_filter.mpr ⟨hi, by simpa using hd⟩)
  | unread hu hlarge => exact .unread hu hlarge

lemma duty_moved (h : Duty cfg w t) (hsound : Sound t.store) (hM : Moved t.store e s')
    (hkept : forfeits t.store w.key w.path e = false) : Duty cfg w { t with store := s' } := by
  have hold : ∀ z ∈ t.store.migrations, (w.key, w.path) ∈ z.drops →
      w.path ∈ z.pending ∨ Queued s' w.path ∨ w.path ∈ z.reclaims :=
    fun z hz hd => (h.drops z hz hd).imp_right (Or.imp_left fun hq => hM.queued hq)
  have hqueued : ∀ p, Queued t.store p → Queued s' p := fun p hp => hM.queued hp
  cases hM with
  | idle => exact h
  | start segments x _ _ hdrops =>
    refine ⟨h.safe.of_migration rfl rfl rfl rfl hqueued fun z hz hp =>
      .inl ⟨z, List.mem_append_left _ hz, hp⟩, fun z hz hd => ?_⟩
    rcases List.mem_append.mp hz with hz | hz
    · exact hold z hz hd
    · obtain rfl := List.mem_singleton.mp hz
      simp [hdrops] at hd
  | move m x y segments queued hm _ _ hS =>
    refine ⟨h.safe.of_migration rfl rfl rfl rfl hqueued fun z hz hp => ?_, fun z hz hd => ?_⟩
    · rcases mem_set_or_eq hm hz with hz' | rfl
      · exact .inl ⟨z, hz', hp⟩
      · rcases hS.handsOver _ hp with hp' | hq
        · exact .inl ⟨y, mem_set_self hm, hp'⟩
        · exact .inr (.inl hq)
    · rcases List.mem_or_eq_of_mem_set hz with hz | rfl
      · exact hold z hz hd
      · -- What the run was to do about the file it still is, and a new index row comes with the file.
        rcases hS.drops _ _ hd with hd' | hp | hq | hp | hforfeits
        · rcases hold x (List.mem_of_getElem? hm) hd' with hp | hq | hp
          · rcases hS.pending with hkeeps | ⟨-, hnone⟩
            · exact .inl (hkeeps _ hp)
            · simp [hnone] at hd
          · exact .inr (.inl hq)
          · rcases hS.reclaims with hkeeps | hnone
            · exact .inr ((hkeeps _ hp).symm.imp_left .inl)
            · simp [hnone] at hd
        · exact .inl hp
        · exact .inr (.inl (hqueued _ hq))
        · exact .inr (.inr hp)
        · simp [hkept] at hforfeits
  | commit m x y dropped hm hdropped hhands hready _ hdrops hpending =>
    refine ⟨h.safe_commit hsound hm hdropped hhands hready hpending, fun z hz hd => ?_⟩
    rcases List.mem_or_eq_of_mem_set hz with hz | rfl
    · exact hold z hz hd
    · simp [hdrops] at hd

end Migrations

/-! ## Runs -/

section Runs

variable {cfg : Config} {w : Spilled} {t : System}

lemma duty_store (h : Duty cfg w t) (hsound : Sound t.store) {e : Store.Event}
    (hok : Orderly t.store w.key w.path e) :
    Duty cfg w { t with store := Store.step cfg t.store e } := by
  cases he : e.isMigration with
  | true => exact duty_moved h hsound (moved_step hsound.ownership he) hok.kept
  | false =>
    by_cases hmerge : ∃ j, e = .casMerge j true
    · obtain ⟨j, rfl⟩ := hmerge
      exact duty_casMerge h hsound hok
    · have hne : ∀ j, e ≠ .casMerge j true := fun j heq => hmerge ⟨j, heq⟩
      have hmove : CallMove cfg t.store e (Store.step cfg t.store e) := callMove_step he
      exact h.of_passes (aside_callMove hmove) (stamps_callMove hmove)
        (rows_step he hne hok.casOnly) fun k => passes_callMove hne hmove k

lemma duty_step (h : Duty cfg w t) (hsound : Sound t.store)
    (hlength : Int64.ofNat cfg.inlineThreshold < w.length) {e : Event}
    (hok : Undisturbed w.key w.path t e) : Duty cfg w (step cfg t e) := by
  cases e with
  | store e => exact duty_store h hsound hok
  | refreshFails i => exact duty_casPutRefreshFails h
  | readBackFails i =>
    simp only [step]
    split
    · rename_i hpc
      exact duty_casReadBackFails h hlength hpc
    · exact h

/-- The call that has just written the file answers for it. No index row can name the file yet. -/
theorem duty_casPutWrite {i : Nat} {key path : String} {expected stamp : UInt64} {data : List UInt8}
    {expiry : Int64} {checksum : UInt32} (hpc : t.store.calls i = .casPutAdmitted key expected)
    (hstamp : t.store.lastStamp < stamp) (hlarge : cfg.inlineThreshold < data.length)
    (hsound : Sound (casPutWrite cfg t.store i stamp data expiry path checksum)) :
    Duty cfg ⟨i, key, path, stamp, Int64.ofNat data.length⟩
      { t with store := casPutWrite cfg t.store i stamp data expiry path checksum } := by
  have hcall : (casPutWrite cfg t.store i stamp data expiry path checksum).calls i =
      .casPutWritten key (casPutOperand (.rawFile path (Int64.ofNat data.length) checksum) expiry
        stamp expected) := by
    simp [casPutWrite, hpc, hstamp, Config.payload, Nat.not_le.mpr hlarge]
  refine ⟨.answered i ?_, fun x hx hd => ?_⟩
  · rw [hcall]
    exact ⟨rfl, rfl, rfl, rfl, rfl, rfl⟩
  · have hwrites : ((casPutWrite cfg t.store i stamp data expiry path checksum).calls i).writes =
        some (casResult (casPutOperand (.rawFile path (Int64.ofNat data.length) checksum) expiry
          stamp expected)) := by simp [hcall]
    have hfree : ∀ p, Landed (casPutWrite cfg t.store i stamp data expiry path checksum) p →
        p ≠ path := by
      rintro p hp rfl
      exact hp.free i _ hwrites rfl
    rcases hsound.drops x hx key path hd with hp | hgone
    · exact .inl hp
    · exact absurd rfl (hfree path hgone.landed)

lemma sound_of_reachable (h : Reachable cfg t) : Sound t.store := by
  obtain ⟨es, hok, rfl⟩ := h
  exact sound_run hok

lemma duty_run (h : Duty cfg w t) (hsound : Sound t.store)
    (hlength : Int64.ofNat cfg.inlineThreshold < w.length) {es : List Event}
    (hok : RunOk (step cfg) (fun t e => freshNames t e = true ∧ Undisturbed w.key w.path t e) t es) :
    Duty cfg w (run (step cfg) t es) :=
  (invariant_run (I := fun t => Sound t.store ∧ Duty cfg w t)
    (fun _ _ hI hstep => ⟨sound_step hI.1 hstep.1, duty_step hI.2 hI.1 hlength hstep.2⟩)
    ⟨hsound, h⟩ hok).2

/-- Whatever is queued no row references, in every state. And when a `PutIfVersion` that spilled a
file has returned, the file is accounted for or in the hand of another execution, provided the other
executions were orderly about the key. -/
theorem spill_accounted (cfg : Config) :
    (∀ t, Reachable cfg t → ∀ path, Queued t.store path →
      ∀ key row, t.store.rows key = some row → rawPath row ≠ some path) ∧
    ∀ t, Reachable cfg t → ∀ i key expected, t.store.calls i = .casPutAdmitted key expected →
      ∀ stamp, t.store.lastStamp < stamp →
      ∀ data : List UInt8, cfg.inlineThreshold < data.length → data.length < 2 ^ 63 →
      ∀ expiry path checksum es,
        RunOk (step cfg) (fun t e => freshNames t e = true ∧ Undisturbed key path t e) t
          (.store (.casPutWrite i stamp data expiry path checksum) :: es) →
      ∀ t', run (step cfg) t (.store (.casPutWrite i stamp data expiry path checksum) :: es) = t' →
        t'.store.calls i = .reclaiming [] →
        AccountedFor cfg t' i key path (Int64.ofNat data.length) ∨ InHand t'.store key path := by
  refine ⟨fun t ht path hq => ((sound_of_reachable ht).ownership.queue path hq).none, ?_⟩
  intro t ht i key expected hpc stamp hstamp data hlarge hbound expiry path checksum es hok t' hrun
    hreturned
  have hlength : Int64.ofNat cfg.inlineThreshold < Int64.ofNat data.length :=
    (SignedWord.ofNat_lt_ofNat (hlarge.trans hbound) hbound).mpr hlarge
  have hsound : Sound (step cfg t (.store (.casPutWrite i stamp data expiry path checksum))).store :=
    sound_step (sound_of_reachable ht) hok.1.1
  have hduty : Duty cfg ⟨i, key, path, stamp, Int64.ofNat data.length⟩ t' :=
    hrun ▸ duty_run (duty_casPutWrite hpc hstamp hlarge hsound) hsound hlength hok.2
  cases hduty.safe with
  | answered j hans =>
    -- The call itself has returned, so another one answers for the file.
    refine .inr ?_
    cases hj : t'.store.calls j
    all_goals rw [hj] at hans
    case casPutWritten | casMerging =>
      rw [hans.1, hreturned] at hj
      cases hj
    case casMerged operand prev =>
      obtain ⟨rfl, ⟨hcall, -⟩ | ⟨hp, hcarries⟩⟩ := hans
      · rw [hcall, hreturned] at hj
        cases hj
      · exact .inr (.inl ⟨j, operand, prev, hj, hp, hcarries⟩)
    case casWon | reclaiming => exact .inl ⟨j, by rw [hj]; exact hans⟩
    all_goals cases hans
  | referenced row hrow hpath => exact .inl (.inl (by rw [hrow]; exact hpath))
  | queued hq => exact .inl (.inr (.inl hq))
  | handed x hx hp => exact .inr (.inr (.inr ⟨x, hx, hp⟩))
  | indexed hi => exact .inl (.inr (.inr (.inl hi)))
  | unread hu hlarge => exact .inl (.inr (.inr (.inr ⟨hu, hlarge⟩)))

end Runs

/-- A large value is put, and the call returns without having read back. -/
def unreadPut : List Event :=
  [.store (.casPutRefresh 0 0), .store (.casMerge 0 true), .readBackFails 0]

theorem spill_accounted_unreadPut :
    let t := run (step ⟨1, 2⟩) System.init [.store (.casPutRead 0 "k" 0 0)]
    let t' := run (step ⟨1, 2⟩) t (.store (.casPutWrite 0 5 [1, 2, 3, 4] 0 "a" 0) :: unreadPut)
    AccountedFor ⟨1, 2⟩ t' 0 "k" "a" 4 ∨ InHand t'.store "k" "a" := by
  intro t t'
  have hquiet : ∀ s (e : Store.Event), overwrites s "k" e = false → replaces s "k" e = none →
      forfeits s "k" "a" e = false → Orderly s "k" "a" e :=
    fun s e hcas hnone hkept => ⟨hcas, by simp [hnone], by simp [hnone], hkept⟩
  have hmerge : Orderly (run (step ⟨1, 2⟩) t [.store (.casPutWrite 0 5 [1, 2, 3, 4] 0 "a" 0),
      .store (.casPutRefresh 0 0)]).store "k" "a" (.casMerge 0 true) := by
    refine ⟨rfl, fun _ _ _ hrow => ?_, fun _ _ j _ _ hj => ?_, rfl⟩
    · cases hrow
    · -- only call 0 has moved, and it has not merged yet
      cases j <;> cases hj
  refine (spill_accounted ⟨1, 2⟩).2 t ⟨_, by decide +kernel, rfl⟩ 0 "k" 0 (by decide +kernel) 5
    (by decide +kernel) [1, 2, 3, 4] (by decide) (by decide) 0 "a" 0 unreadPut ?_ t' rfl
    (by decide +kernel)
  exact ⟨⟨by decide +kernel, hquiet _ _ rfl rfl rfl⟩, ⟨rfl, hquiet _ _ rfl rfl rfl⟩,
    ⟨rfl, hmerge⟩, ⟨rfl, trivial⟩, trivial⟩

/-! ## Runs that lose a file -/

/-- Call `i` puts `data` under "k" up to its merge, with an expected version, a stamp and a file. -/
def putUpToMerge (i : Nat) (expected stamp : UInt64) (data : List UInt8) (path : String) : List Event :=
  [.store (.casPutRead i "k" 0 expected), .store (.casPutWrite i stamp data 0 path 0),
    .store (.casPutRefresh i 0), .store (.casMerge i true)]

/-- The file of call 0 is replaced by call 1, which has read back and has yet to queue it. -/
def replacedFile : List Event :=
  List.flatten [putUpToMerge 0 0 5 [1, 2, 3, 4] "a", [.store (.casReadBack 0)],
    putUpToMerge 1 5 6 [7] "b", [.store (.casReadBack 1), .store (.casFinish 0 true)]]

/-- Call 2 lands before call 1, which has replaced the file of call 0, has read back. -/
def overtakenWinner : List Event :=
  List.flatten [putUpToMerge 0 0 5 [1, 2, 3, 4] "a", [.store (.casReadBack 0)],
    putUpToMerge 1 5 6 [7] "b", putUpToMerge 2 6 7 [8] "c",
    [.store (.casReadBack 1), .store (.casFinish 0 true)]]

/-- Call 1 expects the stamp of call 0 before that is on the row. -/
def guessedVersion : List Event :=
  List.flatten [[.store (.casPutRead 1 "k" 0 5), .store (.casPutWrite 1 4 [7] 0 "b" 0),
      .store (.casPutRefresh 1 0)],
    putUpToMerge 0 0 5 [1, 2, 3, 4] "a", [.store (.casReadBack 0), .store (.casMerge 1 true),
      .store (.casReadBack 1), .store (.casFinish 0 true)]]

/-- Call 0 loses to call 1 and cannot read back. By then the value of call 1 is in a segment, and
the compactor drops the index row of the file before call 0 has returned. -/
def droppedIndexRow : List Event :=
  List.flatten [putUpToMerge 9 0 5 [1, 2] "p", [.store (.casReadBack 9), .store (.casFinish 9 true),
      .store (.casPutRead 0 "k" 0 5), .store (.casPutWrite 0 6 [3, 4] 0 "a" 0),
      .store (.casPutRefresh 0 0)],
    putUpToMerge 1 5 7 [5, 6] "b", [.store (.casReadBack 1), .store (.casFinish 1 true),
      .store (.casMerge 0 true), .store (.compactStart "s"), .store (.compactNext 0),
      .store (.migrationQueue 0), .store (.compactNext 0), .store (.compactCopy 0 0),
      .store (.compactFinish 0 true), .readBackFails 0, .store (.compactStart "s"),
      .store (.compactNext 1), .store (.compactFinish 1 true), .store (.reclaim 0)]]

/-- Call 0 has returned after the run, and its file "a" is on disk and not accounted for. -/
def LosesFile (es : List Event) : Prop :=
  RunOk (step ⟨1, 3⟩) (fun t e => freshNames t e = true) System.init es ∧
    (run (step ⟨1, 3⟩) System.init es).store.calls 0 = .reclaiming [] ∧
    ((run (step ⟨1, 3⟩) System.init es).store.rawFiles "a").isSome = true ∧
    ¬AccountedFor ⟨1, 3⟩ (run (step ⟨1, 3⟩) System.init es) 0 "k" "a"
      (Int64.ofNat (((run (step ⟨1, 3⟩) System.init es).store.rawFiles "a").getD []).length)

instance (es : List Event) : Decidable (LosesFile es) := by
  unfold LosesFile
  infer_instance

/-- Without one of the conditions the file of a call that has returned may be nowhere. -/
theorem spill_unaccounted :
    LosesFile replacedFile ∧ LosesFile overtakenWinner ∧ LosesFile guessedVersion ∧
      LosesFile droppedIndexRow := by
  decide +kernel

end OCache.Store.Spill
