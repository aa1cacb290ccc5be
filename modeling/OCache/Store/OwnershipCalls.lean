import OCache.Store.Moves

/-!
# Calls keep the ownership invariant

`CallStep` says what a step of a call does; `Ownership.call` reduces the invariant to what the step
adds: the new position of the call, the index row and the queue entry.
-/

namespace OCache.Store

open Merge Cas

/-! ## Steps of a call -/

/-- What a step of call `i`, which moves to `c` and writes the row `w`, does. -/
structure CallStep (s s' : State) (i : Nat) (c : Call) (w : Option (String × ValueMessage)) :
    Prop where
  calls : s'.calls = Function.update s.calls i c
  migrations : s'.migrations = s.migrations
  segments : s'.segments = s.segments
  rawFiles : ∀ p data, s.rawFiles p = some data → s'.rawFiles p = some data
  disjoint : ∀ p, (s.segments p).isSome → s.rawFiles p = none → s'.rawFiles p = none
  lastStamp : s.lastStamp ≤ s'.lastStamp
  rows : ∀ key row, s'.rows key = some row → RowFrom s w key row
  published : ∀ key row, w = some (key, row) → (s.calls i).writes = some row ∧ c.writes = none
  writes : ∀ r, c.writes = some r → (s.calls i).writes = some r ∨
    ((∀ p, rawPath r = some p → ¬Used s p) ∧ (r.version = 0 ∨ s.lastStamp < r.version))

section Step

variable {s s' : State} {i : Nat} {c : Call} {w : Option (String × ValueMessage)}

namespace CallStep

lemma frame (h : CallStep s s' i c w) : Frame s s' w :=
  { h with
    segments := fun p hp => by rwa [h.segments]
    writes := fun j r p hr hp => by
      rw [h.calls] at hr
      rcases eq_or_ne j i with rfl | hne
      · rw [Function.update_self] at hr
        exact (h.writes r hr).imp_right fun hnew => hnew.1 p hp
      · rw [Function.update_of_ne hne] at hr
        exact .inl hr
    owner := fun key row hw => ⟨i, (h.published key row hw).1⟩ }

/-- A call that only changes its position. -/
theorem setCall (h : ∀ r, c.writes = some r → (s.calls i).writes = some r) :
    CallStep s (s.setCall i c) i c none where
  calls := rfl
  migrations := rfl
  segments := rfl
  rawFiles _ _ hp := hp
  disjoint _ _ hp := hp
  lastStamp := UInt64.le_refl _
  rows _ _ hrow := .kept hrow
  published := by simp
  writes r hr := .inl (h r hr)

end CallStep

namespace Ownership

variable {q r : ValueMessage}

/-- A new row to be written shares neither file nor stamp with the rows that others write. -/
theorem not_clash_of_fresh (hI : Ownership s) {j : Nat} (hq : (s.calls j).writes = some q)
    (hpath : ∀ p, rawPath r = some p → ¬Used s p)
    (hversion : r.version = 0 ∨ s.lastStamp < r.version) : ¬Clash r q := by
  have hstored := ((hI.calls j).writes q hq).stored
  rintro (⟨p, hrp, hqp⟩ | ⟨hne, heq⟩)
  · -- The file of a pending row exists.
    obtain ⟨data, hdata, -⟩ := Option.map_eq_some_iff.mp (hstored.backed p hqp)
    exact hpath p hrp (.inl (by simp [hdata]))
  · rcases hversion with hzero | hlt
    · exact hne hzero
    · rw [heq] at hlt
      exact UInt64.lt_irrefl _ (UInt64.lt_of_lt_of_le hlt hstored.version)

/-- A row with a new name and a new stamp is apart from all rows. -/
theorem fresh_of_fresh (hI : Ownership s) (hpath : ∀ p, rawPath r = some p → ¬Used s p)
    (hversion : r.version = 0 ∨ s.lastStamp < r.version) {key : String} (hq : s.rows key = some q) :
    ¬Clash r q := by
  have hknown := hI.rows key q hq
  rintro (⟨p, hrp, hqp⟩ | ⟨hne, heq⟩)
  · exact hpath p hrp (hknown.settled p hqp).used
  · rcases hversion with hzero | hlt
    · exact hne hzero
    · rw [heq] at hlt
      exact UInt64.lt_irrefl _ (UInt64.lt_of_lt_of_le hlt hknown.stored.version)

lemma clash_symm (h : Clash r q) : Clash q r := by
  rcases h with ⟨p, hr, hq⟩ | ⟨hne, heq⟩
  · exact .inl ⟨p, hq, hr⟩
  · exact .inr ⟨heq ▸ hne, heq.symm⟩

variable (hI : Ownership s)

include hI

/-- The rows that two calls are about to write stay apart. -/
theorem distinct_of_callStep (hS : CallStep s s' i c w) (j k : Nat) (r q : ValueMessage)
    (hr : (s'.calls j).writes = some r) (hq : (s'.calls k).writes = some q) (hclash : Clash r q) :
    j = k := by
  rw [hS.calls] at hr hq
  by_cases hj : j = i <;> by_cases hk : k = i
  · rw [hj, hk]
  · subst hj
    rw [Function.update_self] at hr
    rw [Function.update_of_ne hk] at hq
    rcases hS.writes r hr with hold | ⟨hpath, hversion⟩
    · exact hI.distinct _ _ r q hold hq hclash
    · exact absurd hclash (hI.not_clash_of_fresh hq hpath hversion)
  · subst hk
    rw [Function.update_of_ne hj] at hr
    rw [Function.update_self] at hq
    rcases hS.writes q hq with hold | ⟨hpath, hversion⟩
    · exact hI.distinct _ _ r q hr hold hclash
    · exact absurd (clash_symm hclash) (hI.not_clash_of_fresh hr hpath hversion)
  · rw [Function.update_of_ne hj] at hr
    rw [Function.update_of_ne hk] at hq
    exact hI.distinct _ _ r q hr hq hclash

/-- The file of a row is settled as soon as its call is done with it. -/
theorem settled_of_released (hS : CallStep s s' i c w) (hr : (s.calls i).writes = some r)
    (hc : c.writes = none) {p : String} (hp : rawPath r = some p) : Settled s' p where
  used := by
    obtain ⟨data, hdata, -⟩ :=
      Option.map_eq_some_iff.mp (((hI.calls i).writes r hr).stored.backed p hp)
    exact hS.frame.used (.inl (by simp [hdata]))
  free j q hq hqp := by
    rw [hS.calls] at hq
    by_cases hj : j = i
    · rw [hj, Function.update_self, hc] at hq
      simp at hq
    · rw [Function.update_of_ne hj] at hq
      exact hj (hI.distinct _ _ q r hq hr (.inl ⟨p, hqp, hp⟩))

/-- A file that its call does not publish is unreferenced. -/
theorem unreferenced_of_released (hS : CallStep s s' i c none) (hr : (s.calls i).writes = some r)
    (hc : c.writes = none) {p : String} (hp : rawPath r = some p) : Unreferenced s' p where
  settled := hI.settled_of_released hS hr hc hp
  none key q hq hqp := by
    cases hS.rows key q hq with
    | kept hkept => exact ((hI.calls i).writes r hr).fresh key q hkept (.inl ⟨p, hp, hqp⟩)
    | written hw => simp at hw
    | derived hpath => simp [hpath] at hqp

/-- The row that a call publishes is known from then on, whether or not it is still there. -/
theorem known_of_published {key : String} (hS : CallStep s s' i c (some (key, r))) :
    Known s' key r where
  stored := by
    have hr := (hS.published key r rfl).1
    exact hS.frame.stored ((hI.calls i).writes r hr).stored
  settled p hp := by
    obtain ⟨hr, hc⟩ := hS.published key r rfl
    exact hI.settled_of_released hS hr hc hp
  only p hp k q hq hqp := by
    obtain ⟨hr, -⟩ := hS.published key r rfl
    cases hS.rows k q hq with
    | kept hkept => exact absurd (.inl ⟨p, hp, hqp⟩) (((hI.calls i).writes r hr).fresh k q hkept)
    | written hw =>
      simp only [Option.some.injEq, Prod.mk.injEq] at hw
      exact ⟨hw.1.symm, hw.2.symm⟩
    | derived hpath => simp [hpath] at hqp

/-- A step of a call keeps the invariant if what it adds is in order. -/
theorem call (hS : CallStep s s' i c w) (hc : CallOk s' c)
    (hindex : ∀ key path, (key, path) ∈ s'.compactionIndex →
      (key, path) ∈ s.compactionIndex ∨ Indexed s' key path)
    (hqueue : ∀ p, p ∈ s'.queued ∨ p ∈ s'.unlinked →
      (p ∈ s.queued ∨ p ∈ s.unlinked) ∨ Unreferenced s' p) : Ownership s' where
  rows key row hrow := by
    cases hS.rows key row hrow with
    | kept hkept => exact hS.frame.known (hI.rows key row hkept)
    | written hw =>
      subst hw
      exact hI.known_of_published hS
    | derived hpath hop hversion =>
      refine ⟨⟨hop, ?_, by simp [hpath], by simp [hpath]⟩, by simp [hpath], by simp [hpath]⟩
      rcases hversion with hzero | ⟨q, hq, hv⟩
      · simp [hzero]
      · exact hv ▸ UInt64.le_trans (hI.rows key q hq).stored.version hS.lastStamp
  calls j := by
    rw [hS.calls]
    by_cases hj : j = i
    · rwa [hj, Function.update_self]
    · rw [Function.update_of_ne hj]
      refine hS.frame.callOk (hI.calls j) fun row k r hrow hw hclash => hj ?_
      exact hI.distinct j i row r hrow (hS.published k r hw).1 hclash
  distinct := hI.distinct_of_callStep hS
  migrations x hx := by
    rw [hS.migrations] at hx
    exact hS.frame.migrationOk (hI.migrations x hx)
  index key path he := by
    rcases hindex key path he with hold | hnew
    · exact hS.frame.indexed (hI.index key path hold)
    · exact hnew
  queue p hp := by
    rcases hqueue p hp with hold | hnew
    · exact hS.frame.unreferenced (hI.queue p hold)
    · exact hnew
  names p hp := by
    rw [hS.segments] at hp
    exact ⟨(hI.names p hp).1, hS.disjoint p hp (hI.names p hp).2⟩

/-- A step that changes the position of a call and nothing else. -/
theorem setCall (hw : ∀ r, c.writes = some r → (s.calls i).writes = some r)
    (hknows : ∀ key row, (key, row) ∈ c.knows →
      (key, row) ∈ (s.calls i).knows ∨ s.rows key = some row)
    (hreclaims : ∀ p ∈ c.reclaims, Unreferenced (s.setCall i c) p) (hwf : c.Wf) :
    Ownership (s.setCall i c) := by
  have hF := (CallStep.setCall hw).frame
  refine hI.call (.setCall hw) ⟨fun r hr => ?_, fun key row he => hF.known ?_, hreclaims, hwf⟩
    (fun _ _ h => .inl h) fun _ h => .inl h
  · exact hF.pending ((hI.calls i).writes r (hw r hr)) (by simp)
  · rcases hknows key row he with hold | hread
    · exact (hI.calls i).knows key row hold
    · exact hI.rows key row hread

/-- A call that goes on to queue files. -/
theorem reclaims {paths : List String}
    (h : ∀ p ∈ paths, Unreferenced (s.setCall i (.reclaiming paths)) p) :
    Ownership (s.setCall i (.reclaiming paths)) :=
  hI.setCall (by simp) (by simp) h trivial

end Ownership

end Step

/-! ## The payload of a put -/

section Payload

variable {cfg : Config} {s : State} {data : List UInt8} {path : String} {checksum : UInt32}

lemma writeRaw_rawFiles_of_ne {p : String} (hne : p ≠ path) :
    (s.writeRaw (cfg.payload data path checksum) data).rawFiles p = s.rawFiles p := by
  unfold Config.payload
  split
  · rfl
  · simp [State.writeRaw, hne]

/-- A row that has the payload's file. -/
structure Carries (payload : Payload) (row : ValueMessage) : Prop where
  rawPath : rawPath row = match payload with
    | .inline _ => none
    | .rawFile path _ _ => some path
  plain : segmentPlace row = none
  length : ∀ path length checksum, payload = .rawFile path length checksum →
    row.valueLength = length

lemma carries_putRow (payload : Payload) (expiry : Int64) :
    Carries payload (putRow payload expiry) := by
  cases payload with
  | inline data => exact ⟨rfl, rfl, by simp⟩
  | rawFile path length checksum => exact ⟨rfl, rfl, by simp [putRow]⟩

lemma carries_casResult (payload : Payload) (expiry : Int64) (stamp expected : UInt64) :
    Carries payload (casResult (casPutOperand payload expiry stamp expected)) := by
  cases payload with
  | inline data => exact ⟨rfl, rfl, by simp⟩
  | rawFile path length checksum => exact ⟨rfl, rfl, by simp [casResult, casPutOperand, adopt]⟩

/-- The only file a row with the payload can have is the new one. -/
theorem Carries.path_eq {row : ValueMessage} (h : Carries (cfg.payload data path checksum) row)
    {p : String} (hp : Store.rawPath row = some p) :
    p = path ∧ (s.writeRaw (cfg.payload data path checksum) data).rawFiles p = some data ∧
      row.valueLength = Int64.ofNat data.length := by
  have hrow := h.rawPath
  have hlen := h.length
  by_cases hsmall : data.length ≤ cfg.inlineThreshold
  · simp [Config.payload, hsmall, hp] at hrow
  · simp only [Config.payload, if_neg hsmall, hp, Option.some.injEq] at hrow hlen ⊢
    exact ⟨hrow, by simp [State.writeRaw, hrow], hlen _ _ _ rfl⟩

end Payload

/-! ## Put and DeleteKey -/

section Foreground

variable {cfg : Config} {s : State} {i : Nat}

variable {row : ValueMessage}

/-- A call that stores its bytes under a fresh name and takes at most a fresh stamp. -/
theorem Ownership.writeRaw (hI : Ownership s) {data : List UInt8} {path : String}
    {checksum : UInt32} {stamp : UInt64} {c : Call} (hne : path ≠ "")
    (hraw : s.rawFiles path = none) (hseg : s.segments path = none) (hstamp : s.lastStamp ≤ stamp)
    (hrow : c.writes = some row) (hcarries : Carries (cfg.payload data path checksum) row)
    (hop : row.opType = .none) (hversion : row.version = 0 ∨ s.lastStamp < row.version)
    (hle : row.version ≤ stamp) (hknows : c.knows = []) (hreclaims : c.reclaims = []) (hwf : c.Wf) :
    Ownership ({ s.writeRaw (cfg.payload data path checksum) data with
      lastStamp := stamp }.setCall i c) := by
  have hfresh : ∀ p, rawPath row = some p → ¬Used s p := by
    intro p hp
    obtain ⟨rfl, -, -⟩ := hcarries.path_eq (s := s) hp
    simp [Used, hraw, hseg]
  have hS : CallStep s ({ s.writeRaw (cfg.payload data path checksum) data with
      lastStamp := stamp }.setCall i c) i c none := by
    refine ⟨rfl, rfl, rfl, ?_, ?_, hstamp, fun _ _ hr => .kept hr, by simp, ?_⟩
    · intro p d hp
      have hpne : p ≠ path := by
        rintro rfl
        simp [hraw] at hp
      exact (writeRaw_rawFiles_of_ne hpne).trans hp
    · intro p hp hnone
      have hpne : p ≠ path := by
        rintro rfl
        simp [hseg] at hp
      exact (writeRaw_rawFiles_of_ne hpne).trans hnone
    · intro r hr
      rw [hrow, Option.some.injEq] at hr
      exact .inr (hr ▸ ⟨hfresh, hversion⟩)
  refine hI.call hS ⟨?_, by rw [hknows]; simp, by rw [hreclaims]; simp, hwf⟩
    (fun _ _ h => .inl h) fun _ h => .inl h
  · -- Neither the file nor the stamp was used before.
    intro r hr
    rw [hrow, Option.some.injEq] at hr
    subst hr
    refine ⟨⟨hop, hle, ?_, ?_⟩, hcarries.plain, ?_⟩
    · intro p hp
      exact (hcarries.path_eq (s := s) hp).1 ▸ hne
    · intro p hp
      obtain ⟨-, hdata, hlen⟩ := hcarries.path_eq (s := s) hp
      rw [hlen]
      exact Option.map_eq_some_iff.mpr ⟨data, hdata, rfl⟩
    · exact fun key q hq => hI.fresh_of_fresh hfresh hversion hq

/-- The rows that a call has just read. -/
theorem rows_of_mem_read {key k : String} {r : ValueMessage}
    (h : (k, r) ∈ (s.rows key).toList.map (key, ·)) : s.rows k = some r := by
  simp only [List.mem_map, Option.mem_toList, Prod.mk.injEq] at h
  obtain ⟨q, hq, rfl, rfl⟩ := h
  exact hq

/-- A call that has nothing left but to queue files. -/
theorem callOk_reclaiming {paths : List String} (h : ∀ p ∈ paths, Unreferenced s p) :
    CallOk s (.reclaiming paths) :=
  ⟨by simp, by simp, h, trivial⟩

/-- The file of a CAS operand is the one of the row it leaves. -/
theorem rawPath_casResult {operand : ValueMessage}
    (h : operand.opType ≠ .casPut → rawPath operand = none) :
    rawPath (casResult operand) = rawPath operand := by
  unfold casResult
  split
  · rfl
  · rename_i hop
    rw [h hop]
    rfl

/-- The file that a call owns is the one of the row that it is about to write. -/
theorem Ownership.writes_of_own (hI : Ownership s) (hown : (s.calls i).own = some row) :
    ∃ r, (s.calls i).writes = some r ∧ rawPath r = rawPath row := by
  have hwf := (hI.calls i).wf
  generalize s.calls i = c at hown hwf ⊢
  cases c
  case putRead =>
    cases hown
    exact ⟨_, rfl, rfl⟩
  case casPutWritten =>
    cases hown
    exact ⟨_, rfl, rawPath_casResult fun hne => absurd hwf.1 hne⟩
  case casMerging =>
    cases hown
    exact ⟨_, rfl, rawPath_casResult hwf.2.1⟩
  all_goals cases hown

/-- A call that gives up queues the file of the row it did not write. -/
theorem Ownership.giveUp (hI : Ownership s) (hown : (s.calls i).own = some row) :
    Ownership (s.setCall i (.reclaiming (reclaimable (some row)))) := by
  obtain ⟨r, hr, hpath⟩ := hI.writes_of_own hown
  have hS : CallStep s (s.setCall i (.reclaiming (reclaimable (some row)))) i _ none :=
    .setCall (by simp)
  refine hI.reclaims fun p hp => ?_
  obtain ⟨q, hq, hqp⟩ := mem_reclaimable.mp hp
  cases hq
  exact hI.unreferenced_of_released hS hr rfl (hpath.trans hqp)

lemma ownership_putCommit (hI : Ownership s) {key : String} {prev : Option ValueMessage}
    (hpc : s.calls i = .putRead key row prev) :
    Ownership (((s.setRow key (some row)).indexRaw cfg key row).setCall i
      (.reclaiming (reclaimable prev))) := by
  have hrow : (s.calls i).writes = some row := by simp [hpc]
  have hS : CallStep s (((s.setRow key (some row)).indexRaw cfg key row).setCall i
      (.reclaiming (reclaimable prev))) i (.reclaiming (reclaimable prev)) (some (key, row)) := by
    refine ⟨rfl, rfl, rfl, fun _ _ h => h, fun _ _ h => h, UInt64.le_refl _, ?_, ?_,
      by simp⟩
    · intro k r hr
      by_cases hk : k = key
      · subst hk
        exact .written (by simpa using hr)
      · exact .kept (by
          simpa [hk] using hr)
    · rintro k r hw
      cases hw
      exact ⟨hrow, rfl⟩
  have hknown := hI.known_of_published hS
  refine hI.call hS (callOk_reclaiming fun p hp => ?_) ?_ fun _ h => .inl h
  · -- The row that was read is gone: the key now has another file or none.
    obtain ⟨r, rfl, hrp⟩ := mem_reclaimable.mp hp
    have hread : Known s key r := (hI.calls i).knows key r (by simp [hpc])
    refine hS.frame.unreferenced_of_replaced hread hrp fun hsame => ?_
    have heq : row = r := by
      simpa using hsame
    exact (hread.settled p hrp).free i row hrow (heq ▸ hrp)
  · intro k path he
    rcases State.mem_indexRaw _ he with hold | ⟨rfl, hpath⟩
    · exact .inl hold
    · exact .inr (hknown.indexed hpath)

/-- Rows are removed, and a call queues the files of rows it has read under these keys. -/
theorem Ownership.removeRows (hI : Ownership s) {rows : String → Option ValueMessage}
    {paths : List String} (hrows : ∀ key row, rows key = some row → s.rows key = some row)
    (hpaths : ∀ p ∈ paths, ∃ key row, (key, row) ∈ (s.calls i).knows ∧ rawPath row = some p ∧
      rows key = none) :
    Ownership ({ s with rows := rows }.setCall i (.reclaiming paths)) := by
  have hS : CallStep s ({ s with rows := rows }.setCall i (.reclaiming paths)) i
      (.reclaiming paths) none :=
    ⟨rfl, rfl, rfl, fun _ _ h => h, fun _ _ h => h, UInt64.le_refl _,
      fun key row hr => .kept (hrows key row hr), by simp, by simp⟩
  refine hI.call hS (callOk_reclaiming fun p hp => ?_) (fun _ _ h => .inl h) fun _ h => .inl h
  obtain ⟨key, row, hmem, hrp, hnone⟩ := hpaths p hp
  refine hS.frame.unreferenced_of_replaced ((hI.calls i).knows key row hmem) hrp fun hsame => ?_
  simp [hnone] at hsame

end Foreground

/-! ## Compare-and-swap -/

section CompareAndSwap

variable {cfg : Config} {s : State} {i : Nat} {key : String} {operand : ValueMessage}
  {prev : Option ValueMessage}

lemma ne_zero_of_lt {a b : UInt64} (h : a < b) : b ≠ 0 := by
  rintro rfl
  exact UInt64.not_lt_zero h

lemma ownership_casPutRefresh (hI : Ownership s) (hpc : s.calls i = .casPutWritten key operand)
    (carried : UInt64) :
    Ownership (s.setCall i
      (.casMerging key { operand with casExpectedVersion := carried } (s.rows key))) := by
  have hcall := hI.calls i
  rw [hpc] at hcall
  obtain ⟨hop, hzero⟩ : operand.opType = .casPut ∧ operand.version ≠ 0 := hcall.wf
  -- The version that the operand expects is not part of the row it leaves.
  refine hI.setCall (fun r hr => by rw [hpc]; exact hr) (fun k r he => .inr (rows_of_mem_read he))
    (by simp) ⟨by simp [isCas, hop], by simp [hop], fun r hr hsame => ?_⟩
  have hfresh := (hcall.writes (casResult operand) rfl).fresh key r hr
  exact hfresh (.inr ⟨by simpa using hzero, by simpa using hsame.symm⟩)

lemma ownership_casDeleteStamp (hI : Ownership s) {carried stamp : UInt64}
    (hpc : s.calls i = .casDeleteAdmitted key carried prev) (hlt : s.lastStamp < stamp) :
    Ownership ({ s with lastStamp := stamp }.setCall i
      (.casMerging key (casDeleteOperand stamp carried) prev)) := by
  have hcall := hI.calls i
  rw [hpc] at hcall
  have hnone : rawPath (casResult (casDeleteOperand stamp carried)) = none := rfl
  have hversion : (casResult (casDeleteOperand stamp carried)).version = 0 ∨
      s.lastStamp < (casResult (casDeleteOperand stamp carried)).version := by
    simpa using .inr hlt
  have hS : CallStep s ({ s with lastStamp := stamp }.setCall i
      (.casMerging key (casDeleteOperand stamp carried) prev)) i
      (.casMerging key (casDeleteOperand stamp carried) prev) none := by
    refine ⟨rfl, rfl, rfl, fun _ _ h => h, fun _ _ h => h, UInt64.le_of_lt hlt,
      fun _ _ h => .kept h, by simp, ?_⟩
    intro r hr
    cases hr
    exact .inr ⟨by simp [hnone], hversion⟩
  refine hI.call hS ⟨?_, ?_, by simp, ?_⟩ (fun _ _ h => .inl h) fun _ h => .inl h
  · rintro r hr
    cases hr
    exact ⟨⟨casResult_opType, by simp, by simp [hnone], by simp [hnone]⟩, rfl,
      fun k q hq => hI.fresh_of_fresh (by simp [hnone]) hversion hq⟩
  · exact fun k r he => hS.frame.known (hcall.knows k r he)
  · -- The row was read before the stamp was issued.
    refine ⟨rfl, fun _ => rfl, fun r hr hsame => ?_⟩
    have hle := (hcall.knows key r (by simpa using hr)).stored.version
    rw [hsame] at hle
    exact UInt64.lt_irrefl _ (UInt64.lt_of_lt_of_le hlt hle)

/-- Where the row of a CAS merge comes from. -/
theorem rowFrom_casMerge {row : ValueMessage} (hcas : isCas operand = true)
    (h : mergeRow (s.rows key) [operand] = row) :
    RowFrom s (some (key, casResult operand)) key row := by
  rw [mergeRow_cas hcas] at h
  split at h
  · exact .written (by rw [h])
  · cases hbase : baseOf (s.rows key) with
    | none =>
      rw [hbase] at h
      subst h
      exact .derived rfl rfl (.inl rfl)
    | some base =>
      rw [hbase] at h
      exact .kept (by rw [eq_some_of_baseOf hbase]; exact congrArg some h)

variable (hI : Ownership s)

include hI

lemma ownership_casMerge (hpc : s.calls i = .casMerging key operand prev) :
    Ownership ((s.setRow key (some (mergeRow (s.rows key) [operand]))).setCall i
      (.casMerged key operand prev)) := by
  have hcall := hI.calls i
  have hwrites : (s.calls i).writes = some (casResult operand) := by simp [hpc]
  rw [hpc] at hcall
  have hS : CallStep s ((s.setRow key (some (mergeRow (s.rows key) [operand]))).setCall i
      (.casMerged key operand prev)) i (.casMerged key operand prev)
      (some (key, casResult operand)) := by
    refine ⟨rfl, rfl, rfl, fun _ _ h => h, fun _ _ h => h, UInt64.le_refl _, ?_, ?_,
      by simp⟩
    · intro k r hr
      by_cases hk : k = key
      · subst hk
        exact rowFrom_casMerge hcall.wf.1 (by simpa using hr)
      · exact .kept (by
          simpa [hk] using hr)
    · intro k r hw
      cases hw
      exact ⟨hwrites, rfl⟩
  refine hI.call hS ⟨by simp, ?_, by simp, hcall.wf⟩
    (fun _ _ h => .inl h) fun _ h => .inl h
  intro k r he
  rcases List.mem_cons.mp he with heq | hold
  · cases heq
    exact hI.known_of_published hS
  · exact hS.frame.known (hcall.knows k r hold)

section

variable (hpc : s.calls i = .casMerged key operand prev)

include hpc

/-- The row carries the stamp of the call, so it is not the one that the call read before. -/
theorem Ownership.unreferenced_of_won (hwon : carries (s.rows key) operand.version = true)
    {p : String} (hp : p ∈ reclaimReplacedValue prev) : Unreferenced s p := by
  have hcall := hI.calls i
  rw [hpc] at hcall
  obtain ⟨r, rfl, hrp⟩ := mem_reclaimReplacedValue hp
  have hread : Known s key r := hcall.knows key r (by simp)
  refine ⟨hread.settled p hrp, fun k q hq hqp => ?_⟩
  obtain ⟨rfl, rfl⟩ := hread.only p hrp k q hq hqp
  rw [hq] at hwon
  exact hcall.wf.2.2 q rfl (by simpa using hwon)

/-- Had the row of a call that lost stayed, it would carry the stamp. -/
theorem Ownership.unreferenced_of_lost (hlost : ¬carries (s.rows key) operand.version = true)
    {p : String} (hp : p ∈ reclaimable (some operand)) : Unreferenced s p := by
  have hcall := hI.calls i
  rw [hpc] at hcall
  have hown : Known s key (casResult operand) := hcall.knows _ _ (by simp)
  obtain ⟨r, hr, hrp⟩ := mem_reclaimable.mp hp
  cases hr
  have hpath := (rawPath_casResult hcall.wf.2.1).trans hrp
  refine ⟨hown.settled p hpath, fun k q hq hqp => hlost ?_⟩
  obtain ⟨rfl, rfl⟩ := hown.only p hpath k q hq hqp
  simp [hq]

lemma ownership_casWon
    (hwon : carries (s.rows key) operand.version = true) (hput : operand.opType = .casPut) :
    Ownership (s.setCall i (.casWon key operand (reclaimReplacedValue prev))) := by
  have hw : ∀ r, (Call.casWon key operand (reclaimReplacedValue prev)).writes = some r →
      (s.calls i).writes = some r := by simp
  refine hI.setCall hw (fun k r he => .inl ?_)
    (fun p hp => (CallStep.setCall hw).frame.unreferenced (hI.unreferenced_of_won hpc hwon hp)) hput
  rw [hpc]
  exact List.mem_cons.mpr (.inl (List.mem_singleton.mp he))

end

/-- A call goes on to queue files that are unreferenced already. -/
theorem Ownership.reclaims_of_unreferenced {paths : List String}
    (h : ∀ p ∈ paths, Unreferenced s p) : Ownership (s.setCall i (.reclaiming paths)) :=
  hI.reclaims fun p hp => (CallStep.setCall (by simp)).frame.unreferenced (h p hp)

lemma ownership_casFinish {replaced : List String}
    (hpc : s.calls i = .casWon key operand replaced) :
    Ownership ((s.indexRaw cfg key operand).setCall i (.reclaiming replaced)) := by
  have hcall := hI.calls i
  rw [hpc] at hcall
  have hput : operand.opType = .casPut := hcall.wf
  have hown : Known s key (casResult operand) := hcall.knows _ _ (by simp)
  have hS : CallStep s ((s.indexRaw cfg key operand).setCall i (.reclaiming replaced)) i
      (.reclaiming replaced) none :=
    ⟨rfl, rfl, rfl, fun _ _ h => h, fun _ _ h => h, UInt64.le_refl _, fun _ _ h => .kept h,
      by simp, by simp⟩
  refine hI.call hS (callOk_reclaiming fun p hp => hS.frame.unreferenced (hcall.reclaims p hp))
    ?_ fun _ h => .inl h
  intro k path he
  rcases State.mem_indexRaw _ he with hold | ⟨rfl, hpath⟩
  · exact .inl hold
  · exact .inr ((hS.frame.known hown).indexed ((rawPath_casResult (by simp [hput])).trans hpath))

end CompareAndSwap

/-! ## The deletion queue -/

section Queue

variable {s : State} {i : Nat} {path : String}

lemma ownership_reclaim (hI : Ownership s) {paths : List String}
    (hpc : s.calls i = .reclaiming (path :: paths)) :
    Ownership ((s.queue path).setCall i (.reclaiming paths)) := by
  have hcall := hI.calls i
  rw [hpc] at hcall
  have hS : CallStep s ((s.queue path).setCall i (.reclaiming paths)) i (.reclaiming paths) none :=
    ⟨rfl, rfl, rfl, fun _ _ h => h, fun _ _ h => h, UInt64.le_refl _, fun _ _ h => .kept h,
      by simp, by simp⟩
  have hun : ∀ p ∈ path :: paths, Unreferenced ((s.queue path).setCall i (.reclaiming paths)) p :=
    fun p hp => hS.frame.unreferenced (hcall.reclaims p hp)
  refine hI.call hS (callOk_reclaiming fun p hp => hun p (List.mem_cons_of_mem _ hp))
    (fun _ _ h => .inl h) fun p hp => ?_
  simp only [State.setCall, State.queue, List.mem_cons] at hp
  rcases hp with (rfl | hp) | hp
  · exact .inr (hun p List.mem_cons_self)
  · exact .inl (.inl hp)
  · exact .inl (.inr hp)

/-- A step that no execution takes: rows, files and executions stay. -/
theorem Ownership.idle (hI : Ownership s) {queued unlinked : List String}
    {observed : List GetResult}
    (hqueue : ∀ p, p ∈ queued ∨ p ∈ unlinked → p ∈ s.queued ∨ p ∈ s.unlinked) :
    Ownership { s with queued := queued, unlinked := unlinked, observed := observed } := by
  have hS : CallStep s { s with queued := queued, unlinked := unlinked, observed := observed } 0
      (s.calls 0) none :=
    ⟨(Function.update_eq_self 0 s.calls).symm, rfl, rfl, fun _ _ h => h, fun _ _ h => h,
      UInt64.le_refl _, fun _ _ h => .kept h, by simp, fun _ h => .inl h⟩
  exact hI.call hS (hS.frame.callOk (hI.calls 0) (by simp)) (fun _ _ h => .inl h)
    fun p hp => .inl (hqueue p hp)

lemma ownership_unlink (hI : Ownership s) (hmem : path ∈ s.queued) :
    Ownership { s with queued := s.queued.filter (· ≠ path), unlinked := path :: s.unlinked } := by
  refine hI.idle fun p hp => ?_
  simp only [List.mem_filter, List.mem_cons] at hp
  rcases hp with ⟨hp, -⟩ | rfl | hp
  · exact .inl hp
  · exact .inl hmem
  · exact .inr hp

end Queue

end OCache.Store
