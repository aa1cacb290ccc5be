import OCache.Store.State

/-!
# The in-memory cache and the store it stands for

`MemoryCache` is a client without a server, for tests. Its conditional operations imitate those of
the store: it keeps values, their versions, and for deleted keys the version of the delete. The
store keeps one metadata row for each key, and merges operands into it.

Calls come one after the other. Each has a clock reading, and both sides compare it with the same
deadline, so a value expires on both between the same two calls. Expired rows stay in the store. The
caller's expected version is zero or was returned earlier, on each side by that side's own call.

The environment chooses the clock reading, the stamp that `nextVersion` issues and the name of a new
raw file. Replaced raw files are deleted at once.
-/

namespace OCache.MemoryCache

open Merge Cas

/-- What a call returns. -/
inductive Answer where
  | found (value : List UInt8) (version : UInt64)
  | absent (token : UInt64)
  | stored (version : UInt64)
  | deleted
  | mismatch (current : UInt64)
  /-- The value could not be read. -/
  | failed
deriving DecidableEq

/-- The version that the caller learns. -/
def Answer.version : Answer → Option UInt64
  | .found _ v | .absent v | .stored v | .mismatch v => some v
  | .deleted | .failed => none

/-- The answer with another version. -/
def Answer.map (f : UInt64 → UInt64) : Answer → Answer
  | .found value v => .found value (f v)
  | .absent v => .absent (f v)
  | .stored v => .stored (f v)
  | .deleted => .deleted
  | .mismatch v => .mismatch (f v)
  | .failed => .failed

/-! ## The in-memory cache -/

/-- `cacheEntry`. A deadline of zero is none. -/
structure CacheEntry where
  value : List UInt8
  expiresAt : Int64

/-- `MemoryCache`. A version of zero is none. -/
structure Cache where
  data : String → Option CacheEntry
  versions : String → UInt64
  fences : String → Option UInt64
  versionCounter : UInt64

def memoryLegacyVersion : UInt64 := 1

/-- `NewMemoryCache` -/
def Cache.new : Cache where
  data _ := none
  versions _ := 0
  fences _ := none
  versionCounter := memoryLegacyVersion

namespace Cache

variable (m : Cache) (now : Int64) (key : String)

/-- `liveLocked` -/
def live : Bool :=
  match m.data key with
  | none => false
  | some entry => entry.expiresAt = 0 ∨ now < entry.expiresAt

/-- `effectiveVersionLocked` -/
def effectiveVersion : UInt64 :=
  if m.live now key then
    if m.versions key ≠ 0 then m.versions key else memoryLegacyVersion
  else 0

/-- `absenceTokenLocked` -/
def absenceToken : Cache × UInt64 :=
  match m.fences key with
  | some f => (m, f)
  | none => ({ m with versionCounter := m.versionCounter + 1 }, m.versionCounter + 1)

variable (expected : UInt64)

/-- `admitsLocked`, with the version that a mismatch reports -/
def admits : Bool × UInt64 :=
  if m.live now key then
    (m.effectiveVersion now key = expected, m.effectiveVersion now key)
  else
    match m.fences key with
    | some f => (expected = 0 ∨ f ≤ expected, f)
    | none => (true, 0)

/-- `GetWithVersion` -/
def getWithVersion : Cache × Answer :=
  if m.live now key then
    match m.data key with
    | some entry => (m, .found entry.value (m.effectiveVersion now key))
    | none => (m, .failed)
  else ((m.absenceToken key).1, .absent (m.absenceToken key).2)

/-- `PutIfVersion` -/
def putIfVersion (value : List UInt8) (expiresAt : Int64) (expected : UInt64) : Cache × Answer :=
  if (m.admits now key expected).1 then
    ({ data := Function.update m.data key (some ⟨value, expiresAt⟩)
       versions := Function.update m.versions key (m.versionCounter + 1)
       fences := Function.update m.fences key none
       versionCounter := m.versionCounter + 1 }, .stored (m.versionCounter + 1))
  else (m, .mismatch (m.admits now key expected).2)

/-- The check of `DeleteIfVersion`. It has its own: on a key that is absent and not fenced only zero
is admitted. -/
def deleteAdmits : Bool × UInt64 :=
  if m.live now key then
    (m.effectiveVersion now key = expected, m.effectiveVersion now key)
  else
    match m.fences key with
    | some f => (expected = 0 ∨ f ≤ expected, f)
    | none => (expected = 0, 0)

/-- `DeleteIfVersion` -/
def deleteIfVersion : Cache × Answer :=
  if (m.deleteAdmits now key expected).1 then
    ({ data := Function.update m.data key none
       versions := Function.update m.versions key 0
       fences := Function.update m.fences key (some (m.versionCounter + 1))
       versionCounter := m.versionCounter + 1 }, .deleted)
  else (m, .mismatch (m.deleteAdmits now key expected).2)

end Cache

/-! ## The store -/

/-- The rows and raw files of a store, and the stamp issued last. -/
structure Storage where
  rows : String → Option ValueMessage
  files : String → Option (List UInt8)
  lastStamp : UInt64

/-- An empty store. Stamps are above `versionLegacy`. -/
def Storage.new : Storage where
  rows _ := none
  files _ := none
  lastStamp := versionLegacy

/-- The value of a row. Nothing is in segments, as nothing is compacted. -/
def valueOf (files : String → Option (List UInt8)) (row : ValueMessage) : Option (List UInt8) :=
  match row.valueType with
  | .inline => some row.data
  | .rawFile => files row.rawFilePath
  | _ => none

/-- `reclaimReplacedValue`: the raw file of a replaced row is deleted. -/
def reclaim (files : String → Option (List UInt8)) : Option ValueMessage → String → Option (List UInt8)
  | some row =>
    if row.valueType = .rawFile ∧ row.rawFilePath ≠ "" then Function.update files row.rawFilePath none
    else files
  | none => files

namespace Storage

variable (st : Storage) (now : Int64) (key : String) (stamp : UInt64)

/-- `GetWithVersion` -/
def getWithVersion : Storage × Answer :=
  match casClassify now (st.rows key) with
  | (.live, cur) =>
    match (st.rows key).bind (valueOf st.files) with
    | some value => (st, .found value cur)
    | none => (st, .failed)
  | (.fenced, cur) => (st, .absent cur)
  | (.absent, _) => ({ st with lastStamp := stamp }, .absent stamp)

/-- The row after the operand was merged. -/
def merged (operand : ValueMessage) : ValueMessage := mergeRow (st.rows key) [operand]

/-- `PutIfVersion`. A value that does not fit into its row is first written to the file `path`. The
row is read twice before the merge, at the same time and with the same result. -/
def putIfVersion (cfg : Store.Config) (value : List UInt8) (expiry : Int64) (expected : UInt64)
    (path : String) (checksum : UInt32) : Storage × Answer :=
  let (state, cur) := casClassify now (st.rows key)
  if casAdmits state cur expected then
    let operand := casPutOperand (cfg.payload value path checksum) expiry stamp
      (carriedVersion now (st.rows key) expected)
    let row := st.merged key operand
    let written :=
      if operand.valueType = .rawFile then Function.update st.files path (some value) else st.files
    -- The row read back has the stamp: the call has won and the replaced value is deleted.
    if row.version = stamp then
      ({ rows := Function.update st.rows key (some row)
         files := reclaim written (st.rows key)
         lastStamp := stamp }, .stored stamp)
    else
      ({ rows := Function.update st.rows key (some row)
         files := st.files
         lastStamp := stamp }, .mismatch (currentVersionOf now (some row)))
  else (st, .mismatch cur)

/-- `DeleteIfVersion` -/
def deleteIfVersion (expected : UInt64) : Storage × Answer :=
  let (state, cur) := casClassify now (st.rows key)
  if Cas.deleteAdmits state cur expected then
    let row := st.merged key (casDeleteOperand stamp (carriedVersion now (st.rows key) expected))
    if row.version = stamp then
      ({ rows := Function.update st.rows key (some row)
         files := reclaim st.files (st.rows key)
         lastStamp := stamp }, .deleted)
    else
      ({ rows := Function.update st.rows key (some row)
         files := st.files
         lastStamp := stamp }, .mismatch (currentVersionOf now (some row)))
  else (st, .mismatch cur)

end Storage

/-! ## Sequences of calls -/

/-- The version that a caller expects. -/
inductive Expected where
  | zero
  /-- The version that was returned as the `i`-th. -/
  | returned (i : Nat)

def Expected.resolve (returned : List UInt64) : Expected → UInt64
  | .zero => 0
  | .returned i => returned.getD i 0

inductive Request where
  | get
  /-- The deadline is zero if the value does not expire. -/
  | put (value : List UInt8) (deadline : Int64) (expected : Expected)
  | delete (expected : Expected)

/-- A call, with what its environment chooses. -/
structure Call where
  key : String
  request : Request
  now : Int64
  stamp : UInt64
  path : String
  checksum : UInt32

/-- One side, with the versions and answers it has returned. -/
structure Session (σ : Type) where
  state : σ
  returned : List UInt64
  answers : List Answer

/-- A session goes on with a new state and an answer. -/
def Session.answer {σ : Type} (s : Session σ) (r : σ × Answer) : Session σ :=
  ⟨r.1, s.returned ++ r.2.version.toList, s.answers ++ [r.2]⟩

/-- The call on the in-memory cache. -/
def Call.onCache (c : Call) (m : Cache) (returned : List UInt64) : Cache × Answer :=
  match c.request with
  | .get => m.getWithVersion c.now c.key
  | .put value deadline expected =>
    m.putIfVersion c.now c.key value deadline (expected.resolve returned)
  | .delete expected => m.deleteIfVersion c.now c.key (expected.resolve returned)

/-- The call on the store. -/
def Call.onStorage (cfg : Store.Config) (c : Call) (st : Storage) (returned : List UInt64) :
    Storage × Answer :=
  match c.request with
  | .get => st.getWithVersion c.now c.key c.stamp
  | .put value deadline expected =>
    st.putIfVersion c.now c.key c.stamp cfg value deadline (expected.resolve returned) c.path c.checksum
  | .delete expected => st.deleteIfVersion c.now c.key c.stamp (expected.resolve returned)

def cacheStep (s : Session Cache) (c : Call) : Session Cache :=
  s.answer (c.onCache s.state s.returned)

def storageStep (cfg : Store.Config) (s : Session Storage) (c : Call) : Session Storage :=
  s.answer (c.onStorage cfg s.state s.returned)

/-- What the environment of the store guarantees. `nextVersion` issues a stamp above all earlier
ones. The name of a raw file is a new one and not empty. The deadline of a value is in the future of
a clock that is past 1970, so it is not the mark of a tombstone. -/
def Call.granted (c : Call) (st : Storage) : Bool :=
  decide (st.lastStamp < c.stamp) &&
    match c.request with
    | .put _ deadline _ =>
      decide ((deadline = 0 ∨ tombstoneExpiry < deadline) ∧ st.files c.path = none ∧ c.path ≠ "")
    | _ => true

end OCache.MemoryCache
