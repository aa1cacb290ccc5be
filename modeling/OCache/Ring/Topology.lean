import OCache.Lib.Decimal
import Mathlib.Data.List.AList
import Mathlib.Data.List.Sort

/-!
# Ring descriptors and topologies

The members of a cluster gossip a ring descriptor: for every node its state, its address and its
tokens. A server summarises the descriptor in an epoch, the hash of a canonical string, and answers
topology requests with the epoch, the nodes and the tokens of the active ones. A client installs
such an answer as a token ring, unless its epoch is the one the client already has.

All instances are healthy. Node IDs and keys are byte strings, as in Go; `sort.Strings` orders them
by their bytes.
-/

namespace OCache.Ring

open Decimal

/-! ## Node IDs -/

/-- A node ID, as bytes. -/
abbrev NodeID := List UInt8

/-- Why a node ID is rejected. -/
inductive NodeIDError where
  | required
  | tooLong
  | control (position : Nat)
  | whitespace (position : Nat)

def maxNodeIDLength : Nat := 256

/-- The check of one character. Only characters of one byte can fail it. -/
def checkCharacter (i : Nat) (b : UInt8) : Option NodeIDError :=
  if b < 32 ∨ b = 127 then some (.control i)
  else if b = 9 ∨ b = 10 ∨ b = 13 then some (.whitespace i)
  else none

variable (id : NodeID)

/-- `validateNodeID` -/
def validateNodeID : Option NodeIDError :=
  if id = [] then some .required
  else if maxNodeIDLength < id.length then some .tooLong
  else id.zipIdx.findSome? fun (b, i) => checkCharacter i b

/-! ## Descriptors -/

/-- The state of an instance. -/
inductive InstanceState where
  | active
  | leaving
  | pending
  | joining
  | left
deriving DecidableEq

/-- The number of a state. -/
def InstanceState.number : InstanceState → Int
  | .active => 0
  | .leaving => 1
  | .pending => 2
  | .joining => 3
  | .left => 4

lemma InstanceState.number_injective : Function.Injective InstanceState.number := by
  intro a b h
  cases a <;> cases b <;> simp_all [InstanceState.number]

/-- What the descriptor says about a node. -/
structure InstanceDesc where
  addr : String
  state : InstanceState
  tokens : List UInt32
deriving DecidableEq

/-- A ring descriptor. -/
structure Desc where
  ingesters : AList fun _ : NodeID => InstanceDesc

def Desc.empty : Desc := ⟨∅⟩

variable (d : Desc)

def Desc.lookup (id : NodeID) : Option InstanceDesc := d.ingesters.lookup id

/-! ## Epochs -/

/-- FNV-64a -/
def sum64a (bs : List UInt8) : UInt64 :=
  bs.foldl (fun h b => (h ^^^ b.toUInt64) * 1099511628211) 14695981039346656037

/-- FNV-32a -/
def sum32a (bs : List UInt8) : UInt32 :=
  bs.foldl (fun h b => (h ^^^ b.toUInt32) * 16777619) 2166136261

/-- A node in the canonical string: the ID, the state and the number of tokens. -/
def canonicalBlock (inst : InstanceDesc) : List UInt8 :=
  id ++ 58 :: (itoa inst.state.number ++ 58 :: (itoa inst.tokens.length ++ [59]))

/-- The IDs in the order of `sort.Strings`. -/
def Desc.sortedIDs : List NodeID := d.ingesters.keys.insertionSort (· ≤ ·)

/-- The canonical string of a descriptor. -/
def Desc.canonical : List UInt8 :=
  d.sortedIDs.flatMap fun id => (d.lookup id).elim [] (canonicalBlock id)

/-- `ComputeRingEpoch` -/
def computeRingEpoch : UInt64 :=
  if d.ingesters.keys = [] then 0 else sum64a d.canonical

/-! ## The answer of a server -/

/-- `NodeStatus` -/
inductive NodeStatus where
  | active
  | joining
  | leaving
  | down
deriving DecidableEq

/-- `instanceStateToNodeStatus` -/
def instanceStateToNodeStatus : InstanceState → NodeStatus
  | .active => .active
  | .joining | .pending => .joining
  | .leaving => .leaving
  | .left => .down

/-- `NodeInfo`, as far as a client reads it. -/
structure NodeInfo where
  id : NodeID
  listenAddress : String
  status : NodeStatus
deriving DecidableEq

/-- `instanceToNodeInfo` -/
def instanceToNodeInfo (inst : InstanceDesc) : NodeInfo :=
  ⟨id, inst.addr, instanceStateToNodeStatus inst.state⟩

/-- `GetAllNodes`. The ring has nodes of all states. -/
def getAllNodes : List NodeInfo :=
  d.ingesters.entries.map fun e => instanceToNodeInfo e.1 e.2

/-- `GetNodeTokens`: the tokens of active nodes. -/
def getNodeTokens : List (NodeID × List UInt32) :=
  (d.ingesters.entries.filter fun e => e.2.state = .active).map fun e => (e.1, e.2.tokens)

/-- `ClusterTopology` -/
structure ClusterTopology where
  epoch : UInt64
  nodes : List NodeInfo
  nodeTokens : List (NodeID × List UInt32)

/-- `GetClusterTopology`, if nothing changes while it runs. -/
def getClusterTopology : ClusterTopology :=
  ⟨computeRingEpoch d, getAllNodes d, getNodeTokens d⟩

/-! ## The client -/

/-- A token and its owner. -/
structure TokenEntry where
  token : UInt32
  nodeID : NodeID
deriving DecidableEq

/-- The state of a client's token ring. -/
structure RingState where
  /-- Sorted by token. -/
  tokens : List TokenEntry
  /-- The addresses of the nodes. -/
  nodes : AList fun _ : NodeID => String

/-- The addresses of active nodes; a node without one is skipped. -/
def nodeAddresses (nodes : List NodeInfo) : AList fun _ : NodeID => String :=
  nodes.foldl (fun m n =>
    if n.status = .active ∧ n.listenAddress ≠ "" then m.insert n.id n.listenAddress else m) ∅

/-- The tokens of active nodes. -/
def activeTokens (addresses : AList fun _ : NodeID => String)
    (nodeTokens : List (NodeID × List UInt32)) : AList fun _ : NodeID => List UInt32 :=
  nodeTokens.foldl (fun m nt =>
    if (addresses.lookup nt.1).isSome then m.insert nt.1 nt.2 else m) ∅

/-- `TokenRing.Update` -/
def RingState.update (nodeTokens : AList fun _ : NodeID => List UInt32)
    (nodeAddresses : AList fun _ : NodeID => String) : RingState where
  tokens := (nodeTokens.entries.flatMap fun e => e.2.map fun t => (⟨t, e.1⟩ : TokenEntry)).insertionSort
    fun a b => a.token ≤ b.token
  nodes := nodeAddresses

/-- The ring that a topology is turned into. -/
def install (t : ClusterTopology) : RingState :=
  let addresses := nodeAddresses t.nodes
  .update (activeTokens addresses t.nodeTokens) addresses

/-- A client: the epoch of its topology and the ring. -/
structure Client where
  topologyEpoch : UInt64
  ring : RingState

def Client.new : Client := ⟨0, ⟨[], ∅⟩⟩

/-- `UpdateTopology` -/
def updateTopology (c : Client) (t : ClusterTopology) : Client :=
  if c.topologyEpoch = t.epoch then c else ⟨t.epoch, install t⟩

/-! ## What a client installs -/

/-- A map that is filled from a list without repeated keys. -/
theorem lookup_foldl_insert {β κ ν : Type*} [DecidableEq κ] (key : β → κ) (val : β → ν)
    (keep : β → Bool) {l : List β} (h : (l.map key).Nodup) (m : AList fun _ : κ => ν) (k : κ)
    (v : ν) :
    (l.foldl (fun m b => if keep b then m.insert (key b) (val b) else m) m).lookup k = some v ↔
      (∃ b ∈ l, keep b = true ∧ key b = k ∧ val b = v) ∨
        ((∀ b ∈ l, keep b = true → key b ≠ k) ∧ m.lookup k = some v) := by
  induction l generalizing m with
  | nil => simp
  | cons b l ih =>
    rw [List.map_cons, List.nodup_cons] at h
    -- The key of the first element does not come again.
    have hfirst : ∀ b' ∈ l, key b' ≠ key b := fun b' hb' heq =>
      h.1 (heq ▸ List.mem_map_of_mem hb')
    rw [List.foldl_cons, ih h.2]
    by_cases hkeep : keep b = true
    · by_cases hk : key b = k
      · subst hk
        simp only [hkeep, if_true, AList.lookup_insert, List.mem_cons, exists_eq_or_imp,
          forall_eq_or_imp]
        have hnone : ¬∃ b' ∈ l, keep b' = true ∧ key b' = key b ∧ val b' = v :=
          fun ⟨b', hb', _, heq, _⟩ => hfirst b' hb' heq
        have hrest : ∀ b' ∈ l, keep b' = true → key b' ≠ key b := fun b' hb' _ => hfirst b' hb'
        simp [hnone, eq_true hrest]
      · have hne : k ≠ key b := fun heq => hk heq.symm
        simp [hkeep, hk, AList.lookup_insert_ne hne]
    · simp [hkeep]

lemma mem_entries {d : Desc} {e : Sigma fun _ : NodeID => InstanceDesc} :
    e ∈ d.ingesters.entries ↔ d.lookup e.1 = some e.2 :=
  (AList.mem_lookup_iff (s := d.ingesters) (a := e.1) (b := e.2)).symm

lemma instanceStateToNodeStatus_eq_active {state : InstanceState} :
    instanceStateToNodeStatus state = .active ↔ state = .active := by
  cases state <;> simp [instanceStateToNodeStatus]

/-- The address under which clients reach a node. -/
def Desc.route (id : NodeID) : Option String :=
  (d.lookup id).bind fun inst =>
    if inst.state = .active ∧ inst.addr ≠ "" then some inst.addr else none

lemma route_eq_some {d : Desc} {id : NodeID} {addr : String} :
    d.route id = some addr ↔
      ∃ inst, d.lookup id = some inst ∧ inst.state = .active ∧ inst.addr = addr ∧ addr ≠ "" := by
  simp only [Desc.route, Option.bind_eq_some_iff, Option.ite_none_right_eq_some, Option.some.injEq]
  constructor
  · rintro ⟨inst, hinst, ⟨hactive, hne⟩, rfl⟩
    exact ⟨inst, hinst, hactive, rfl, hne⟩
  · rintro ⟨inst, hinst, hactive, rfl, hne⟩
    exact ⟨inst, hinst, ⟨hactive, hne⟩, rfl⟩

lemma lookup_nodeAddresses (id : NodeID) :
    (nodeAddresses (getAllNodes d)).lookup id = d.route id := by
  refine Option.ext fun addr => ?_
  have hkeys : ((getAllNodes d).map NodeInfo.id).Nodup := by
    rw [getAllNodes, List.map_map]
    exact d.ingesters.nodupKeys
  have hfold := lookup_foldl_insert NodeInfo.id NodeInfo.listenAddress
    (fun n => n.status = .active ∧ n.listenAddress ≠ "") hkeys ∅ id addr
  simp only [decide_eq_true_eq] at hfold
  rw [nodeAddresses, hfold, route_eq_some]
  simp only [AList.lookup_empty, reduceCtorEq, and_false, or_false, getAllNodes, List.mem_map,
    exists_exists_and_eq_and, instanceToNodeInfo, instanceStateToNodeStatus_eq_active]
  constructor
  · rintro ⟨e, he, ⟨hactive, hne⟩, rfl, rfl⟩
    exact ⟨e.2, mem_entries.mp he, hactive, rfl, hne⟩
  · rintro ⟨inst, hinst, hactive, rfl, hne⟩
    exact ⟨⟨id, inst⟩, mem_entries.mpr hinst, ⟨hactive, hne⟩, rfl, rfl⟩

/-- The addresses of an installed ring. -/
theorem lookup_install_nodes (epoch : UInt64) (nodeTokens : List (NodeID × List UInt32))
    (id : NodeID) : (install ⟨epoch, getAllNodes d, nodeTokens⟩).nodes.lookup id = d.route id :=
  lookup_nodeAddresses d id

/-- The tokens of an installed ring, if nodes and tokens were read from two descriptors. -/
theorem mem_install_tokens (d₁ d₂ : Desc) (epoch : UInt64) (e : TokenEntry) :
    e ∈ (install ⟨epoch, getAllNodes d₁, getNodeTokens d₂⟩).tokens ↔
      (d₁.route e.nodeID).isSome ∧
        ∃ inst, d₂.lookup e.nodeID = some inst ∧ inst.state = .active ∧ e.token ∈ inst.tokens := by
  obtain ⟨token, id⟩ := e
  have hkeys : ((getNodeTokens d₂).map Prod.fst).Nodup := by
    rw [getNodeTokens, List.map_map]
    exact (List.filter_sublist.map _).nodup d₂.ingesters.nodupKeys
  -- The map of token lists has the active nodes of the second descriptor that the first has an
  -- address for.
  have hlookup : ∀ ts, (activeTokens (nodeAddresses (getAllNodes d₁)) (getNodeTokens d₂)).lookup id =
      some ts ↔ (d₁.route id).isSome ∧
        ∃ inst, d₂.lookup id = some inst ∧ inst.state = .active ∧ inst.tokens = ts := by
    intro ts
    have hfold := lookup_foldl_insert Prod.fst Prod.snd
      (fun nt : NodeID × List UInt32 => ((nodeAddresses (getAllNodes d₁)).lookup nt.1).isSome) hkeys
      ∅ id ts
    rw [activeTokens, hfold]
    simp only [AList.lookup_empty, reduceCtorEq, and_false, or_false, getNodeTokens, List.mem_map,
      List.mem_filter, decide_eq_true_eq, lookup_nodeAddresses, exists_exists_and_eq_and]
    constructor
    · rintro ⟨e, ⟨he, hactive⟩, hroute, rfl, rfl⟩
      exact ⟨hroute, e.2, mem_entries.mp he, hactive, rfl⟩
    · rintro ⟨hroute, inst, hinst, hactive, rfl⟩
      exact ⟨⟨id, inst⟩, ⟨mem_entries.mpr hinst, hactive⟩, hroute, rfl, rfl⟩
  -- Sorting does not change the entries.
  show _ ∈ List.insertionSort _ _ ↔ _
  rw [(List.perm_insertionSort _ _).mem_iff, List.mem_flatMap]
  constructor
  · rintro ⟨e, he, htoken⟩
    obtain ⟨t, ht, heq⟩ := List.mem_map.mp htoken
    obtain ⟨rfl, rfl⟩ : t = token ∧ e.1 = id := by simpa using heq
    obtain ⟨hroute, inst, hinst, hactive, htokens⟩ := (hlookup e.2).mp (AList.mem_lookup_iff.mpr he)
    exact ⟨hroute, inst, hinst, hactive, htokens ▸ ht⟩
  · rintro ⟨hroute, inst, hinst, hactive, ht⟩
    refine ⟨⟨id, inst.tokens⟩, ?_, List.mem_map_of_mem ht⟩
    exact AList.mem_lookup_iff.mp ((hlookup inst.tokens).mpr ⟨hroute, inst, hinst, hactive, rfl⟩)

end OCache.Ring
