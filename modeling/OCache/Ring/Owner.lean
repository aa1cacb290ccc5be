import OCache.Lib.SortedSearch
import OCache.Ring.Topology

/-!
# The owner of a key

Client and server look a key up in the same ring with searches of their own. The client takes the
first token that is not below the hash of the key, dskit's `ring.Get` the first token above it. They
differ if the hash is itself a token: the client stays with the owner of that token, the server goes
on to the next one.

Replication factor 1, healthy nodes only. `ring.Get` is modelled for rings whose nodes are all
active; it does not skip anything there.
-/

namespace OCache.Ring

open SortedSearch

/-! ## The client -/

/-- Why a client finds no node. -/
inductive LookupError where
  | empty
  | notFound (id : NodeID)
deriving DecidableEq

/-- The first token that is not below `token`, past the last one the first. -/
def RingState.find (r : RingState) (token : UInt32) : Option TokenEntry :=
  wrapped (fun e => decide (token ≤ e.token)) r.tokens

/-- `GetNodeIDForKey` -/
def getNodeIDForKey (r : RingState) (key : List UInt8) : Except LookupError NodeID :=
  match r.find (sum32a key) with
  | none => .error .empty
  | some e => .ok e.nodeID

/-- `GetNodeForKey` -/
def getNodeForKey (r : RingState) (key : List UInt8) : Except LookupError String :=
  match r.find (sum32a key) with
  | none => .error .empty
  | some e =>
    match r.nodes.lookup e.nodeID with
    | none => .error (.notFound e.nodeID)
    | some addr => .ok addr

/-! ## The server -/

/-- `tokenForKey` -/
def tokenForKey (key : List UInt8) : UInt32 := sum32a key

/-- The sorted tokens of a ring. -/
def Desc.ringTokens (d : Desc) : List TokenEntry :=
  (d.ingesters.entries.flatMap fun e => e.2.tokens.map fun t => (⟨t, e.1⟩ : TokenEntry)).insertionSort
    fun a b => a.token ≤ b.token

/-- dskit's `ring.Get`: the owner of the first token above `token`, past the last one of the
first. -/
def ringGet (d : Desc) (token : UInt32) : Option NodeID :=
  (wrapped (fun e => decide (token < e.token)) d.ringTokens).map TokenEntry.nodeID

/-- `IsLocal` -/
def isLocal (d : Desc) (localNodeID : NodeID) (key : List UInt8) : Bool :=
  ringGet d (tokenForKey key) = some localNodeID

/-- Why a server finds no node. -/
inductive GetNodeError where
  /-- `ring.Get` fails, the ring is empty. -/
  | get
  | noAddress (id : NodeID)
deriving DecidableEq

/-- `GetNode` -/
def getNode (d : Desc) (key : List UInt8) : Except GetNodeError NodeInfo :=
  match ringGet d (tokenForKey key) with
  | none => .error .get
  | some id =>
    match d.lookup id with
    | none => .error .get
    | some inst =>
      if inst.addr = "" then .error (.noAddress id) else .ok (instanceToNodeInfo id inst)

/-! ## Tokens of a ring -/

/-- Every node is active. -/
def Desc.AllActive (d : Desc) : Prop := ∀ id inst, d.lookup id = some inst → inst.state = .active

/-- The node has the token. -/
def Desc.HasToken (d : Desc) (id : NodeID) (t : UInt32) : Prop :=
  ∃ inst, d.lookup id = some inst ∧ t ∈ inst.tokens

/-- The node has an address. -/
def Desc.HasAddress (d : Desc) (id : NodeID) : Prop := ∃ inst, d.lookup id = some inst ∧ inst.addr ≠ ""

/-- No two nodes share a token. -/
def Desc.DistinctTokens (d : Desc) : Prop :=
  ∀ id₁ id₂ t, d.HasToken id₁ t → d.HasToken id₂ t → id₁ = id₂

variable {d : Desc}

instance : Std.Total fun a b : TokenEntry => a.token ≤ b.token :=
  ⟨fun a b => UInt32.le_total a.token b.token⟩

instance : IsTrans TokenEntry fun a b => a.token ≤ b.token := ⟨fun _ _ _ => UInt32.le_trans⟩

/-- The position of a token on the ring. -/
def TokenEntry.position (e : TokenEntry) : Nat := e.token.toNat

variable {e : TokenEntry} {token : UInt32} {id : NodeID}

/-- The ring has the tokens of all nodes. -/
theorem mem_ringTokens : e ∈ d.ringTokens ↔ d.HasToken e.nodeID e.token := by
  obtain ⟨token, id⟩ := e
  rw [Desc.ringTokens, (List.perm_insertionSort _ _).mem_iff, List.mem_flatMap]
  constructor
  · rintro ⟨e, he, htoken⟩
    obtain ⟨t, ht, heq⟩ := List.mem_map.mp htoken
    obtain ⟨rfl, rfl⟩ : t = token ∧ e.1 = id := by simpa using heq
    exact ⟨e.2, mem_entries.mp he, ht⟩
  · rintro ⟨inst, hinst, ht⟩
    exact ⟨⟨id, inst⟩, mem_entries.mpr hinst, List.mem_map_of_mem ht⟩

lemma sorted_ringTokens (d : Desc) : d.ringTokens.Pairwise fun a b => a.position ≤ b.position :=
  (List.pairwise_insertionSort _ _).imp UInt32.le_iff_toNat_le.mp

lemma sorted_install (t : ClusterTopology) :
    (install t).tokens.Pairwise fun a b => a.position ≤ b.position :=
  (List.pairwise_insertionSort _ _).imp UInt32.le_iff_toNat_le.mp

variable {b : TokenEntry} {a x t : UInt32} {key : List UInt8}

/-- Both searches look for a position from which on their condition holds. -/
theorem le_token_mono {a : TokenEntry} (hab : a.position ≤ b.position)
    (ha : decide (token ≤ a.token) = true) : decide (token ≤ b.token) = true :=
  decide_eq_true (UInt32.le_trans (of_decide_eq_true ha) (UInt32.le_iff_toNat_le.mpr hab))

lemma lt_token_mono {a : TokenEntry} (hab : a.position ≤ b.position)
    (ha : decide (token < a.token) = true) : decide (token < b.token) = true :=
  decide_eq_true (UInt32.lt_of_lt_of_le (of_decide_eq_true ha) (UInt32.le_iff_toNat_le.mpr hab))

/-- If all nodes are active, the client has the tokens of those with an address. -/
theorem mem_install_iff (hd : d.AllActive) :
    e ∈ (install (getClusterTopology d)).tokens ↔ d.HasToken e.nodeID e.token ∧ d.HasAddress e.nodeID := by
  rw [getClusterTopology, mem_install_tokens]
  constructor
  · rintro ⟨hroute, inst, hinst, -, ht⟩
    obtain ⟨addr, haddr⟩ := Option.isSome_iff_exists.mp hroute
    obtain ⟨inst', hinst', -, rfl, hne⟩ := route_eq_some.mp haddr
    exact ⟨⟨inst, hinst, ht⟩, inst', hinst', hne⟩
  · rintro ⟨⟨inst, hinst, ht⟩, inst', hinst', hne⟩
    have hroute := route_eq_some.mpr ⟨inst', hinst', hd _ _ hinst', rfl, hne⟩
    exact ⟨by rw [hroute]; rfl, inst, hinst, hd _ _ hinst, ht⟩

/-- Among the tokens of a list, the entry's comes first on the way up from `x` and around. -/
def Nearest (l : List TokenEntry) (x : UInt32) (e : TokenEntry) : Prop :=
  e ∈ l ∧ ∀ e' ∈ l, e.token - x ≤ e'.token - x

/-- Points from `x` on come before those below it, and otherwise in their order. -/
theorem sub_le_sub_of {b : UInt32} (hfrom : x ≤ b → x ≤ a) (hle : (x ≤ a ↔ x ≤ b) → a ≤ b) :
    a - x ≤ b - x := by
  simp only [UInt32.le_iff_toNat_le, UInt32.toNat_sub] at *
  have ha := a.toNat_lt
  have hb := b.toNat_lt
  have hx := x.toNat_lt
  omega

/-- The client's search. -/
theorem nearest_find {t : ClusterTopology} (h : (install t).find token = some e) :
    Nearest (install t).tokens token e := by
  obtain ⟨hmem, hall⟩ := wrapped_eq_some (sorted_install t) (fun _ _ => le_token_mono) h
  refine ⟨hmem, fun e' he' => ?_⟩
  obtain ⟨hfrom, hle⟩ := hall e' he'
  simp only [decide_eq_true_eq, decide_eq_decide] at hfrom hle
  exact sub_le_sub_of hfrom fun h => UInt32.le_iff_toNat_le.mpr (hle h)

/-- The server's search: strictly above a token is from the next number on. -/
theorem nearest_ringGet (h : wrapped (fun e => decide (token < e.token)) d.ringTokens = some e) :
    Nearest d.ringTokens (token + 1) e := by
  obtain ⟨hmem, hall⟩ := wrapped_eq_some (sorted_ringTokens d) (fun _ _ => lt_token_mono) h
  refine ⟨hmem, fun e' he' => ?_⟩
  obtain ⟨hfrom, hle⟩ := hall e' he'
  simp only [decide_eq_true_eq, decide_eq_decide, UInt32.lt_iff_toNat_lt] at hfrom hle
  refine sub_le_sub_of ?_ ?_
  all_goals
    simp only [UInt32.le_iff_toNat_le, UInt32.toNat_add, TokenEntry.position] at *
    have ha := e.token.toNat_lt
    have hb := e'.token.toNat_lt
    have ht := token.toNat_lt
    have hone : (1 : UInt32).toNat = 1 := rfl
    omega

/-! ## Agreement -/

/-- The owner that a client finds. -/
def RingState.owner (r : RingState) (token : UInt32) : Option NodeID :=
  (r.find token).map TokenEntry.nodeID

lemma getNodeIDForKey_eq_ok {r : RingState} :
    getNodeIDForKey r key = .ok id ↔ r.owner (tokenForKey key) = some id := by
  unfold getNodeIDForKey RingState.owner tokenForKey
  cases r.find (sum32a key) <;> simp

/-- A client has the address of every node that its tokens lead to. -/
theorem getNodeForKey_ne_notFound (key : List UInt8) (id : NodeID) :
    getNodeForKey (install (getClusterTopology d)) key ≠ .error (.notFound id) := by
  unfold getNodeForKey
  cases he : (install (getClusterTopology d)).find (sum32a key) with
  | none => simp
  | some e =>
    -- Tokens are installed only for nodes with an address.
    obtain ⟨hroute, -⟩ := (mem_install_tokens d d (computeRingEpoch d) e).mp (List.mem_of_getElem? he)
    obtain ⟨addr, haddr⟩ := Option.isSome_iff_exists.mp hroute
    have hlookup : (install (getClusterTopology d)).nodes.lookup e.nodeID = some addr :=
      (lookup_install_nodes d _ _ _).trans haddr
    simp [hlookup]

lemma lookup_of_ringGet (h : ringGet d token = some id) : ∃ inst, d.lookup id = some inst := by
  obtain ⟨e, he, rfl⟩ := Option.map_eq_some_iff.mp h
  obtain ⟨inst, hinst, -⟩ := mem_ringTokens.mp (List.mem_of_getElem? he)
  exact ⟨inst, hinst⟩

/-- `GetNode` returns the node that `ring.Get` finds, if it has an address. -/
theorem getNode_ok_iff :
    (∃ n, getNode d key = .ok n ∧ n.id = id) ↔
      ringGet d (tokenForKey key) = some id ∧ d.HasAddress id := by
  unfold getNode
  cases hget : ringGet d (tokenForKey key) with
  | none => simp
  | some id' =>
    obtain ⟨inst, hinst⟩ := lookup_of_ringGet hget
    simp only [hinst, Option.some.injEq]
    split
    · rename_i haddr
      refine ⟨by simp, ?_⟩
      rintro ⟨rfl, inst', hinst', hne⟩
      obtain rfl := Option.some.inj (hinst.symm.trans hinst')
      exact absurd haddr hne
    · rename_i haddr
      constructor
      · rintro ⟨n, hn, rfl⟩
        obtain rfl := Except.ok.inj hn
        exact ⟨rfl, inst, hinst, haddr⟩
      · rintro ⟨rfl, -⟩
        exact ⟨_, rfl, rfl⟩

/-- A node with an address has the first token above `h`, and `h` is no token of another node with
an address; or the ring has no tokens. -/
def Desc.Agreed (d : Desc) (h : UInt32) : Prop :=
  (∀ id t, ¬d.HasToken id t) ∨
    ∃ id t, d.HasToken id t ∧ d.HasAddress id ∧ ∀ id' t', id' ≠ id → d.HasToken id' t' →
      t - (h + 1) ≤ t' - (h + 1) ∧ (d.HasAddress id' → t' ≠ h)

/-- On the way up from `h` and around, a point other than `h` is one further than on the way from
`h + 1`. -/
theorem toNat_sub_succ {h : UInt32} (hne : a ≠ h) : (a - h).toNat = (a - (h + 1)).toNat + 1 := by
  have hne : a.toNat ≠ h.toNat := fun heq => hne (UInt32.toNat_inj.mp heq)
  have ha := a.toNat_lt
  have hh := h.toNat_lt
  have hone : (1 : UInt32).toNat = 1 := rfl
  simp only [UInt32.toNat_sub, UInt32.toNat_add] at *
  omega

/-- Distances from a point tell points apart. -/
theorem eq_of_sub_le_sub {b : UInt32} (h : a - x ≤ b - x) (h' : b - x ≤ a - x) : a = b :=
  sub_left_injective (UInt32.le_antisymm h h')

/-- The server finds the node of the first token above the hash. -/
theorem ringGet_of_agreed (hdistinct : d.DistinctTokens) (ht : d.HasToken id t)
    (hfirst : ∀ id' t', id' ≠ id → d.HasToken id' t' → t - (token + 1) ≤ t' - (token + 1)) :
    ringGet d token = some id := by
  unfold ringGet
  cases hget : wrapped (fun e => decide (token < e.token)) d.ringTokens with
  | none =>
    have hnil := (wrapped_eq_none ((sorted_ringTokens d).imp lt_token_mono)).mp hget
    have := mem_ringTokens (e := ⟨t, id⟩).mpr ht
    simp [hnil] at this
  | some e =>
    obtain ⟨he, hnearest⟩ := nearest_ringGet hget
    have htoken := mem_ringTokens.mp he
    by_cases hid : e.nodeID = id
    · simp [hid]
    · have heq := eq_of_sub_le_sub (hfirst _ _ hid htoken) (hnearest ⟨t, id⟩ (mem_ringTokens.mpr ht))
      exact absurd (hdistinct _ _ _ htoken (heq ▸ ht)) hid

/-- The client finds the same node. -/
theorem owner_of_agreed (hd : d.AllActive) (hdistinct : d.DistinctTokens) (ht : d.HasToken id t)
    (haddr : d.HasAddress id) (hfirst : ∀ id' t', id' ≠ id → d.HasToken id' t' →
      t - (token + 1) ≤ t' - (token + 1) ∧ (d.HasAddress id' → t' ≠ token)) :
    (install (getClusterTopology d)).owner token = some id := by
  have hmem : (⟨t, id⟩ : TokenEntry) ∈ (install (getClusterTopology d)).tokens :=
    (mem_install_iff hd).mpr ⟨ht, haddr⟩
  unfold RingState.owner
  cases hfind : (install (getClusterTopology d)).find token with
  | none =>
    have hnil := (wrapped_eq_none ((sorted_install _).imp le_token_mono)).mp hfind
    simp [hnil] at hmem
  | some e =>
    obtain ⟨he, hnearest⟩ := nearest_find hfind
    obtain ⟨htoken, haddr'⟩ := (mem_install_iff hd).mp he
    by_cases hid : e.nodeID = id
    · simp [hid]
    · -- Neither token is the hash, so both searches measure the same distances.
      obtain ⟨hle, hne⟩ := hfirst _ _ hid htoken
      have hne := hne haddr'
      have hnearest := hnearest _ hmem
      have hne' : t ≠ token := by
        rintro rfl
        have hzero : (t - t).toNat = 0 := by simp
        rw [UInt32.le_iff_toNat_le, hzero, toNat_sub_succ hne] at hnearest
        omega
      rw [UInt32.le_iff_toNat_le, toNat_sub_succ hne, toNat_sub_succ hne'] at hnearest
      have heq := eq_of_sub_le_sub hle (UInt32.le_iff_toNat_le.mpr (by omega))
      exact absurd (hdistinct _ _ _ htoken (heq ▸ ht)) hid

/-- Both searches find the same node in exactly these rings. -/
theorem owner_eq_iff (hd : d.AllActive) (hdistinct : d.DistinctTokens) (token : UInt32) :
    (install (getClusterTopology d)).owner token = ringGet d token ↔ d.Agreed token := by
  constructor
  · intro heq
    unfold RingState.owner ringGet at heq
    cases hget : wrapped (fun e => decide (token < e.token)) d.ringTokens with
    | none =>
      refine .inl fun id t ht => ?_
      have hnil := (wrapped_eq_none ((sorted_ringTokens d).imp lt_token_mono)).mp hget
      have := mem_ringTokens (e := ⟨t, id⟩).mpr ht
      simp [hnil] at this
    | some e =>
      rw [hget] at heq
      obtain ⟨c, hfind, hid⟩ := Option.map_eq_some_iff.mp heq
      obtain ⟨he, hnearest⟩ := nearest_ringGet hget
      obtain ⟨hc, hnearest'⟩ := nearest_find hfind
      obtain ⟨hctoken, hcaddr⟩ := (mem_install_iff hd).mp hc
      refine .inr ⟨e.nodeID, e.token, mem_ringTokens.mp he, hid ▸ hcaddr, fun id' t' hne ht' =>
        ⟨hnearest ⟨t', id'⟩ (mem_ringTokens.mpr ht'), ?_⟩⟩
      -- A token that is the hash would be the client's.
      rintro haddr rfl
      have hle := hnearest' ⟨t', id'⟩ ((mem_install_iff hd).mpr ⟨ht', haddr⟩)
      have hctoken' : c.token = t' := by
        refine eq_of_sub_le_sub hle ?_
        rw [UInt32.le_iff_toNat_le, show (t' - t').toNat = 0 by simp]
        exact Nat.zero_le _
      exact hne (hdistinct _ _ _ ht' (hid ▸ hctoken' ▸ hctoken))
  · rintro (hnone | ⟨id, t, ht, haddr, hfirst⟩)
    · have hserver : d.ringTokens = [] := List.eq_nil_iff_forall_not_mem.mpr fun e he =>
        hnone _ _ (mem_ringTokens.mp he)
      have hclient : (install (getClusterTopology d)).tokens = [] :=
        List.eq_nil_iff_forall_not_mem.mpr fun e he => hnone _ _ ((mem_install_iff hd).mp he).1
      simp [RingState.owner, RingState.find, ringGet, hserver, hclient, wrapped]
    · rw [owner_of_agreed hd hdistinct ht haddr hfirst,
        ringGet_of_agreed hdistinct ht fun id' t' hne ht' => (hfirst id' t' hne ht').1]

/-- In every ring of active nodes with distinct tokens, and for every key: the node that a client
finds is the one `GetNode` returns and the only one whose `IsLocal` holds, if and only if a node
with an address has the first token above the hash of the key and no other node with an address has
the hash as a token, or there are no tokens. -/
theorem owner_agrees_iff (hd : d.AllActive) (hdistinct : d.DistinctTokens) (key : List UInt8) :
    (∀ id, (getNodeIDForKey (install (getClusterTopology d)) key = .ok id ↔
        ∃ n, getNode d key = .ok n ∧ n.id = id) ∧
      (isLocal d id key = true ↔
        getNodeIDForKey (install (getClusterTopology d)) key = .ok id)) ↔
      d.Agreed (tokenForKey key) := by
  rw [← owner_eq_iff hd hdistinct]
  simp only [getNodeIDForKey_eq_ok, getNode_ok_iff, isLocal, decide_eq_true_eq]
  constructor
  · exact fun h => Option.ext fun id => (h id).2.symm
  · intro h id
    rw [h]
    refine ⟨⟨fun hid => ⟨hid, ?_⟩, And.left⟩, Iff.rfl⟩
    -- A client has tokens of nodes with an address only.
    obtain ⟨e, he, rfl⟩ := Option.map_eq_some_iff.mp (h.trans hid)
    exact ((mem_install_iff hd).mp (nearest_find he).1).2

/-! ## Two nodes -/

/-- The nodes `m` and `n`. The hash of the key `a` is 3826002220. -/
def twoOwners (token : UInt32) (addr : String) : Desc :=
  ⟨((∅ : AList fun _ : NodeID => InstanceDesc).insert [109] ⟨"10.0.0.1:1", .active, [token]⟩).insert [110]
    ⟨addr, .active, [7]⟩⟩

/-- The hash of `a` is a token of `m`. The client sends the key to `m`, the server takes `n` for the
owner. -/
theorem owners_differ :
    getNodeIDForKey (install (getClusterTopology (twoOwners 3826002220 "10.0.0.2:1"))) [97] =
        .ok [109] ∧
      getNode (twoOwners 3826002220 "10.0.0.2:1") [97] = .ok ⟨[110], "10.0.0.2:1", .active⟩ ∧
      isLocal (twoOwners 3826002220 "10.0.0.2:1") [109] [97] = false ∧
      isLocal (twoOwners 3826002220 "10.0.0.2:1") [110] [97] = true := by
  decide +kernel

lemma lookup_twoOwners {addr : String} {inst : InstanceDesc}
    (h : (twoOwners token addr).lookup id = some inst) :
    (id = [110] ∧ inst = ⟨addr, .active, [7]⟩) ∨
      (id = [109] ∧ inst = ⟨"10.0.0.1:1", .active, [token]⟩) := by
  by_cases hn : id = [110]
  · subst hn
    rw [Desc.lookup, twoOwners, AList.lookup_insert] at h
    exact .inl ⟨rfl, (Option.some.inj h).symm⟩
  · rw [Desc.lookup, twoOwners, AList.lookup_insert_ne hn] at h
    by_cases hm : id = [109]
    · subst hm
      rw [AList.lookup_insert] at h
      exact .inr ⟨rfl, (Option.some.inj h).symm⟩
    · rw [AList.lookup_insert_ne hm] at h
      simp at h

/-- `m` has a token behind the hash of `a`, and `n` has no address. -/
theorem owner_agrees_iff_noAddress :
    getNodeIDForKey (install (getClusterTopology (twoOwners 4000000000 ""))) [97] = .ok [109] ∧
      ∀ id, (getNodeIDForKey (install (getClusterTopology (twoOwners 4000000000 ""))) [97] = .ok id ↔
          ∃ n, getNode (twoOwners 4000000000 "") [97] = .ok n ∧ n.id = id) ∧
        (isLocal (twoOwners 4000000000 "") id [97] = true ↔
          getNodeIDForKey (install (getClusterTopology (twoOwners 4000000000 ""))) [97] =
            .ok id) := by
  have hm : (twoOwners 4000000000 "").lookup [109] = some ⟨"10.0.0.1:1", .active, [4000000000]⟩ := by
    decide +kernel
  refine ⟨by decide +kernel,
    (owner_agrees_iff (fun id inst h => ?_) (fun id₁ id₂ t h₁ h₂ => ?_) [97]).mpr (.inr
      ⟨[109], 4000000000, ⟨_, hm, by simp⟩, ⟨_, hm, by decide⟩, fun id t hne ht => ?_⟩)⟩
  · rcases lookup_twoOwners h with ⟨-, rfl⟩ | ⟨-, rfl⟩
    · rfl
    · rfl
  · obtain ⟨a, ha, hta⟩ := h₁
    obtain ⟨b, hb, htb⟩ := h₂
    rcases lookup_twoOwners ha with ⟨rfl, rfl⟩ | ⟨rfl, rfl⟩ <;>
      rcases lookup_twoOwners hb with ⟨rfl, rfl⟩ | ⟨rfl, rfl⟩ <;> simp_all
  · obtain ⟨inst, hinst, ht⟩ := ht
    rcases lookup_twoOwners hinst with ⟨-, rfl⟩ | ⟨rfl, -⟩
    · rw [List.mem_singleton.mp ht]
      exact ⟨by decide +kernel, fun _ => by decide +kernel⟩
    · exact absurd rfl hne

end OCache.Ring
