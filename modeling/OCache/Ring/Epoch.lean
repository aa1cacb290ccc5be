import OCache.Ring.Topology

/-!
# What an epoch says about routing

A client does not install an answer with the epoch it has, because the same epoch is taken to mean
the same ring. The canonical string has the ID, the state and the number of tokens of every node. It
says nothing about addresses and which tokens a node has, and a node ID may contain the bytes that
separate the fields of a node and the nodes.

If no ID contains the byte that ends a node, the string determines IDs, states and numbers of
tokens, and only addresses and tokens of active nodes may change behind it. With other IDs nodes can
come and go as well.
-/

namespace OCache.Ring

open Decimal

/-- The same token-to-node map and the same node-to-address map. -/
structure SameRouting (r₁ r₂ : RingState) : Prop where
  tokens : ∀ e, e ∈ r₁.tokens ↔ e ∈ r₂.tokens
  nodes : ∀ id, r₁.nodes.lookup id = r₂.nodes.lookup id

/-- No ID contains the semicolon that ends a node of the canonical string. -/
def Desc.Separable (d : Desc) : Prop := ∀ id ∈ d.ingesters.keys, (59 : UInt8) ∉ id

/-! ## The canonical string -/

/-- What the canonical string has of a node. -/
structure Block where
  id : NodeID
  state : Int
  tokens : Nat

/-- A node without the byte that ends it. -/
def Block.body (b : Block) : List UInt8 := b.id ++ 58 :: (itoa b.state ++ 58 :: itoa b.tokens)

def Block.bytes (b : Block) : List UInt8 := b.body ++ [59]

/-- The nodes of a descriptor in the order of the canonical string. -/
def Desc.blocks (d : Desc) : List Block :=
  d.sortedIDs.flatMap fun id =>
    (d.lookup id).toList.map fun inst => ⟨id, inst.state.number, inst.tokens.length⟩

lemma canonical_eq_flatMap (d : Desc) : d.canonical = d.blocks.flatMap Block.bytes := by
  rw [Desc.canonical, Desc.blocks, List.flatMap_assoc]
  congr 1
  funext id
  cases d.lookup id with
  | none => rfl
  | some inst => simp [canonicalBlock, Block.bytes, Block.body]

/-- Numbers contain neither separator. -/
theorem notMem_itoa (t : Int) : (58 : UInt8) ∉ itoa t ∧ (59 : UInt8) ∉ itoa t := by
  constructor
  all_goals
    intro h
    rcases mem_itoa h with h | h <;> exact absurd h (by decide)

/-- A separator that is in neither of two fields ends both. -/
theorem eq_of_append_cons_eq {α : Type*} {c : α} {x y u v : List α} (hx : c ∉ x) (hy : c ∉ y)
    (h : x ++ c :: u = y ++ c :: v) : x = y ∧ u = v := by
  induction x generalizing y with
  | nil =>
    cases y with
    | nil => exact ⟨rfl, (List.cons.inj h).2⟩
    | cons b y => exact absurd ((List.cons.inj h).1 ▸ List.mem_cons_self) hy
  | cons a x ih =>
    cases y with
    | nil => exact absurd ((List.cons.inj h).1 ▸ List.mem_cons_self) hx
    | cons b y =>
      obtain ⟨rfl, hrest⟩ := List.cons.inj h
      obtain ⟨rfl, huv⟩ := ih (fun hc => hx (by simp [hc])) (fun hc => hy (by simp [hc])) hrest
      exact ⟨rfl, huv⟩

/-- The last two colons of a node end its ID and its state. -/
theorem Block.body_injective : Function.Injective Block.body := by
  rintro ⟨id, state, tokens⟩ ⟨id', state', tokens'⟩ h
  have hreverse := congrArg List.reverse h
  have hnone : ∀ t : Int, (58 : UInt8) ∉ (itoa t).reverse := fun t => by
    simpa using (notMem_itoa t).1
  simp only [Block.body, List.reverse_append, List.reverse_cons, List.append_assoc,
    List.cons_append] at hreverse
  obtain ⟨htokens, hrest⟩ := eq_of_append_cons_eq (hnone _) (hnone _) hreverse
  obtain ⟨hstate, hid⟩ := eq_of_append_cons_eq (hnone _) (hnone _) hrest
  have htokens' := itoa_injective (List.reverse_injective htokens)
  have hstate' := itoa_injective (List.reverse_injective hstate)
  have hid' := List.reverse_injective hid
  simp_all

variable {b : Block} {id : NodeID} {inst : InstanceDesc}

lemma Block.notMem_body (h : (59 : UInt8) ∉ b.id) : (59 : UInt8) ∉ b.body := by
  simp [Block.body, h, (notMem_itoa b.state).2, (notMem_itoa (b.tokens : Int)).2]

/-- Nodes can be read back one by one. -/
theorem flatMap_bytes_injective {bs bs' : List Block} (h : ∀ b ∈ bs, (59 : UInt8) ∉ b.id)
    (h' : ∀ b ∈ bs', (59 : UInt8) ∉ b.id) (heq : bs.flatMap Block.bytes = bs'.flatMap Block.bytes) :
    bs = bs' := by
  induction bs generalizing bs' with
  | nil =>
    cases bs' with
    | nil => rfl
    | cons b' bs' => simp [Block.bytes] at heq
  | cons b bs ih =>
    cases bs' with
    | nil => simp [Block.bytes] at heq
    | cons b' bs' =>
      simp only [List.flatMap_cons, Block.bytes, List.append_assoc, List.singleton_append] at heq
      obtain ⟨hbody, hrest⟩ := eq_of_append_cons_eq (Block.notMem_body (h b (by simp)))
        (Block.notMem_body (h' b' (by simp))) heq
      rw [Block.body_injective hbody,
        ih (fun b hb => h b (by simp [hb])) (fun b hb => h' b (by simp [hb])) hrest]

lemma mem_blocks {d : Desc} :
    b ∈ d.blocks ↔ ∃ inst, d.lookup b.id = some inst ∧ b.state = inst.state.number ∧
      b.tokens = inst.tokens.length := by
  have hsorted : ∀ id, id ∈ d.sortedIDs ↔ (d.lookup id).isSome := by
    intro id
    rw [Desc.sortedIDs, (List.perm_insertionSort _ _).mem_iff, ← AList.mem_keys,
      ← AList.lookup_isSome, Desc.lookup]
  simp only [Desc.blocks, List.mem_flatMap, List.mem_map, Option.mem_toList, hsorted]
  constructor
  · rintro ⟨id, -, inst, hinst, rfl⟩
    exact ⟨inst, hinst, rfl, rfl⟩
  · rintro ⟨inst, hinst, hstate, htokens⟩
    refine ⟨b.id, by simp [hinst], inst, hinst, ?_⟩
    rw [← hstate, ← htokens]

/-- Equal canonical strings have the same nodes in the same states. -/
theorem lookup_of_canonical_eq {d₁ d₂ : Desc} (h₁ : d₁.Separable) (h₂ : d₂.Separable)
    (h : d₁.canonical = d₂.canonical) (hinst : d₁.lookup id = some inst) :
    ∃ inst', d₂.lookup id = some inst' ∧ inst'.state = inst.state := by
  have hids : ∀ {d : Desc}, d.Separable → ∀ b ∈ d.blocks, (59 : UInt8) ∉ b.id := by
    intro d hd b hb
    obtain ⟨inst, hinst, -⟩ := mem_blocks.mp hb
    exact hd b.id (AList.mem_keys.mp (AList.lookup_isSome.mp (by
      rw [← Desc.lookup, hinst]
      rfl)))
  have hblocks : d₁.blocks = d₂.blocks := by
    rw [canonical_eq_flatMap, canonical_eq_flatMap] at h
    exact flatMap_bytes_injective (hids h₁) (hids h₂) h
  have hmem : (⟨id, inst.state.number, inst.tokens.length⟩ : Block) ∈ d₂.blocks :=
    hblocks ▸ mem_blocks.mpr ⟨inst, hinst, rfl, rfl⟩
  obtain ⟨inst', hinst', hstate, -⟩ := mem_blocks.mp hmem
  exact ⟨inst', hinst', (InstanceState.number_injective hstate).symm⟩

/-! ## Routing -/

/-- No active node with an address is lost on the way from one descriptor to the other. -/
def Desc.Retains (d₁ d₂ : Desc) : Prop :=
  ∀ id a, d₁.lookup id = some a → a.state = .active → a.addr ≠ "" →
    ∃ b, d₂.lookup id = some b ∧ b.state = .active

/-- No node that stays active changes its address, or its tokens if it has an address. -/
def Desc.Steady (d₁ d₂ : Desc) : Prop :=
  ∀ id a b, d₁.lookup id = some a → d₂.lookup id = some b → a.state = .active → b.state = .active →
    a.addr = b.addr ∧ (a.addr ≠ "" → ∀ t, t ∈ a.tokens ↔ t ∈ b.tokens)

section Changes

variable {d₁ d₂ : Desc}

section

variable (h : d₁.Steady d₂)

include h

lemma Desc.Steady.symm : d₂.Steady d₁ := by
  intro id b a hb ha hactive hactive'
  obtain ⟨haddr, htokens⟩ := h id a b ha hb hactive' hactive
  exact ⟨haddr.symm, fun hne t => (htokens (haddr ▸ hne) t).symm⟩

/-- A route of the first descriptor is one of the second. -/
theorem Desc.Steady.route (hretains : d₁.Retains d₂) {id : NodeID}
    {addr : String} (hroute : d₁.route id = some addr) : d₂.route id = some addr := by
  obtain ⟨a, ha, hactive, rfl, hne⟩ := route_eq_some.mp hroute
  obtain ⟨b, hb, hactive'⟩ := hretains id a ha hactive hne
  exact route_eq_some.mpr ⟨b, hb, hactive', (h id a b ha hb hactive hactive').1.symm, hne⟩

/-- So is a token. -/
theorem Desc.Steady.token (hretains : d₁.Retains d₂) {e : TokenEntry}
    (he : e ∈ (install (getClusterTopology d₁)).tokens) :
    e ∈ (install (getClusterTopology d₂)).tokens := by
  rw [getClusterTopology, mem_install_tokens] at he ⊢
  obtain ⟨hroute, a, ha, hactive, ht⟩ := he
  obtain ⟨addr, haddr⟩ := Option.isSome_iff_exists.mp hroute
  obtain ⟨a', ha', -, rfl, hne⟩ := route_eq_some.mp haddr
  obtain rfl : a = a' := Option.some.inj (ha.symm.trans ha')
  obtain ⟨b, hb, hactive'⟩ := hretains _ a ha hactive hne
  exact ⟨by rw [h.route hretains haddr]; rfl, b, hb, hactive',
    ((h _ a b ha hb hactive hactive').2 hne e.token).mp ht⟩

lemma sameRouting_of_steady (h₁ : d₁.Retains d₂) (h₂ : d₂.Retains d₁) :
    SameRouting (install (getClusterTopology d₁)) (install (getClusterTopology d₂)) := by
  refine ⟨fun e => ⟨h.token h₁, h.symm.token h₂⟩, fun id => ?_⟩
  rw [getClusterTopology, getClusterTopology, lookup_install_nodes, lookup_install_nodes]
  exact Option.ext fun addr => ⟨h.route h₁, h.symm.route h₂⟩

end

/-- Without an address that is lost, no node with one is. -/
theorem retains_of_route (h : ∀ id, d₁.route id = d₂.route id) : d₁.Retains d₂ := by
  intro id a ha hactive hne
  have hroute := h id ▸ route_eq_some.mpr ⟨a, ha, hactive, rfl, hne⟩
  obtain ⟨b, hb, hactive', -⟩ := route_eq_some.mp hroute
  exact ⟨b, hb, hactive'⟩

/-- A client that has the same routing for both descriptors has the same addresses, and the same
tokens of nodes with one. -/
theorem steady_of_sameRouting
    (h : SameRouting (install (getClusterTopology d₁)) (install (getClusterTopology d₂))) :
    d₁.Steady d₂ := by
  intro id a b ha hb hactive hactive'
  obtain ⟨htokens, haddrs⟩ := h
  have hroute : ∀ {d : Desc} {c}, d.lookup id = some c → c.state = .active →
      d.route id = if c.addr ≠ "" then some c.addr else none := by
    intro d c hc hactive
    simp [Desc.route, hc, hactive]
  -- The addresses agree, as one that is missing is not installed.
  have haddr : a.addr = b.addr := by
    have heq := haddrs id
    rw [getClusterTopology, getClusterTopology, lookup_install_nodes, lookup_install_nodes,
      hroute ha hactive, hroute hb hactive'] at heq
    split at heq <;> split at heq <;> simp_all
  refine ⟨haddr, fun hne t => ?_⟩
  have heq := htokens ⟨t, id⟩
  rw [getClusterTopology, getClusterTopology, mem_install_tokens, mem_install_tokens] at heq
  simpa [ha, hb, hactive, hactive', hroute ha hactive, hroute hb hactive', hne, ← haddr] using heq

/-- If no ID contains a semicolon, no node is lost behind the canonical string. -/
theorem retains_of_canonical_eq (h₁ : d₁.Separable) (h₂ : d₂.Separable)
    (h : d₁.canonical = d₂.canonical) : d₁.Retains d₂ := by
  intro id a ha hactive _
  obtain ⟨b, hb, hstate⟩ := lookup_of_canonical_eq h₁ h₂ h ha
  exact ⟨b, hb, hstate.trans hactive⟩

end Changes

/-- Descriptors with the same canonical string lead to the same routing if and only if no node that
is active in both changes its address, or its tokens if it has one; and no ID contains a semicolon,
or no active node with an address comes or goes. -/
theorem sameRouting_iff {d₁ d₂ : Desc} (h : d₁.canonical = d₂.canonical) :
    SameRouting (install (getClusterTopology d₁)) (install (getClusterTopology d₂)) ↔
      d₁.Steady d₂ ∧ (d₁.Separable ∧ d₂.Separable ∨ d₁.Retains d₂ ∧ d₂.Retains d₁) := by
  constructor
  · intro hsame
    have hroute : ∀ id, d₁.route id = d₂.route id := fun id =>
      (lookup_install_nodes d₁ _ _ id).symm.trans ((hsame.nodes id).trans (lookup_install_nodes d₂ _ _ id))
    exact ⟨steady_of_sameRouting hsame, .inr ⟨retains_of_route hroute, retains_of_route fun id =>
      (hroute id).symm⟩⟩
  · rintro ⟨hsteady, ⟨h₁, h₂⟩ | ⟨h₁, h₂⟩⟩
    · exact sameRouting_of_steady hsteady (retains_of_canonical_eq h₁ h₂ h)
        (retains_of_canonical_eq h₂ h₁ h.symm)
    · exact sameRouting_of_steady hsteady h₁ h₂

/-! ## Descriptors with the same string -/

/-- A descriptor with one active node, `n`. -/
def oneNode (addr : String) (tokens : List UInt32) : Desc :=
  ⟨(∅ : AList fun _ : NodeID => InstanceDesc).insert [110] ⟨addr, .active, tokens⟩⟩

/-- The nodes `a` and `b`, with one token each. -/
def twoNodes : Desc :=
  ⟨((∅ : AList fun _ : NodeID => InstanceDesc).insert [97] ⟨"10.0.0.1:1", .active, [1]⟩).insert [98]
    ⟨"10.0.0.2:1", .active, [2]⟩⟩

/-- The node `a:0:1;b`, which has the string of `a` and `b`. -/
def disguisedNode : Desc :=
  ⟨(∅ : AList fun _ : NodeID => InstanceDesc).insert [97, 58, 48, 58, 49, 59, 98]
    ⟨"10.0.0.1:1", .active, [1]⟩⟩

/-- All IDs are accepted and the canonical strings are equal, but the routing differs: the address
of a node changes, its tokens change, and two nodes are taken for one. -/
theorem canonical_collides :
    (∀ d ∈ [oneNode "10.0.0.1:1" [1], oneNode "10.0.0.2:1" [1], oneNode "10.0.0.1:1" [2], twoNodes,
        disguisedNode], ∀ id ∈ d.ingesters.keys, validateNodeID id = none) ∧
      ((oneNode "10.0.0.1:1" [1]).canonical = (oneNode "10.0.0.2:1" [1]).canonical ∧
        ¬SameRouting (install (getClusterTopology (oneNode "10.0.0.1:1" [1])))
          (install (getClusterTopology (oneNode "10.0.0.2:1" [1])))) ∧
      ((oneNode "10.0.0.1:1" [1]).canonical = (oneNode "10.0.0.1:1" [2]).canonical ∧
        ¬SameRouting (install (getClusterTopology (oneNode "10.0.0.1:1" [1])))
          (install (getClusterTopology (oneNode "10.0.0.1:1" [2])))) ∧
      (twoNodes.canonical = disguisedNode.canonical ∧
        ¬SameRouting (install (getClusterTopology twoNodes))
          (install (getClusterTopology disguisedNode))) := by
  refine ⟨by decide +kernel, ⟨by decide +kernel, fun h => ?_⟩, ⟨by decide +kernel, fun h => ?_⟩,
    by decide +kernel, fun h => ?_⟩
  · exact absurd (h.nodes [110]) (by decide +kernel)
  · exact absurd (h.tokens ⟨1, [110]⟩) (by decide +kernel)
  · exact absurd (h.nodes [98]) (by decide +kernel)

/-- The active node `a;b` at one address. -/
def oddNode (tokens : List UInt32) : Desc :=
  ⟨(∅ : AList fun _ : NodeID => InstanceDesc).insert [97, 59, 98] ⟨"10.0.0.1:1", .active, tokens⟩⟩

lemma lookup_oddNode {tokens : List UInt32} (h : (oddNode tokens).lookup id = some inst) :
    id = [97, 59, 98] ∧ inst = ⟨"10.0.0.1:1", .active, tokens⟩ := by
  by_cases hid : id = [97, 59, 98]
  · subst hid
    rw [Desc.lookup, oddNode, AList.lookup_insert] at h
    exact ⟨rfl, (Option.some.inj h).symm⟩
  · rw [Desc.lookup, oddNode, AList.lookup_insert_ne hid] at h
    simp at h

/-- A node that lists its tokens in another order, with a semicolon in its ID. -/
theorem sameRouting_iff_reordered :
    SameRouting (install (getClusterTopology (oddNode [1, 2])))
      (install (getClusterTopology (oddNode [2, 1]))) := by
  have hretains : ∀ ts ts', (oddNode ts).Retains (oddNode ts') := by
    intro ts ts' id a ha _ _
    obtain ⟨rfl, -⟩ := lookup_oddNode ha
    exact ⟨_, AList.lookup_insert _, rfl⟩
  refine (sameRouting_iff (by decide +kernel)).mpr ⟨?_, .inr ⟨hretains _ _, hretains _ _⟩⟩
  intro id a b ha hb _ _
  rw [(lookup_oddNode ha).2, (lookup_oddNode hb).2]
  exact ⟨rfl, fun _ t => by simp [or_comm]⟩

end OCache.Ring
