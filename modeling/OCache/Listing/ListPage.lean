import OCache.Listing.PageSpec

/-!
# Paging through a cluster

A client lists a prefix by calling `ListPage` with an empty token and feeding back the token it
gets until `hasMore` is false. The token holds the cursors of the nodes whose keys the last page
took, and only those: a node without a key on the last page starts from the beginning again. A
listing is complete and finite exactly if this never matters.

The base64 and JSON layers of a token are left out: a token is the value it decodes to.
-/

namespace OCache.Listing

open Pages

/-! ## Pages of a cluster -/

def maxListLimit : Int := 1000

def defaultListLimit : Int := 1000

/-- The limit that `ListPage` and `ListLocal` use. -/
def effectiveLimit (limit : Int) : Nat :=
  let limit := if limit ≤ 0 then defaultListLimit else limit
  (if maxListLimit < limit then maxListLimit else limit).toNat

lemma effectiveLimit_pos (limit : Int) : 0 < effectiveLimit limit := by
  unfold effectiveLimit defaultListLimit maxListLimit
  dsimp only
  split <;> split <;> omega

lemma effectiveLimit_effectiveLimit (limit : Int) :
    effectiveLimit (effectiveLimit limit) = effectiveLimit limit := by
  unfold effectiveLimit defaultListLimit maxListLimit
  dsimp only
  split <;> split <;> split <;> omega

/-- The active nodes and the keys each of them holds. -/
structure Cluster where
  nodes : List String
  keys : String → List String
  /-- Node identifiers are distinct. -/
  nodup : nodes.Nodup
  /-- The keys of a node are a set, listed in order. -/
  sorted : ∀ n, (keys n).Pairwise (· < ·)
  /-- The handlers reject the empty key. -/
  ne_empty : ∀ n, ∀ k ∈ keys n, k ≠ ""

def hasPrefix (pre key : String) : Bool := pre.toList.isPrefixOf key.toList

/-- The keys with the prefix after the start key, up to the limit. -/
def listLocal (keys : List String) (pre : String) (limit : Int) (startKey : String) :
    NodeResponse :=
  .ofKeys (effectiveLimit limit)
    (keys.filter fun key => hasPrefix pre key && (startKey = "" || startKey < key))

/-- A continuation token, as the value it decodes to. -/
inductive Token where
  /-- The empty string. -/
  | empty
  /-- The cursors and the prefix of a cluster listing. -/
  | cluster (nodeCursors : Cursors) (pre : String)
  /-- Any other string is a start key, for compatibility with a single node. -/
  | startKey (key : String)
deriving DecidableEq

/-- The cursors of a token, or `none` for a plain start key. -/
def parseContinuationToken (token : Token) (pre : String) : Except String (Option Cursors) :=
  match token with
  | .empty => .ok (some [])
  | .startKey _ => .ok none
  | .cluster nodeCursors tokenPre =>
    if tokenPre = pre then .ok (some nodeCursors)
    else .error ("prefix mismatch: token has '" ++ tokenPre ++ "', request has '" ++ pre ++ "'")

def encodeContinuationToken (nodeCursors : Cursors) (pre : String) : Token :=
  if nodeCursors.isEmpty then .empty else .cluster nodeCursors pre

/-- A page, or the pages so far. -/
structure Listed where
  keys : List String
  token : Token
  hasMore : Bool
deriving DecidableEq

/-- The responses of all nodes, each after its cursor. -/
def fetchFromAllNodes (c : Cluster) (pre : String) (limit : Int) (nodeCursors : Cursors)
    (nodeID : String) : NodeResponse :=
  listLocal (c.keys nodeID) pre limit ((nodeCursors.lookup nodeID).getD "")

def listClusterWide (minHeap : MinHeap) (c : Cluster) (pre : String) (limit : Nat) (token : Token) :
    Except String Listed :=
  if c.nodes.isEmpty then .error "no active nodes in cluster"
  else
    match parseContinuationToken token pre with
    | .error err => .error ("invalid continuation token: " ++ err)
    | .ok parsed =>
      let nodeCursors := match parsed, token with
        | some nodeCursors, _ => nodeCursors
        | none, .startKey key => c.nodes.map (·, key)
        | none, _ => []
      let merged := kWayMerge minHeap c.nodes (fetchFromAllNodes c pre limit nodeCursors) limit
      .ok {
        keys := merged.keys
        token := if merged.hasMore then encodeContinuationToken merged.nodeCursors pre else .empty
        hasMore := merged.hasMore }

/-- `ListPage` in cluster mode. -/
def listPage (minHeap : MinHeap) (c : Cluster) (pre : String) (limit : Int) (token : Token) :
    Except String Listed :=
  listClusterWide minHeap c pre (effectiveLimit limit) token

/-- What a client has after page `j`, counted from 0, or after the last page if that was earlier.
The heap may break ties differently on every page. -/
def listPages (minHeap : Nat → MinHeap) (c : Cluster) (pre : String) (limit : Int) :
    Nat → Except String Listed
  | 0 => listPage (minHeap 0) c pre limit .empty
  | j + 1 => do
    let listed ← listPages minHeap c pre limit j
    if listed.hasMore then
      let page ← listPage (minHeap (j + 1)) c pre limit listed.token
      return { page with keys := listed.keys ++ page.keys }
    else return listed

/-! ## What a listing should return -/

section Spec

variable (c : Cluster) (pre : String)

/-- The keys with the prefix that the node holds. -/
def Cluster.held (n : String) : List String := (c.keys n).filter (hasPrefix pre)

/-- All keys with the prefix, in order, each once. -/
def Cluster.union : List String := sortedUnion (c.nodes.map (c.held pre))

/-- The client reaches a page without `hasMore`, with the sorted union of all keys. -/
def ListsAll (minHeap : Nat → MinHeap) (limit : Int) : Prop :=
  ∃ j token, listPages minHeap c pre limit j = .ok ⟨c.union pre, token, false⟩

/-- The nodes that hold the key. -/
def Cluster.holders (key : String) : List String := c.nodes.filter (key ∈ c.held pre ·)

/-- The last key of page `j`, if the page is full, is on one node. -/
def UniqueAtEnd (size j : Nat) : Prop :=
  ((c.union pre)[(j + 1) * size - 1]?).all (fun key => (c.holders pre key).length = 1) = true

/-- A node with a key before page `j` has a key on page `j`. -/
def RenewsCursors (size j : Nat) : Prop :=
  ∀ n ∈ c.nodes, (∃ k ∈ (c.union pre).take (j * size), k ∈ c.held pre n) →
    ∃ k ∈ ((c.union pre).drop (j * size)).take size, k ∈ c.held pre n

instance (size j : Nat) : Decidable (UniqueAtEnd c pre size j) :=
  inferInstanceAs (Decidable (_ = _))

instance (size j : Nat) : Decidable (RenewsCursors c pre size j) :=
  inferInstanceAs (Decidable (∀ n ∈ c.nodes, _ → _))

end Spec

/-! ## One page -/

section Page

variable {c : Cluster} {pre : String} {limit : Int}

lemma sorted_held (n : String) : (c.held pre n).Pairwise (· < ·) :=
  (c.sorted n).filter _

lemma sorted_union : (c.union pre).Pairwise (· < ·) := sorted_sortedUnion _

lemma mem_union {k : String} : k ∈ c.union pre ↔ ∃ n ∈ c.nodes, k ∈ c.held pre n := by
  simp [Cluster.union, mem_sortedUnion]

/-- What the node has after its cursor. -/
def Cluster.after (c : Cluster) (pre : String) (cursors : Cursors) (n : String) : List String :=
  (c.held pre n).filter fun k => !covered cursors n k

lemma mem_after {cursors : Cursors} {n k : String} :
    k ∈ c.after pre cursors n ↔ k ∈ c.held pre n ∧ covered cursors n k = false := by
  simp [Cluster.after]

/-- The page that follows the cursors. -/
def Cluster.page (c : Cluster) (pre : String) (limit : Int) (minHeap : MinHeap)
    (cursors : Cursors) : MergeResult :=
  kWayMerge minHeap c.nodes
    (fun n => .ofKeys (effectiveLimit limit) (c.after pre cursors n)) (effectiveLimit limit)

lemma page_spec (minHeap : MinHeap) (cursors : Cursors) :
    PageSpec c.nodes (c.after pre cursors) (effectiveLimit limit)
      (c.page pre limit minHeap cursors) :=
  kWayMerge_spec minHeap c.nodup fun n _ => (sorted_held n).filter _

/-- No key is at or below the empty one, so a missing cursor can be an empty start key. -/
theorem fetchFromAllNodes_eq (cursors : Cursors) :
    fetchFromAllNodes c pre (effectiveLimit limit) cursors =
      fun n => .ofKeys (effectiveLimit limit) (c.after pre cursors n) := by
  funext n
  rw [fetchFromAllNodes, listLocal, effectiveLimit_effectiveLimit, Cluster.after, Cluster.held,
    List.filter_filter]
  congr 1
  refine List.filter_congr fun k hk => ?_
  have hempty : ¬ k ≤ "" := by
    rw [String.le_iff_toList_le]
    have := c.ne_empty n k hk
    cases hlist : k.toList with
    | nil => exact absurd (String.toList_eq_nil_iff.mp hlist) this
    | cons a as => simp
  rw [Bool.and_comm]
  congr 1
  unfold covered
  cases cursors.lookup n with
  | none => simp
  | some cursor =>
    by_cases hcursor : cursor = ""
    · subst hcursor
      simpa using hempty
    · simp only [Option.getD_some, hcursor, decide_false, Bool.false_or, ← decide_not, not_le]

lemma listPage_encode (hne : c.nodes ≠ []) (minHeap : MinHeap) (cursors : Cursors) :
    listPage minHeap c pre limit (encodeContinuationToken cursors pre) = .ok {
      keys := (c.page pre limit minHeap cursors).keys
      token := if (c.page pre limit minHeap cursors).hasMore then
        encodeContinuationToken (c.page pre limit minHeap cursors).nodeCursors pre else .empty
      hasMore := (c.page pre limit minHeap cursors).hasMore } := by
  have hparse : parseContinuationToken (encodeContinuationToken cursors pre) pre =
      .ok (some cursors) := by
    cases cursors with
    | nil => rfl
    | cons cursor cursors => simp [encodeContinuationToken, parseContinuationToken]
  rw [listPage, listClusterWide, if_neg (by simpa using hne), hparse]
  simp only [fetchFromAllNodes_eq, Cluster.page]
  rfl

/-- Whatever the cursors of a token, the page has the least keys that the nodes hold after them. If
it says that there is no more it has all of them, and otherwise it is full. -/
theorem listPage_exact (c : Cluster) (hne : c.nodes ≠ []) (pre : String) (limit : Int)
    (minHeap : MinHeap) (cursors : Cursors) :
    ∃ page, listPage minHeap c pre limit (encodeContinuationToken cursors pre) = .ok page ∧
      FirstOf (effectiveLimit limit) {k | ∃ n ∈ c.nodes, k ∈ c.after pre cursors n} page.keys ∧
      if page.hasMore then page.keys.length = effectiveLimit limit
      else page.token = .empty ∧ ∀ n ∈ c.nodes, ∀ k ∈ c.after pre cursors n, k ∈ page.keys := by
  have h : PageSpec _ _ _ (c.page pre limit minHeap cursors) := page_spec minHeap cursors
  refine ⟨_, listPage_encode hne minHeap cursors, h.first, ?_⟩
  split
  · rename_i hmore
    obtain ⟨n, hn, k, hk, hcov⟩ := h.hasMore_iff.mp hmore
    exact (h.of_not_covered n hn k hk hcov).1
  · rename_i hmore
    refine ⟨rfl, fun n hn k hk => h.mem_of_covered n hn k hk ?_⟩
    by_contra hcov
    exact hmore (h.hasMore_iff.mpr ⟨n, hn, k, hk, by simpa using hcov⟩)

end Page

end OCache.Listing
