import Mathlib
import OCache.Lib.Pages

/-!
# The merge behind one page of a cluster listing

Every node answers a listing with its first keys after a start key; `kWayMerge` merges the answers
through a min-heap until the page is full, and records for each node the last key it took from it.
Which of several equal keys the heap returns first depends on its layout, so the heap is a
parameter and everything below holds for each.
-/

namespace OCache.Listing

/-! ## The merge -/

/-- The response of a node. -/
structure NodeResponse where
  /-- The keys, in order. -/
  keys : List String
  /-- The last key, if the node has more. -/
  continuationToken : String
  /-- The node has keys after the last one. -/
  hasMore : Bool

/-- The first `limit` of the keys a node has after the start key. -/
def NodeResponse.ofKeys (limit : Nat) (avail : List String) : NodeResponse where
  keys := avail.take limit
  continuationToken := if limit < avail.length then (avail.take limit).getLastD "" else ""
  hasMore := limit < avail.length

/-- A key of a node on the heap. -/
structure HeapNode where
  key : String
  nodeID : String

/-- `container/heap` over `keyHeap`: `Pop` removes an entry with a least key. -/
structure MinHeap where
  /-- The entry popped and the entries that stay. -/
  pop : List HeapNode → Option (HeapNode × List HeapNode)
  /-- Only the empty heap has nothing to pop. -/
  eq_nil : ∀ heap, pop heap = none → heap = []
  /-- The entry was on the heap and the rest stays. -/
  perm : ∀ heap x rest, pop heap = some (x, rest) → heap.Perm (x :: rest)
  /-- No entry that stays is smaller. -/
  least : ∀ heap x rest, pop heap = some (x, rest) → ∀ y ∈ rest, x.key ≤ y.key

/-- Cursors by node, newest first; the first entry of a node counts. -/
abbrev Cursors := List (String × String)

/-- The variables of the merge loop. -/
structure MergeState where
  heap : List HeapNode
  nodeIndices : String → Nat
  nodeCursors : Cursors
  keys : List String

section Merge

variable (minHeap : MinHeap) (nodes : List String) (responses : String → NodeResponse) (limit : Nat)

/-- The heap primed with the first key of each node. -/
@[simp] def mergeInit : MergeState where
  heap := nodes.filterMap fun nodeID => (responses nodeID).keys.head?.map (⟨·, nodeID⟩)
  -- The source starts empty responses at `-1`; the only test of the index holds for both.
  nodeIndices _ := 0
  nodeCursors := []
  keys := []

variable (m : MergeState)

/-- The loop body after `minNode` was popped. -/
def mergePop (minNode : HeapNode) (rest : List HeapNode) : MergeState :=
  let items := (responses minNode.nodeID).keys
  let nextIndex := m.nodeIndices minNode.nodeID + 1
  -- The cursor moves even if the key is a duplicate.
  let nodeCursors := (minNode.nodeID, minNode.key) :: m.nodeCursors
  let keys := if minNode.key ∈ m.keys then m.keys else m.keys ++ [minNode.key]
  match items[nextIndex]? with
  | some key =>
    { heap := ⟨key, minNode.nodeID⟩ :: rest
      nodeIndices := Function.update m.nodeIndices minNode.nodeID nextIndex
      nodeCursors, keys }
  | none => { heap := rest, nodeIndices := m.nodeIndices, nodeCursors, keys }

/-- Pop until the page is full or the heap is empty, at most `fuel` times. -/
def mergeLoop : Nat → MergeState → MergeState
  | 0, m => m
  | fuel + 1, m =>
    if m.keys.length < limit then
      match minHeap.pop m.heap with
      | some (minNode, rest) => mergeLoop fuel (mergePop responses m minNode rest)
      | none => m
    else m

/-- What the merge returns. -/
structure MergeResult where
  keys : List String
  nodeCursors : Cursors
  hasMore : Bool

/-- The nodes whose response is used up although they have more keys. -/
def usedUp : List String :=
  nodes.filter fun nodeID =>
    (responses nodeID).hasMore && (responses nodeID).keys.length ≤ m.nodeIndices nodeID + 1

def mergeFinish : MergeResult :=
  if m.heap.isEmpty then
    { keys := m.keys
      hasMore := !(usedUp nodes responses m).isEmpty
      nodeCursors := (usedUp nodes responses m).foldl (fun cursors nodeID =>
        if (responses nodeID).continuationToken = "" then cursors
        else (nodeID, (responses nodeID).continuationToken) :: cursors) m.nodeCursors }
  else { keys := m.keys, nodeCursors := m.nodeCursors, hasMore := true }

/-- Merge the responses into one page. Every round takes one key of a response, so the number of
keys bounds the rounds. -/
def kWayMerge : MergeResult :=
  let fuel := (nodes.map fun nodeID => (responses nodeID).keys.length).sum
  mergeFinish nodes responses
    (mergeLoop minHeap responses limit fuel (mergeInit nodes responses))

end Merge

/-- The cursor of the node is at or after the key. -/
def covered (cursors : Cursors) (nodeID key : String) : Bool :=
  match cursors.lookup nodeID with
  | none => false
  | some cursor => key ≤ cursor

variable {cursor key nodeID : String} {cursors : Cursors}

lemma covered_cons_self :
    covered ((nodeID, cursor) :: cursors) nodeID key = decide (key ≤ cursor) := by
  simp [covered]

lemma covered_cons_of_ne {other : String} (h : other ≠ nodeID) :
    covered ((nodeID, cursor) :: cursors) other key = covered cursors other key := by
  have hbeq : (other == nodeID) = false := beq_eq_false_iff_ne.mpr h
  simp [covered, List.lookup_cons, hbeq]

/-! ## The loop -/

section Loop

variable {minHeap : MinHeap} {nodes : List String} {responses : String → NodeResponse} {limit : Nat}

/-- The key is in the response of the node and was not popped yet. -/
def Unread (responses : String → NodeResponse) (m : MergeState) (nodeID key : String) : Prop :=
  (∃ e ∈ m.heap, e.nodeID = nodeID) ∧
    key ∈ (responses nodeID).keys.drop (m.nodeIndices nodeID)

/-- What the loop maintains. -/
structure MergeInv (nodes : List String) (responses : String → NodeResponse) (limit : Nat)
    (m : MergeState) : Prop where
  heap_nodup : (m.heap.map HeapNode.nodeID).Nodup
  heap_head : ∀ e ∈ m.heap, e.nodeID ∈ nodes ∧
    ∃ rest, (responses e.nodeID).keys.drop (m.nodeIndices e.nodeID) = e.key :: rest
  consumed : ∀ n ∈ nodes, (∀ e ∈ m.heap, e.nodeID ≠ n) →
    (responses n).keys.length ≤ m.nodeIndices n + 1
  unread_iff : ∀ n ∈ nodes, ∀ k ∈ (responses n).keys,
    Unread responses m n k ↔ covered m.nodeCursors n k = false
  sorted : m.keys.Pairwise (· < ·)
  le_heap : ∀ x ∈ m.keys, ∀ e ∈ m.heap, x ≤ e.key
  mem_of_covered : ∀ n ∈ nodes, ∀ k ∈ (responses n).keys, covered m.nodeCursors n k = true →
    k ∈ m.keys
  cursor_mem : ∀ n c, m.nodeCursors.lookup n = some c →
    n ∈ nodes ∧ c ∈ (responses n).keys ∧ c ∈ m.keys
  origin : ∀ x ∈ m.keys, ∃ n ∈ nodes, x ∈ (responses n).keys ∧ covered m.nodeCursors n x = true
  length_le : m.keys.length ≤ limit
  -- The loop ends with the key that fills the page, so one node has its cursor there.
  last_unique : m.keys.length = limit → ∃ n₀, ∀ n c, m.nodeCursors.lookup n = some c →
    (∀ x ∈ m.keys, x ≤ c) → n = n₀

lemma mem_heap_mergeInit {e : HeapNode} :
    e ∈ (mergeInit nodes responses).heap ↔
      e.nodeID ∈ nodes ∧ (responses e.nodeID).keys.head? = some e.key := by
  simp only [mergeInit, List.mem_filterMap, Option.map_eq_some_iff]
  constructor
  · rintro ⟨n, hn, k, hk, rfl⟩
    exact ⟨hn, hk⟩
  · rintro ⟨hn, hk⟩
    exact ⟨e.nodeID, hn, e.key, hk, rfl⟩

lemma mergeInv_mergeInit (hnodup : nodes.Nodup) :
    MergeInv nodes responses limit (mergeInit nodes responses) where
  heap_nodup := by
    have hmap : (mergeInit nodes responses).heap.map HeapNode.nodeID =
        nodes.filter fun n => (responses n).keys.head?.isSome := by
      rw [mergeInit, List.map_filterMap, ← List.filterMap_eq_filter]
      congr 1
      funext n
      cases h : (responses n).keys.head? <;> simp [h, Option.guard]
    rw [hmap]
    exact hnodup.filter _
  heap_head e he := by
    obtain ⟨hn, hk⟩ := mem_heap_mergeInit.mp he
    refine ⟨hn, (responses e.nodeID).keys.tail, ?_⟩
    exact (List.eq_cons_of_mem_head? hk)
  consumed n hn hnot := by
    cases hkeys : (responses n).keys with
    | nil => exact Nat.zero_le _
    | cons k rest =>
      exact absurd rfl (hnot ⟨k, n⟩ (mem_heap_mergeInit.mpr ⟨hn, by rw [hkeys]; rfl⟩))
  unread_iff n hn k hk := by
    refine iff_of_true ⟨?_, by simpa using hk⟩ rfl
    obtain ⟨first, rest, hkeys⟩ := List.exists_cons_of_ne_nil (List.ne_nil_of_mem hk)
    exact ⟨⟨first, n⟩, mem_heap_mergeInit.mpr ⟨hn, by rw [hkeys]; rfl⟩, rfl⟩
  sorted := List.Pairwise.nil
  le_heap := by simp
  mem_of_covered := by simp [covered]
  cursor_mem := by simp
  origin := by simp
  length_le := Nat.zero_le _
  last_unique _ := ⟨"", by simp⟩

/-! ### One round -/

section Pop

variable {m : MergeState} {x : HeapNode} {rest : List HeapNode} {tail : List String}

lemma mergePop_keys : (mergePop responses m x rest).keys =
    if x.key ∈ m.keys then m.keys else m.keys ++ [x.key] := by
  unfold mergePop
  dsimp only
  split <;> rfl

lemma mergePop_nodeCursors :
    (mergePop responses m x rest).nodeCursors = (x.nodeID, x.key) :: m.nodeCursors := by
  unfold mergePop
  dsimp only
  split <;> rfl

variable {k n : String} {e : HeapNode}

lemma mem_keys_mergePop : k ∈ (mergePop responses m x rest).keys ↔ k ∈ m.keys ∨ k = x.key := by
  rw [mergePop_keys]
  split
  · rename_i hold
    exact ⟨.inl, fun hk => hk.elim id fun heq => heq ▸ hold⟩
  · simp

variable {a : String} {i : Nat} {l : List String}

lemma getElem?_succ_of_drop (h : l.drop i = a :: tail) : l[i + 1]? = tail.head? := by
  have : (l.drop i)[1]? = l[i + 1]? := List.getElem?_drop
  rw [← this, h]
  cases tail <;> rfl

/-- The response is used up: the node leaves the heap. -/
theorem mergePop_nil (h : (responses x.nodeID).keys.drop (m.nodeIndices x.nodeID) = [x.key]) :
    (mergePop responses m x rest).heap = rest ∧
      (mergePop responses m x rest).nodeIndices = m.nodeIndices := by
  have hnext := getElem?_succ_of_drop h
  simp only [List.head?_nil] at hnext
  simp [mergePop, hnext]

/-- The next key of the response takes the place of the key popped. -/
theorem mergePop_cons {next : String}
    (h : (responses x.nodeID).keys.drop (m.nodeIndices x.nodeID) = x.key :: next :: tail) :
    (mergePop responses m x rest).heap = ⟨next, x.nodeID⟩ :: rest ∧
      (mergePop responses m x rest).nodeIndices =
        Function.update m.nodeIndices x.nodeID (m.nodeIndices x.nodeID + 1) := by
  have hnext := getElem?_succ_of_drop h
  simp only [List.head?_cons] at hnext
  simp [mergePop, hnext]

lemma mergePop_nodeIndices_of_ne (hn : n ≠ x.nodeID) :
    (mergePop responses m x rest).nodeIndices n = m.nodeIndices n := by
  unfold mergePop
  dsimp only
  split
  · simp [hn]
  · rfl

lemma mem_heap_mergePop (h : e ∈ (mergePop responses m x rest).heap) :
    e ∈ rest ∨ e.nodeID = x.nodeID ∧
      (responses x.nodeID).keys[m.nodeIndices x.nodeID + 1]? = some e.key := by
  unfold mergePop at h
  dsimp only at h
  split at h
  · rcases List.mem_cons.mp h with rfl | h
    · exact .inr ⟨rfl, by assumption⟩
    · exact .inl h
  · exact .inl h

lemma mem_heap_mergePop_of_mem (h : e ∈ rest) : e ∈ (mergePop responses m x rest).heap := by
  unfold mergePop
  dsimp only
  split
  · exact List.mem_cons_of_mem _ h
  · exact h

lemma exists_mem_heap_mergePop (hperm : m.heap.Perm (x :: rest)) (hn : n ≠ x.nodeID) :
    (∃ e ∈ (mergePop responses m x rest).heap, e.nodeID = n) ↔ ∃ e ∈ m.heap, e.nodeID = n := by
  constructor
  · rintro ⟨e, he, rfl⟩
    rcases mem_heap_mergePop he with he | ⟨heq, -⟩
    · exact ⟨e, hperm.mem_iff.mpr (List.mem_cons_of_mem _ he), rfl⟩
    · exact absurd heq hn
  · rintro ⟨e, he, rfl⟩
    rcases List.mem_cons.mp (hperm.mem_iff.mp he) with rfl | he
    · contradiction
    · exact ⟨e, mem_heap_mergePop_of_mem he, rfl⟩

lemma unread_mergePop_of_ne (hperm : m.heap.Perm (x :: rest)) (hn : n ≠ x.nodeID) :
    Unread responses (mergePop responses m x rest) n k ↔ Unread responses m n k := by
  rw [Unread, Unread, exists_mem_heap_mergePop hperm hn, mergePop_nodeIndices_of_ne hn]

/-- The keys after a position of a sorted list are those above the key there. -/
theorem mem_tail_iff_lt (hl : l.Pairwise (· < ·)) (hdrop : l.drop i = a :: tail) (hk : k ∈ l) :
    k ∈ tail ↔ a < k := by
  rw [← List.take_append_drop i l, hdrop, List.pairwise_append, List.pairwise_cons] at hl
  obtain ⟨-, ⟨habove, -⟩, hbelow⟩ := hl
  refine ⟨habove k, fun hlt => ?_⟩
  rw [← List.take_append_drop i l, hdrop, List.mem_append, List.mem_cons] at hk
  rcases hk with hk | rfl | hk
  · exact absurd hlt (hbelow k hk a List.mem_cons_self).asymm
  · exact absurd hlt (lt_irrefl _)
  · exact hk

variable (h : MergeInv nodes responses limit m) (hperm : m.heap.Perm (x :: rest))

include h hperm

lemma MergeInv.ne_of_mem_rest (he : e ∈ rest) : e.nodeID ≠ x.nodeID := by
  have hnodup := (hperm.map HeapNode.nodeID).nodup_iff.mp h.heap_nodup
  rw [List.map_cons, List.nodup_cons] at hnodup
  exact fun heq => hnodup.1 (heq ▸ List.mem_map_of_mem he)

lemma MergeInv.unread_mergePop_self
    (hdrop : (responses x.nodeID).keys.drop (m.nodeIndices x.nodeID) = x.key :: tail) :
    Unread responses (mergePop responses m x rest) x.nodeID k ↔ k ∈ tail := by
  cases tail with
  | nil =>
    have hheap : (mergePop responses m x rest).heap = rest := (mergePop_nil hdrop).1
    refine iff_of_false ?_ List.not_mem_nil
    rintro ⟨⟨e, he, heq⟩, -⟩
    rw [hheap] at he
    exact h.ne_of_mem_rest hperm he heq
  | cons next tail =>
    have hheap : (mergePop responses m x rest).heap = ⟨next, x.nodeID⟩ :: rest :=
      (mergePop_cons hdrop).1
    have hindices : (mergePop responses m x rest).nodeIndices = _ := (mergePop_cons hdrop).2
    have hnext : (responses x.nodeID).keys.drop (m.nodeIndices x.nodeID + 1) = next :: tail := by
      rw [← List.drop_drop, hdrop]
      rfl
    rw [Unread, hheap, hindices, Function.update_self, hnext]
    exact and_iff_right ⟨_, List.mem_cons_self, rfl⟩

variable (hsorted : ∀ n ∈ nodes, (responses n).keys.Pairwise (· < ·))

include hsorted

/-- What the round does to cursors and to what is unread, for every node. -/
theorem MergeInv.unread_iff_mergePop : ∀ n ∈ nodes, ∀ k ∈ (responses n).keys,
    Unread responses (mergePop responses m x rest) n k ↔
      covered (mergePop responses m x rest).nodeCursors n k = false := by
  intro n hn k hk
  rw [mergePop_nodeCursors]
  by_cases heq : n = x.nodeID
  · subst heq
    obtain ⟨-, tail, hdrop⟩ := h.heap_head x (hperm.mem_iff.mpr List.mem_cons_self)
    rw [h.unread_mergePop_self hperm hdrop, mem_tail_iff_lt (hsorted _ hn) hdrop hk,
      covered_cons_self, decide_eq_false_iff_not, not_le]
  · rw [unread_mergePop_of_ne hperm heq, covered_cons_of_ne heq]
    exact h.unread_iff n hn k hk

/-- A key at or below the popped one was popped from the same node before, or is the same. -/
theorem MergeInv.covered_of_lt (hk : k ∈ (responses x.nodeID).keys) (hlt : k < x.key) :
    covered m.nodeCursors x.nodeID k = true := by
  obtain ⟨hn, tail, hdrop⟩ := h.heap_head x (hperm.mem_iff.mpr List.mem_cons_self)
  rw [← Bool.not_eq_false, ← h.unread_iff _ hn k hk]
  rintro ⟨-, hunread⟩
  rw [hdrop, List.mem_cons] at hunread
  rcases hunread with rfl | htail
  · exact lt_irrefl _ hlt
  · exact hlt.asymm ((mem_tail_iff_lt (hsorted _ hn) hdrop hk).mp htail)

/-- What was covered stays covered. -/
theorem MergeInv.covered_mergePop (hn : n ∈ nodes) (hk : k ∈ (responses n).keys)
    (hcovered : covered m.nodeCursors n k = true) :
    covered (mergePop responses m x rest).nodeCursors n k = true := by
  rw [← Bool.not_eq_false, ← h.unread_iff_mergePop hperm hsorted n hn k hk]
  rw [← Bool.not_eq_false, ← h.unread_iff n hn k hk] at hcovered
  intro hunread
  by_cases heq : n = x.nodeID
  · subst heq
    have hx := hperm.mem_iff.mpr (List.mem_cons_self (a := x))
    obtain ⟨-, tail, hdrop⟩ := h.heap_head x hx
    rw [h.unread_mergePop_self hperm hdrop] at hunread
    exact hcovered ⟨⟨x, hx, rfl⟩, hdrop ▸ List.mem_cons_of_mem _ hunread⟩
  · exact hcovered ((unread_mergePop_of_ne hperm heq).mp hunread)

omit hsorted in
lemma MergeInv.heap_nodup_mergePop :
    ((mergePop responses m x rest).heap.map HeapNode.nodeID).Nodup := by
  have hnodup := (hperm.map HeapNode.nodeID).nodup_iff.mp h.heap_nodup
  rw [List.map_cons] at hnodup
  obtain ⟨-, tail, hdrop⟩ := h.heap_head x (hperm.mem_iff.mpr List.mem_cons_self)
  cases tail with
  | nil =>
    rw [(mergePop_nil hdrop).1]
    exact (List.nodup_cons.mp hnodup).2
  | cons next tail =>
    rw [(mergePop_cons hdrop).1]
    exact hnodup

omit hsorted in
lemma MergeInv.heap_head_mergePop : ∀ e ∈ (mergePop responses m x rest).heap,
    e.nodeID ∈ nodes ∧ ∃ tail, (responses e.nodeID).keys.drop
      ((mergePop responses m x rest).nodeIndices e.nodeID) = e.key :: tail := by
  intro e he
  rcases mem_heap_mergePop he with hrest | ⟨hnode, hnext⟩
  · rw [mergePop_nodeIndices_of_ne (h.ne_of_mem_rest hperm hrest)]
    exact h.heap_head e (hperm.mem_iff.mpr (List.mem_cons_of_mem _ hrest))
  · obtain ⟨hn, tail, hdrop⟩ := h.heap_head x (hperm.mem_iff.mpr List.mem_cons_self)
    rw [hnode]
    refine ⟨hn, ?_⟩
    rw [getElem?_succ_of_drop hdrop] at hnext
    cases tail with
    | nil => simp at hnext
    | cons next tail =>
      simp only [List.head?_cons, Option.some.injEq] at hnext
      refine ⟨tail, ?_⟩
      rw [(mergePop_cons hdrop).2, Function.update_self, ← List.drop_drop, hdrop, ← hnext]
      rfl

omit hsorted in
lemma MergeInv.consumed_mergePop : ∀ n ∈ nodes,
    (∀ e ∈ (mergePop responses m x rest).heap, e.nodeID ≠ n) →
      (responses n).keys.length ≤ (mergePop responses m x rest).nodeIndices n + 1 := by
  intro n hn hnot
  by_cases heq : n = x.nodeID
  · subst heq
    obtain ⟨-, tail, hdrop⟩ := h.heap_head x (hperm.mem_iff.mpr List.mem_cons_self)
    cases tail with
    | nil =>
      rw [(mergePop_nil hdrop).2]
      have hlen := congrArg List.length hdrop
      simp only [List.length_drop, List.length_cons, List.length_nil] at hlen
      omega
    | cons next tail =>
      rw [(mergePop_cons hdrop).1] at hnot
      exact absurd rfl (hnot ⟨next, x.nodeID⟩ List.mem_cons_self)
  · rw [mergePop_nodeIndices_of_ne heq]
    refine h.consumed n hn fun e he hen => ?_
    have hstill : ∃ e ∈ (mergePop responses m x rest).heap, e.nodeID = n :=
      (exists_mem_heap_mergePop hperm heq).mpr ⟨e, he, hen⟩
    obtain ⟨e', he', hen'⟩ := hstill
    exact hnot e' he' hen'

omit hsorted in
lemma MergeInv.sorted_mergePop : (mergePop responses m x rest).keys.Pairwise (· < ·) := by
  rw [mergePop_keys]
  split
  · exact h.sorted
  · rename_i hnew
    refine List.pairwise_append.mpr ⟨h.sorted, List.pairwise_singleton _ _, ?_⟩
    intro k hk y hy
    rw [List.mem_singleton.mp hy]
    exact lt_of_le_of_ne (h.le_heap k hk x (hperm.mem_iff.mpr List.mem_cons_self))
      fun heq => hnew (heq ▸ hk)

/-- The popped key is the least of the heap, and the one that follows it at its node is above it. -/
theorem MergeInv.le_heap_mergePop (hleast : ∀ y ∈ rest, x.key ≤ y.key) :
    ∀ k ∈ (mergePop responses m x rest).keys, ∀ e ∈ (mergePop responses m x rest).heap,
      k ≤ e.key := by
  intro k hk e he
  have hx : x ∈ m.heap := hperm.mem_iff.mpr List.mem_cons_self
  obtain ⟨hn, tail, hdrop⟩ := h.heap_head x hx
  have hkx : k ≤ x.key := by
    rcases mem_keys_mergePop.mp hk with hold | rfl
    · exact h.le_heap k hold x hx
    · exact le_rfl
  refine hkx.trans ?_
  rcases mem_heap_mergePop he with hrest | ⟨-, hnext⟩
  · exact hleast e hrest
  · rw [getElem?_succ_of_drop hdrop] at hnext
    have htail : e.key ∈ tail := List.mem_of_mem_head? hnext
    exact ((mem_tail_iff_lt (hsorted _ hn) hdrop
      (List.mem_of_mem_drop (hdrop ▸ List.mem_cons_of_mem _ htail))).mp htail).le

lemma MergeInv.mem_of_covered_mergePop : ∀ n ∈ nodes, ∀ k ∈ (responses n).keys,
    covered (mergePop responses m x rest).nodeCursors n k = true →
      k ∈ (mergePop responses m x rest).keys := by
  intro n hn k hk hcov
  rw [mem_keys_mergePop]
  by_cases heq : n = x.nodeID
  · subst heq
    rw [mergePop_nodeCursors, covered_cons_self, decide_eq_true_eq] at hcov
    rcases hcov.lt_or_eq with hlt | rfl
    · exact .inl (h.mem_of_covered _ hn k hk (h.covered_of_lt hperm hsorted hk hlt))
    · exact .inr rfl
  · rw [mergePop_nodeCursors, covered_cons_of_ne heq] at hcov
    exact .inl (h.mem_of_covered n hn k hk hcov)

omit hsorted in
/-- Only a new key can fill the page, and all other cursors are below it. -/
theorem MergeInv.last_unique_mergePop (hlt : m.keys.length < limit)
    (hfull : (mergePop responses m x rest).keys.length = limit) :
    ∃ n₀, ∀ n c, (mergePop responses m x rest).nodeCursors.lookup n = some c →
      (∀ k ∈ (mergePop responses m x rest).keys, k ≤ c) → n = n₀ := by
  have hnew : x.key ∉ m.keys := by
    intro hold
    rw [mergePop_keys, if_pos hold] at hfull
    omega
  refine ⟨x.nodeID, fun n c hc hlast => ?_⟩
  by_contra hne
  have hbeq : (n == x.nodeID) = false := beq_eq_false_iff_ne.mpr hne
  rw [mergePop_nodeCursors, List.lookup_cons, hbeq] at hc
  have hmem := (h.cursor_mem n c hc).2.2
  have hle : c ≤ x.key := h.le_heap c hmem x (hperm.mem_iff.mpr List.mem_cons_self)
  exact hnew (le_antisymm (hlast _ (mem_keys_mergePop.mpr (.inr rfl))) hle ▸ hmem)

/-- One round keeps the invariant. -/
theorem mergeInv_mergePop (hleast : ∀ y ∈ rest, x.key ≤ y.key) (hlt : m.keys.length < limit) :
    MergeInv nodes responses limit (mergePop responses m x rest) := by
  obtain ⟨hn, tail, hdrop⟩ := h.heap_head x (hperm.mem_iff.mpr List.mem_cons_self)
  have hxkeys : x.key ∈ (responses x.nodeID).keys :=
    List.mem_of_mem_drop (hdrop ▸ List.mem_cons_self)
  have hcovered : covered (mergePop responses m x rest).nodeCursors x.nodeID x.key = true := by
    rw [mergePop_nodeCursors, covered_cons_self]
    simp
  exact {
    heap_nodup := h.heap_nodup_mergePop hperm
    heap_head := h.heap_head_mergePop hperm
    consumed := h.consumed_mergePop hperm
    unread_iff := h.unread_iff_mergePop hperm hsorted
    sorted := h.sorted_mergePop hperm
    le_heap := h.le_heap_mergePop hperm hsorted hleast
    mem_of_covered := h.mem_of_covered_mergePop hperm hsorted
    cursor_mem := by
      intro n c hc
      rw [mergePop_nodeCursors, List.lookup_cons] at hc
      split at hc
      · rename_i heq
        obtain rfl : x.key = c := by simpa using hc
        rw [beq_iff_eq.mp heq]
        exact ⟨hn, hxkeys, mem_keys_mergePop.mpr (.inr rfl)⟩
      · obtain ⟨hn', hc', hmem⟩ := h.cursor_mem n c hc
        exact ⟨hn', hc', mem_keys_mergePop.mpr (.inl hmem)⟩
    origin := by
      intro k hk
      rcases mem_keys_mergePop.mp hk with hold | rfl
      · obtain ⟨n, hn', hk', hcov⟩ := h.origin k hold
        exact ⟨n, hn', hk', h.covered_mergePop hperm hsorted hn' hk' hcov⟩
      · exact ⟨x.nodeID, hn, hxkeys, hcovered⟩
    length_le := by
      rw [mergePop_keys]
      split
      · exact hlt.le
      · rw [List.length_append]
        exact hlt
    last_unique := h.last_unique_mergePop hperm hlt }

end Pop

/-! ### All rounds -/

/-- The number of keys that are unread. -/
def pending (responses : String → NodeResponse) (m : MergeState) : Nat :=
  (m.heap.map fun e => ((responses e.nodeID).keys.drop (m.nodeIndices e.nodeID)).length).sum

lemma MergeInv.pending_mergePop {m : MergeState} (h : MergeInv nodes responses limit m)
    {x : HeapNode} {rest : List HeapNode} (hperm : m.heap.Perm (x :: rest)) :
    pending responses (mergePop responses m x rest) + 1 = pending responses m := by
  obtain ⟨-, tail, hdrop⟩ := h.heap_head x (hperm.mem_iff.mpr List.mem_cons_self)
  have hbefore : pending responses m = tail.length + 1 +
      (rest.map fun e => ((responses e.nodeID).keys.drop (m.nodeIndices e.nodeID)).length).sum := by
    rw [pending, (hperm.map _).sum_nat, List.map_cons, List.sum_cons, hdrop, List.length_cons]
  -- The indices of the other nodes do not move.
  have hrest : (rest.map fun e => ((responses e.nodeID).keys.drop
        ((mergePop responses m x rest).nodeIndices e.nodeID)).length) =
      rest.map fun e => ((responses e.nodeID).keys.drop (m.nodeIndices e.nodeID)).length := by
    refine List.map_congr_left fun e he => ?_
    rw [mergePop_nodeIndices_of_ne (h.ne_of_mem_rest hperm he)]
  have hafter : pending responses (mergePop responses m x rest) = tail.length +
      (rest.map fun e => ((responses e.nodeID).keys.drop
        ((mergePop responses m x rest).nodeIndices e.nodeID)).length).sum := by
    cases tail with
    | nil =>
      rw [pending, (mergePop_nil hdrop).1, List.length_nil, Nat.zero_add]
    | cons next tail =>
      rw [pending, (mergePop_cons hdrop).1, List.map_cons, List.sum_cons]
      congr 1
      rw [(mergePop_cons hdrop).2, Function.update_self, ← List.drop_drop, hdrop]
      rfl
  rw [hbefore, hafter, hrest]
  omega

/-- With a round for every unread key, the loop ends because the page is full or the heap empty. -/
theorem mergeInv_mergeLoop (hsorted : ∀ n ∈ nodes, (responses n).keys.Pairwise (· < ·)) :
    ∀ (fuel : Nat) (m : MergeState), MergeInv nodes responses limit m →
      pending responses m ≤ fuel →
      MergeInv nodes responses limit (mergeLoop minHeap responses limit fuel m) ∧
        ((mergeLoop minHeap responses limit fuel m).heap = [] ∨
          (mergeLoop minHeap responses limit fuel m).keys.length = limit) := by
  intro fuel
  induction fuel with
  | zero =>
    intro m h hfuel
    rw [mergeLoop]
    refine ⟨h, .inl (List.eq_nil_iff_forall_not_mem.mpr fun e he => ?_)⟩
    -- Every entry on the heap has an unread key.
    obtain ⟨-, rest, hdrop⟩ := h.heap_head e he
    have hle := List.le_sum_of_mem (List.mem_map_of_mem (f := fun e : HeapNode =>
      ((responses e.nodeID).keys.drop (m.nodeIndices e.nodeID)).length) he)
    rw [hdrop, List.length_cons] at hle
    have : pending responses m = 0 := Nat.le_zero.mp hfuel
    rw [pending] at this
    omega
  | succ fuel ih =>
    intro m h hfuel
    rw [mergeLoop]
    split
    · rename_i hlt
      split
      · rename_i x rest hpop
        have hperm := minHeap.perm _ _ _ hpop
        refine ih _ (mergeInv_mergePop h hperm hsorted (minHeap.least _ _ _ hpop) hlt) ?_
        have := h.pending_mergePop hperm
        omega
      · rename_i hpop
        exact ⟨h, .inl (minHeap.eq_nil _ hpop)⟩
    · rename_i hge
      exact ⟨h, .inr (le_antisymm h.length_le (not_lt.mp hge))⟩

lemma pending_mergeInit_le :
    pending responses (mergeInit nodes responses) ≤
      (nodes.map fun n => (responses n).keys.length).sum := by
  unfold pending mergeInit
  dsimp only
  induction nodes with
  | nil => simp
  | cons n nodes ih =>
    rw [List.filterMap_cons]
    cases (responses n).keys.head? with
    | none =>
      simp only [Option.map_none, List.map_cons, List.sum_cons]
      omega
    | some k =>
      simp only [Option.map_some, List.map_cons, List.sum_cons, List.drop_zero] at ih ⊢
      omega

end Loop

end OCache.Listing
