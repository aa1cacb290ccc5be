import OCache.Listing.KWayMerge

/-!
# What one page of a cluster listing contains

`kWayMerge_spec` says what the merge returns when every node answers with its first keys after a
start key. The page is the first part of the union. The cursors cover every copy of every key of the
page except the last one: the loop ends with the copy of the last key that fills the page, and the
other copies of that key stay behind.
-/

namespace OCache.Listing

open Pages

/-! ## The page -/

/-- What the merge returns when each node answers with its first keys of `avail`. -/
structure PageSpec (nodes : List String) (avail : String → List String) (limit : Nat)
    (r : MergeResult) : Prop where
  first : FirstOf limit {k | ∃ n ∈ {n | n ∈ nodes}, k ∈ {k | k ∈ avail n}} r.keys
  cursor_mem : ∀ n c, r.nodeCursors.lookup n = some c → n ∈ nodes ∧ c ∈ avail n ∧ c ∈ r.keys
  mem_of_covered : ∀ n ∈ nodes, ∀ k ∈ avail n, covered r.nodeCursors n k = true → k ∈ r.keys
  origin : ∀ x ∈ r.keys, ∃ n ∈ nodes, x ∈ avail n ∧ covered r.nodeCursors n x = true
  of_not_covered : ∀ n ∈ nodes, ∀ k ∈ avail n, covered r.nodeCursors n k = false →
    r.keys.length = limit ∧ ∀ x ∈ r.keys, x ≤ k
  last_unique : r.keys.length = limit → ∃ n₀, ∀ n c, r.nodeCursors.lookup n = some c →
    (∀ x ∈ r.keys, x ≤ c) → n = n₀
  hasMore_iff : r.hasMore = true ↔ ∃ n ∈ nodes, ∃ k ∈ avail n, covered r.nodeCursors n k = false

section Page

variable {nodes : List String} {avail : String → List String} {limit : Nat} {m : MergeState}

variable {k : String} {responses : String → NodeResponse}

/-- An unread key of a response is at or above an entry of the heap. -/
theorem MergeInv.exists_heap_le (h : MergeInv nodes responses limit m)
    (hsorted : ∀ n ∈ nodes, (responses n).keys.Pairwise (· < ·)) {n : String} (hn : n ∈ nodes)
    (hk : k ∈ (responses n).keys) (hcov : covered m.nodeCursors n k = false) :
    ∃ e ∈ m.heap, e.key ≤ k := by
  obtain ⟨⟨e, he, rfl⟩, hunread⟩ := (h.unread_iff n hn k hk).mpr hcov
  obtain ⟨-, rest, hdrop⟩ := h.heap_head e he
  refine ⟨e, he, ?_⟩
  rw [hdrop, List.mem_cons] at hunread
  rcases hunread with rfl | htail
  · exact le_rfl
  · exact ((mem_tail_iff_lt (hsorted _ hn) hdrop hk).mp htail).le

/-- The last key of a non-empty sorted list is its greatest. -/
theorem getLastD_spec {l : List String} (hl : l.Pairwise (· < ·)) (hk : k ∈ l) :
    l.getLastD "" ∈ l ∧ ∀ x ∈ l, x ≤ l.getLastD "" := by
  have hne := List.ne_nil_of_mem hk
  rw [List.getLastD_eq_getLast?, List.getLast?_eq_some_getLast hne, Option.getD_some]
  refine ⟨List.getLast_mem hne, fun x hx => ?_⟩
  rw [← List.dropLast_append_getLast hne] at hl hx
  rcases List.mem_append.mp hx with hx | hx
  · exact ((List.pairwise_append.mp hl).2.2 x hx _ (List.mem_singleton_self _)).le
  · exact (List.mem_singleton.mp hx).le

lemma mergeFinish_keys {m : MergeState} : (mergeFinish nodes responses m).keys = m.keys := by
  unfold mergeFinish
  split <;> rfl

/-- Cursors that are there already can be set again. -/
theorem lookup_foldl_cursors {token : String → String} (ns : List String) (cursors : Cursors)
    (h : ∀ n ∈ ns, token n ≠ "" → cursors.lookup n = some (token n)) (n : String) :
    (ns.foldl (fun cursors n => if token n = "" then cursors else (n, token n) :: cursors)
      cursors).lookup n = cursors.lookup n := by
  induction ns generalizing cursors with
  | nil => rfl
  | cons n' ns ih =>
    rw [List.foldl_cons]
    by_cases htoken : token n' = ""
    · rw [if_pos htoken]
      exact ih cursors fun n'' hn'' => h n'' (List.mem_cons_of_mem _ hn'')
    · rw [if_neg htoken]
      have hsame : ∀ n'', ((n', token n') :: cursors).lookup n'' = cursors.lookup n'' := by
        intro n''
        rw [List.lookup_cons]
        split
        · rename_i heq
          rw [beq_iff_eq.mp heq, h n' List.mem_cons_self htoken]
        · rfl
      rw [ih _ fun n'' hn'' hne => ?_, hsame]
      rw [hsame, h n'' (List.mem_cons_of_mem _ hn'') hne]

section Finish

variable (hsorted : ∀ n ∈ nodes, (avail n).Pairwise (· < ·))
  (h : MergeInv nodes (fun n => .ofKeys limit (avail n)) limit m)

include hsorted h

/-- `mergeFinish` leaves the cursors as they are: a response that is used up was read to its end. -/
theorem MergeInv.lookup_mergeFinish (n : String) :
    (mergeFinish nodes (fun n => .ofKeys limit (avail n)) m).nodeCursors.lookup n =
      m.nodeCursors.lookup n := by
  unfold mergeFinish
  split
  · rename_i hempty
    refine lookup_foldl_cursors _ _ (fun n hn htoken => ?_) n
    have hmem : n ∈ nodes := List.mem_of_mem_filter hn
    have hkeys : ((avail n).take limit).Pairwise (· < ·) :=
      (hsorted n hmem).sublist (List.take_sublist _ _)
    obtain ⟨k, hk⟩ : ∃ k, k ∈ (avail n).take limit := by
      refine List.exists_mem_of_ne_nil _ fun hnil => htoken ?_
      simp [NodeResponse.ofKeys, hnil]
    obtain ⟨hlast, hgreatest⟩ := getLastD_spec hkeys hk
    have htok : (NodeResponse.ofKeys limit (avail n)).continuationToken =
        ((avail n).take limit).getLastD "" := by
      have hmore : limit < (avail n).length := by
        by_contra hnot
        exact htoken (by simp [NodeResponse.ofKeys, hnot])
      simp [NodeResponse.ofKeys, hmore]
    -- The heap is empty, so the last key was read; a cursor is not after the last key.
    have hcovered : covered m.nodeCursors n (((avail n).take limit).getLastD "") = true := by
      by_contra hnot
      have hunread := (h.unread_iff n hmem _ hlast).mpr (by simpa using hnot)
      obtain ⟨⟨e, he, -⟩, -⟩ := hunread
      simp [List.isEmpty_iff.mp hempty] at he
    rw [htok]
    unfold covered at hcovered
    split at hcovered
    · simp at hcovered
    · rename_i c hc
      rw [hc, le_antisymm (hgreatest c (h.cursor_mem n c hc).2.1) (by simpa using hcovered)]
  · rfl

lemma MergeInv.covered_mergeFinish (n k : String) :
    covered (mergeFinish nodes (fun n => .ofKeys limit (avail n)) m).nodeCursors n k =
      covered m.nodeCursors n k := by
  rw [covered, covered, h.lookup_mergeFinish hsorted]

variable (hstop : m.heap = [] ∨ m.keys.length = limit)

include hstop

lemma MergeInv.firstOf_keys :
    FirstOf limit {k | ∃ n ∈ {n | n ∈ nodes}, k ∈ (avail n).take limit} m.keys where
  sorted := h.sorted
  subset x hx := by
    obtain ⟨n, hn, hk, -⟩ := h.origin x hx
    exact ⟨n, hn, hk⟩
  length_le := h.length_le
  least := by
    rintro k ⟨n, hn, hk⟩ hnot
    have hcov : covered m.nodeCursors n k = false := by
      by_contra hcov
      exact hnot (h.mem_of_covered n hn k hk (by simpa using hcov))
    obtain ⟨e, he, hle⟩ := h.exists_heap_le
      (fun n hn => (hsorted n hn).sublist (List.take_sublist _ _)) hn hk hcov
    refine ⟨hstop.resolve_left (List.ne_nil_of_mem he), fun x hx => ?_⟩
    exact lt_of_le_of_ne ((h.le_heap x hx e he).trans hle) fun heq => hnot (heq ▸ hx)

/-- If a node still has a key to give, the page is full and does not go past that key. -/
theorem MergeInv.of_not_covered {n k : String} (hn : n ∈ nodes) (hk : k ∈ avail n)
    (hcov : covered m.nodeCursors n k = false) : m.keys.length = limit ∧ ∀ x ∈ m.keys, x ≤ k := by
  have htake : ∀ n ∈ nodes, ((avail n).take limit).Pairwise (· < ·) :=
    fun n hn => (hsorted n hn).sublist (List.take_sublist _ _)
  -- First for the keys in the response of the node.
  have hinside : ∀ y ∈ (avail n).take limit, covered m.nodeCursors n y = false →
      m.keys.length = limit ∧ ∀ x ∈ m.keys, x ≤ y := by
    intro y hy hycov
    obtain ⟨e, he, hle⟩ := h.exists_heap_le htake hn hy hycov
    exact ⟨hstop.resolve_left (List.ne_nil_of_mem he),
      fun x hx => (h.le_heap x hx e he).trans hle⟩
  by_cases hmem : k ∈ (avail n).take limit
  · exact hinside k hmem hcov
  · -- The response is full and ends before `k`: it is the page, or one of its keys is unread.
    obtain ⟨hlen, hbelow⟩ := (firstOf_take (hsorted n hn) limit).least k hk hmem
    by_cases hall : ∀ y ∈ (avail n).take limit, covered m.nodeCursors n y = true
    · have hsub : (avail n).take limit ⊆ m.keys :=
        fun y hy => h.mem_of_covered n hn y hy (hall y hy)
      have hnodup := nodup_of_sorted (htake n hn)
      refine ⟨le_antisymm h.length_le ?_, fun x hx => ?_⟩
      · exact hlen ▸ (List.subperm_of_subset hnodup hsub).length_le
      · exact (hbelow x ((h.firstOf_keys hsorted hstop).mem_of_subset hnodup hlen hsub hx)).le
    · push Not at hall
      obtain ⟨y, hy, hycov⟩ := hall
      obtain ⟨hfull, hle⟩ := hinside y hy (by simpa using hycov)
      exact ⟨hfull, fun x hx => (hle x hx).trans (hbelow y hy).le⟩

omit hstop in
lemma MergeInv.hasMore_mergeFinish :
    (mergeFinish nodes (fun n => .ofKeys limit (avail n)) m).hasMore = true ↔
      ∃ n ∈ nodes, ∃ k ∈ avail n, covered m.nodeCursors n k = false := by
  by_cases hheap : m.heap = []
  · have hunread : ∀ n ∈ nodes, ∀ k ∈ (avail n).take limit, covered m.nodeCursors n k = true := by
      intro n hn k hk
      by_contra hcov
      obtain ⟨⟨e, he, -⟩, -⟩ := (h.unread_iff n hn k hk).mpr (by simpa using hcov)
      simp [hheap] at he
    simp only [mergeFinish, hheap, List.isEmpty_nil, if_true, Bool.not_eq_true',
      List.isEmpty_eq_false_iff_exists_mem, usedUp, List.mem_filter, Bool.and_eq_true,
      decide_eq_true_eq, NodeResponse.ofKeys]
    constructor
    · -- A node with more than a response has a key after its cursor.
      rintro ⟨n, hn, hmore, -⟩
      have hk : (avail n).get ⟨limit, hmore⟩ ∈ avail n := List.get_mem _ _
      refine ⟨n, hn, _, hk, ?_⟩
      unfold covered
      split
      · rfl
      · rename_i c hc
        have hnot : (avail n).get ⟨limit, hmore⟩ ∉ (avail n).take limit := by
          have hsplit := nodup_of_sorted (hsorted n hn)
          rw [← List.take_append_drop limit (avail n), List.nodup_append] at hsplit
          refine fun hin => hsplit.2.2 _ hin _ ?_ rfl
          rw [List.drop_eq_getElem_cons hmore]
          exact List.mem_cons_self
        have hlt := ((firstOf_take (hsorted n hn) limit).least _ hk hnot).2 c
          (h.cursor_mem n c hc).2.1
        simpa using hlt
    · rintro ⟨n, hn, k, hk, hcov⟩
      have hnot : k ∉ (avail n).take limit := by
        intro hmem
        rw [hunread n hn k hmem] at hcov
        contradiction
      refine ⟨n, hn, ?_, decide_eq_true (h.consumed n hn (by simp [hheap]))⟩
      by_contra hle
      exact hnot (by rwa [List.take_of_length_le (not_lt.mp hle)])
  · refine iff_of_true ?_ ?_
    · simp [mergeFinish, List.isEmpty_iff, hheap]
    · obtain ⟨e, he⟩ := List.exists_mem_of_ne_nil _ hheap
      obtain ⟨hn, rest, hdrop⟩ := h.heap_head e he
      have hunread : e.key ∈ ((avail e.nodeID).take limit).drop (m.nodeIndices e.nodeID) := by
        rw [show ((avail e.nodeID).take limit).drop _ = _ from hdrop]
        exact List.mem_cons_self
      have hmem := List.mem_of_mem_drop hunread
      exact ⟨e.nodeID, hn, e.key, List.mem_of_mem_take hmem,
        (h.unread_iff _ hn _ hmem).mp ⟨⟨e, he, rfl⟩, hunread⟩⟩

end Finish

/-- The page is the first part of the union of what the nodes have, and the cursors cover all of it
except, if the page is full, the copies of its last key. -/
theorem kWayMerge_spec (minHeap : MinHeap) (hnodup : nodes.Nodup)
    (hsorted : ∀ n ∈ nodes, (avail n).Pairwise (· < ·)) :
    PageSpec nodes avail limit
      (kWayMerge minHeap nodes (fun n => .ofKeys limit (avail n)) limit) := by
  have htake : ∀ n ∈ nodes, ((avail n).take limit).Pairwise (· < ·) :=
    fun n hn => (hsorted n hn).sublist (List.take_sublist _ _)
  obtain ⟨h, hstop⟩ := @mergeInv_mergeLoop minHeap nodes (fun n => .ofKeys limit (avail n)) limit
    htake _ _ (mergeInv_mergeInit hnodup) pending_mergeInit_le
  -- `mergeFinish` changes neither the keys nor any cursor.
  have hkeys := @mergeFinish_keys nodes (fun n => .ofKeys limit (avail n))
  have hlookup := h.lookup_mergeFinish hsorted
  have hcovered := h.covered_mergeFinish hsorted
  rw [kWayMerge]
  refine ⟨?_, ?_, ?_, ?_, ?_, ?_, ?_⟩
  · rw [hkeys]
    exact (h.firstOf_keys hsorted hstop).of_parts fun n hn => firstOf_take (hsorted n hn) limit
  · intro n c hc
    rw [hlookup] at hc
    obtain ⟨hn, hmem, hin⟩ := h.cursor_mem n c hc
    exact ⟨hn, List.mem_of_mem_take hmem, hkeys ▸ hin⟩
  · intro n hn k hk hcov
    rw [hcovered] at hcov
    rw [hkeys]
    by_cases hmem : k ∈ (avail n).take limit
    · exact h.mem_of_covered n hn k hmem hcov
    · -- A cursor is in the response, so before `k`.
      unfold covered at hcov
      split at hcov
      · simp at hcov
      · rename_i c hc
        have hlt := ((firstOf_take (hsorted n hn) limit).least k hk hmem).2 c
          (h.cursor_mem n c hc).2.1
        exact absurd (by simpa using hcov) hlt.not_ge
  · intro x hx
    rw [hkeys] at hx
    obtain ⟨n, hn, hmem, hcov⟩ := h.origin x hx
    exact ⟨n, hn, List.mem_of_mem_take hmem, by rw [hcovered]; exact hcov⟩
  · intro n hn k hk hcov
    rw [hcovered] at hcov
    rw [hkeys]
    exact h.of_not_covered hsorted hstop hn hk hcov
  · rw [hkeys]
    simp only [hlookup]
    exact h.last_unique
  · simp only [hcovered]
    exact h.hasMore_mergeFinish hsorted

end Page

end OCache.Listing
