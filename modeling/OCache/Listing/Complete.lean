import OCache.Listing.ListPage

/-!
# When a cluster listing is complete

After a page the cursors are aligned if they cover exactly the keys listed so far. From aligned
cursors the next page is the next part of the sorted union. The cursors stay aligned exactly if the
last key of a full page is on one node and every node that had a key before has one on this page;
cursors that are not aligned list a key again.
-/

namespace OCache.Listing

open Pages

/-! ## Parts of a sorted list -/

section Sorted

variable {u : List String} (hu : u.Pairwise (· < ·)) {i size : Nat} {k key : String}

include hu

lemma mem_drop_iff_of_sorted (hk : k ∈ u) : k ∈ u.drop i ↔ k ∉ u.take i := by
  have hnodup := nodup_of_sorted hu
  rw [← List.take_append_drop i u] at hk hnodup
  refine ⟨fun hdrop htake => ?_, (List.mem_append.mp hk).resolve_left⟩
  exact (List.nodup_append.mp hnodup).2.2 k htake k hdrop rfl

lemma mem_take_of_le {x : String} (hx : x ∈ u.take i) (hk : k ∈ u) (hle : k ≤ x) :
    k ∈ u.take i := by
  by_contra hnot
  exact (((firstOf_take hu i).least k hk hnot).2 x hx).not_ge hle

/-- The key at the end of a full page is its greatest. -/
theorem last_spec (hsize : 0 < size) (hkey : u[i + size - 1]? = some key) :
    key ∈ (u.drop i).take size ∧ ((u.drop i).take size).length = size ∧
      ∀ x ∈ (u.drop i).take size, x ≤ key := by
  obtain ⟨hlt, hget⟩ := List.getElem?_eq_some_iff.mp hkey
  have hlen : ((u.drop i).take size).length = size := by
    rw [List.length_take, List.length_drop]
    omega
  have hlast : ((u.drop i).take size)[size - 1]? = some key := by
    rw [List.getElem?_take_of_lt (by omega), List.getElem?_drop, ← hkey]
    congr 1
    omega
  have hpage : ((u.drop i).take size).Pairwise (· < ·) :=
    (hu.sublist (List.drop_sublist _ _)).sublist (List.take_sublist _ _)
  refine ⟨List.mem_of_getElem? hlast, hlen, fun x hx => ?_⟩
  obtain ⟨a, ha, rfl⟩ := List.getElem_of_mem hx
  obtain ⟨hb, hgetLast⟩ := List.getElem?_eq_some_iff.mp hlast
  rw [← hgetLast]
  rcases Nat.lt_or_eq_of_le (Nat.le_sub_one_of_lt (hlen ▸ ha)) with hlt | heq
  · exact (List.pairwise_iff_getElem.mp hpage a (size - 1) ha hb hlt).le
  · simp [heq]

omit hu in
lemma exists_last (hsize : 0 < size) (hlen : ((u.drop i).take size).length = size) :
    ∃ key, u[i + size - 1]? = some key := by
  rw [List.length_take, List.length_drop] at hlen
  exact ⟨_, List.getElem?_eq_getElem (by omega)⟩

end Sorted

/-! ## Aligned cursors -/

section Aligned

variable {c : Cluster} {pre : String} {limit : Int} (minHeap : MinHeap) {cursors : Cursors}
  {i j : Nat} {n k : String}

/-- The cursors cover the first `i` keys of the union. -/
def Aligned (c : Cluster) (pre : String) (cursors : Cursors) (i : Nat) : Prop :=
  ∀ n ∈ c.nodes, ∀ k ∈ c.held pre n, covered cursors n k = true ↔ k ∈ (c.union pre).take i

lemma aligned_nil : Aligned c pre [] 0 := by
  intro n _ k _
  simp [covered]

lemma mem_union_of_held (hn : n ∈ c.nodes) (hk : k ∈ c.held pre n) : k ∈ c.union pre :=
  mem_union.mpr ⟨n, hn, hk⟩

lemma mem_take_add {u : List String} {m : Nat} (hk : k ∈ (u.drop i).take m) :
    k ∈ u.take (i + m) := by
  rw [List.take_add]
  exact List.mem_append_right _ hk

section

variable (h : Aligned c pre cursors i)

include h

lemma Aligned.mem_after_iff (hn : n ∈ c.nodes) :
    k ∈ c.after pre cursors n ↔ k ∈ c.held pre n ∧ k ∈ (c.union pre).drop i := by
  rw [mem_after]
  refine and_congr_right fun hk => ?_
  rw [mem_drop_iff_of_sorted sorted_union (mem_union_of_held hn hk), ← h n hn k hk,
    Bool.not_eq_true]

/-- From aligned cursors the page is the next part of the union. -/
theorem Aligned.page_keys :
    (c.page pre limit minHeap cursors).keys =
      ((c.union pre).drop i).take (effectiveLimit limit) := by
  refine (page_spec minHeap cursors).first.eq_take
    (sorted_union.sublist (List.drop_sublist _ _)) fun k => ?_
  constructor
  · rintro ⟨n, hn, hk⟩
    exact ((h.mem_after_iff hn).mp hk).2
  · intro hk
    obtain ⟨n, hn, hheld⟩ := mem_union.mp (List.mem_of_mem_drop hk)
    exact ⟨n, hn, (h.mem_after_iff hn).mpr ⟨hheld, hk⟩⟩

/-- The cursors after the page cover no more than the pages so far. -/
theorem Aligned.mem_take_of_covered (hn : n ∈ c.nodes) (hk : k ∈ c.held pre n)
    (hcov : covered (c.page pre limit minHeap cursors).nodeCursors n k = true) :
    k ∈ (c.union pre).take (i + effectiveLimit limit) := by
  unfold covered at hcov
  split at hcov
  · simp at hcov
  · rename_i cursor hcursor
    have hmem := ((page_spec minHeap cursors).cursor_mem n cursor hcursor).2.2
    rw [h.page_keys minHeap] at hmem
    exact mem_take_of_le sorted_union (mem_take_add hmem) (mem_union_of_held hn hk)
      (by simpa using hcov)

end

lemma mem_holders {key : String} : n ∈ c.holders pre key ↔ n ∈ c.nodes ∧ key ∈ c.held pre n := by
  simp [Cluster.holders]

lemma uniqueAtEnd_iff {size : Nat} :
    UniqueAtEnd c pre size j ↔ ∀ key, (c.union pre)[(j + 1) * size - 1]? = some key →
      ∀ n ∈ c.nodes, ∀ n' ∈ c.nodes, key ∈ c.held pre n → key ∈ c.held pre n' → n = n' := by
  unfold UniqueAtEnd
  cases hkey : (c.union pre)[(j + 1) * size - 1]? with
  | none => simp
  | some key =>
    simp only [Option.all_some, decide_eq_true_eq, Option.some.injEq, forall_eq',
      List.length_eq_one_iff]
    constructor
    · rintro ⟨a, ha⟩ n hn n' hn' hk hk'
      have hmem := mem_holders.mpr ⟨hn, hk⟩
      have hmem' := mem_holders.mpr ⟨hn', hk'⟩
      rw [ha, List.mem_singleton] at hmem hmem'
      rw [hmem, hmem']
    · intro hunique
      obtain ⟨n, hn, hk⟩ := mem_union.mp (List.mem_of_getElem? hkey)
      refine ⟨n, List.perm_singleton.mp ?_⟩
      refine (List.perm_ext_iff_of_nodup (c.nodup.filter _) (List.nodup_singleton n)).mpr ?_
      intro n'
      rw [List.mem_singleton, ← Cluster.holders, mem_holders]
      constructor
      · rintro ⟨hn', hk'⟩
        exact hunique n' hn' n hn hk' hk
      · rintro rfl
        exact ⟨hn, hk⟩

section Next

variable (h : Aligned c pre cursors (j * effectiveLimit limit))

include h

/-- A key that is left behind on some node is the last key of a full page. -/
theorem Aligned.last_of_not_covered (hn : n ∈ c.nodes) (hheld : k ∈ c.held pre n)
    (hk : k ∈ ((c.union pre).drop (j * effectiveLimit limit)).take (effectiveLimit limit))
    (hcov : covered (c.page pre limit minHeap cursors).nodeCursors n k = false) :
    (c.union pre)[(j + 1) * effectiveLimit limit - 1]? = some k := by
  have hafter : k ∈ c.after pre cursors n :=
    (h.mem_after_iff hn).mpr ⟨hheld, List.mem_of_mem_take hk⟩
  obtain ⟨hfull, hle⟩ := (page_spec minHeap cursors).of_not_covered n hn k hafter hcov
  rw [h.page_keys minHeap] at hfull hle
  obtain ⟨key, hkey⟩ := exists_last (effectiveLimit_pos limit) hfull
  obtain ⟨hmem, -, hgreatest⟩ := last_spec sorted_union (effectiveLimit_pos limit) hkey
  rw [Nat.succ_mul, hkey, le_antisymm (hle key hmem) (hgreatest k hk)]

lemma Aligned.covered_of_unique (hunique : UniqueAtEnd c pre (effectiveLimit limit) j)
    (hn : n ∈ c.nodes) (hheld : k ∈ c.held pre n)
    (hk : k ∈ ((c.union pre).drop (j * effectiveLimit limit)).take (effectiveLimit limit)) :
    covered (c.page pre limit minHeap cursors).nodeCursors n k = true := by
  by_contra hcov
  rw [Bool.not_eq_true] at hcov
  have hlast := h.last_of_not_covered minHeap hn hheld hk hcov
  -- The copy of the last key that is on the page came from some node, so from this one.
  rw [← h.page_keys minHeap] at hk
  obtain ⟨n', hn', hafter, hcov'⟩ := (page_spec minHeap cursors).origin k hk
  rw [uniqueAtEnd_iff.mp hunique k hlast n hn n' hn' hheld (mem_after.mp hafter).1, hcov'] at hcov
  contradiction

/-- If all copies of the page's keys are covered, its last key is on one node. -/
theorem Aligned.unique_of_covered
    (hall : ∀ n ∈ c.nodes, ∀ k ∈ c.held pre n,
      k ∈ ((c.union pre).drop (j * effectiveLimit limit)).take (effectiveLimit limit) →
        covered (c.page pre limit minHeap cursors).nodeCursors n k = true) :
    UniqueAtEnd c pre (effectiveLimit limit) j := by
  refine uniqueAtEnd_iff.mpr fun key hkey n hn n' hn' hk hk' => ?_
  rw [Nat.succ_mul] at hkey
  obtain ⟨hmem, hlen, hgreatest⟩ := last_spec sorted_union (effectiveLimit_pos limit) hkey
  rw [← h.page_keys minHeap] at hlen hgreatest
  obtain ⟨n₀, honly⟩ := (page_spec minHeap cursors).last_unique hlen
  -- A node that covers the last key has its cursor there.
  have hcursor : ∀ m ∈ c.nodes, key ∈ c.held pre m → m = n₀ := by
    intro m hm hheld
    have hcov := hall m hm key hheld hmem
    unfold covered at hcov
    split at hcov
    · simp at hcov
    · rename_i cursor hlookup
      exact honly m cursor hlookup fun x hx =>
        (hgreatest x hx).trans (by simpa using hcov)
  rw [hcursor n hn hk, hcursor n' hn' hk']

/-- When the cursors after a page are aligned again. -/
theorem Aligned.next_iff :
    Aligned c pre (c.page pre limit minHeap cursors).nodeCursors ((j + 1) * effectiveLimit limit) ↔
      UniqueAtEnd c pre (effectiveLimit limit) j ∧ RenewsCursors c pre (effectiveLimit limit) j := by
  rw [Nat.succ_mul]
  constructor
  · intro hnext
    refine ⟨h.unique_of_covered minHeap fun n hn k hheld hk =>
      (hnext n hn k hheld).mpr (mem_take_add hk), ?_⟩
    rintro n hn ⟨k, hk, hheld⟩
    -- The key is covered by a cursor, and the cursor is a key of the page.
    have hcov := (hnext n hn k hheld).mpr
      (List.take_subset_take_left _ (Nat.le_add_right _ _) hk)
    unfold covered at hcov
    split at hcov
    · simp at hcov
    · rename_i cursor hlookup
      obtain ⟨-, hafter, hpage⟩ := (page_spec minHeap cursors).cursor_mem n cursor hlookup
      rw [h.page_keys minHeap] at hpage
      exact ⟨cursor, hpage, (mem_after.mp hafter).1⟩
  · rintro ⟨hunique, hrenews⟩ n hn k hheld
    refine ⟨h.mem_take_of_covered minHeap hn hheld, fun hk => ?_⟩
    rw [List.take_add, List.mem_append] at hk
    rcases hk with hbefore | hpage
    · obtain ⟨k', hpage, hheld'⟩ := hrenews n hn ⟨k, hbefore, hheld⟩
      have hcov := h.covered_of_unique minHeap hunique hn hheld' hpage
      have hlt : k < k' := by
        have hsplit : (c.union pre).Pairwise (· < ·) := sorted_union
        rw [← List.take_append_drop (j * effectiveLimit limit) (c.union pre),
          List.pairwise_append] at hsplit
        exact hsplit.2.2 k hbefore k' (List.mem_of_mem_take hpage)
      unfold covered at hcov ⊢
      split at hcov
      · simp at hcov
      · exact decide_eq_true (hlt.le.trans (by simpa using hcov))
    · exact h.covered_of_unique minHeap hunique hn hheld hpage

/-- The page says that there is more if there are keys after it. -/
theorem Aligned.hasMore_of_lt (hlt : (j + 1) * effectiveLimit limit < (c.union pre).length) :
    (c.page pre limit minHeap cursors).hasMore = true := by
  obtain ⟨k, hk⟩ : ∃ k, k ∈ (c.union pre).drop ((j + 1) * effectiveLimit limit) := by
    refine List.exists_mem_of_length_pos ?_
    rw [List.length_drop]
    omega
  obtain ⟨n, hn, hheld⟩ := mem_union.mp (List.mem_of_mem_drop hk)
  have hnot := (mem_drop_iff_of_sorted sorted_union (mem_union_of_held hn hheld)).mp hk
  rw [Nat.succ_mul] at hk hnot
  refine (page_spec minHeap cursors).hasMore_iff.mpr ⟨n, hn, k, ?_, ?_⟩
  · refine (h.mem_after_iff hn).mpr ⟨hheld, ?_⟩
    rw [← List.drop_drop] at hk
    exact List.mem_of_mem_drop hk
  · by_contra hcov
    exact hnot (h.mem_take_of_covered minHeap hn hheld (by simpa using hcov))

/-- The last page says that there is no more if its last key is on one node. -/
theorem Aligned.hasMore_of_unique (hunique : UniqueAtEnd c pre (effectiveLimit limit) j)
    (hle : (c.union pre).length ≤ (j + 1) * effectiveLimit limit) :
    (c.page pre limit minHeap cursors).hasMore = false := by
  rw [← Bool.not_eq_true, (page_spec minHeap cursors).hasMore_iff]
  rintro ⟨n, hn, k, hafter, hcov⟩
  obtain ⟨hheld, hdrop⟩ := (h.mem_after_iff hn).mp hafter
  have hpage : k ∈ ((c.union pre).drop (j * effectiveLimit limit)).take (effectiveLimit limit) := by
    rwa [List.take_of_length_le]
    rw [List.length_drop]
    rw [Nat.succ_mul] at hle
    omega
  rw [h.covered_of_unique minHeap hunique hn hheld hpage] at hcov
  contradiction

lemma Aligned.unique_of_not_hasMore (hmore : (c.page pre limit minHeap cursors).hasMore = false) :
    UniqueAtEnd c pre (effectiveLimit limit) j := by
  refine h.unique_of_covered minHeap fun n hn k hheld hk => ?_
  by_contra hcov
  rw [← Bool.not_eq_true, (page_spec minHeap cursors).hasMore_iff] at hmore
  exact hmore ⟨n, hn, k, (h.mem_after_iff hn).mpr ⟨hheld, List.mem_of_mem_take hk⟩,
    by simpa using hcov⟩

end Next

end Aligned

/-! ## All pages -/

section Pages

variable {minHeap : Nat → MinHeap} {c : Cluster} {pre : String} {limit : Int} {j m : Nat}

variable {cursors : Cursors}

lemma listPages_succ (hne : c.nodes ≠ []) {keys : List String}
    (h : listPages minHeap c pre limit j = .ok ⟨keys, encodeContinuationToken cursors pre, true⟩) :
    listPages minHeap c pre limit (j + 1) = .ok {
      keys := keys ++ (c.page pre limit (minHeap (j + 1)) cursors).keys
      token := if (c.page pre limit (minHeap (j + 1)) cursors).hasMore then
        encodeContinuationToken (c.page pre limit (minHeap (j + 1)) cursors).nodeCursors pre
        else .empty
      hasMore := (c.page pre limit (minHeap (j + 1)) cursors).hasMore } := by
  rw [listPages, h]
  simp only [bind, Except.bind, if_true, listPage_encode hne]
  rfl

/-- Pages are only appended, and the last one stays the last. -/
theorem listPages_of_le {listed : Listed} (h : listPages minHeap c pre limit m = .ok listed)
    (hjm : j ≤ m) : ∃ earlier, listPages minHeap c pre limit j = .ok earlier ∧
      earlier.keys <+: listed.keys ∧ (earlier.hasMore = false → earlier = listed) := by
  induction hjm generalizing listed with
  | refl => exact ⟨listed, h, List.prefix_refl _, fun _ => rfl⟩
  | @step m _ ih =>
    rw [Nat.succ_eq_add_one, listPages] at h
    cases hm : listPages minHeap c pre limit m with
    | error err => simp [hm, bind, Except.bind] at h
    | ok before =>
      obtain ⟨earlier, hearlier, hkeys, hdone⟩ := ih hm
      refine ⟨earlier, hearlier, ?_⟩
      simp only [hm, bind, Except.bind] at h
      split at h
      · rename_i hmore
        cases hpage : listPage (minHeap (m + 1)) c pre limit before.token with
        | error err => simp [hpage] at h
        | ok page =>
          simp only [hpage, pure, Except.pure, Except.ok.injEq] at h
          refine ⟨?_, fun hfalse => ?_⟩
          · rw [← h]
            exact hkeys.trans (List.prefix_append _ _)
          · rw [← hdone hfalse, hfalse] at hmore
            contradiction
      · simp only [pure, Except.pure, Except.ok.injEq] at h
        exact h ▸ ⟨hkeys, hdone⟩

/-- What a client has after page `j`, if that page was taken from `cursors`. -/
def Cluster.listedAfter (c : Cluster) (pre : String) (limit : Int) (minHeap : MinHeap)
    (cursors : Cursors) (j : Nat) : Listed where
  keys := (c.union pre).take ((j + 1) * effectiveLimit limit)
  token := if (c.page pre limit minHeap cursors).hasMore then
    encodeContinuationToken (c.page pre limit minHeap cursors).nodeCursors pre else .empty
  hasMore := (c.page pre limit minHeap cursors).hasMore

/-- Page `j` was taken from aligned cursors. -/
def Reached (minHeap : Nat → MinHeap) (c : Cluster) (pre : String) (limit : Int) (j : Nat) : Prop :=
  ∃ cursors, Aligned c pre cursors (j * effectiveLimit limit) ∧
    listPages minHeap c pre limit j = .ok (c.listedAfter pre limit (minHeap j) cursors j)

lemma reached_zero (hne : c.nodes ≠ []) : Reached minHeap c pre limit 0 := by
  have halign : Aligned c pre [] (0 * effectiveLimit limit) := by simpa using aligned_nil
  have hpage : listPage (minHeap 0) c pre limit .empty = _ := listPage_encode hne (minHeap 0) []
  refine ⟨[], halign, ?_⟩
  rw [listPages, hpage, halign.page_keys, Cluster.listedAfter]
  simp

/-- From aligned cursors to aligned cursors. -/
theorem reached_succ (hne : c.nodes ≠ []) (hlist : listPages minHeap c pre limit j =
      .ok (c.listedAfter pre limit (minHeap j) cursors j))
    (hmore : (c.page pre limit (minHeap j) cursors).hasMore = true)
    (hnext : Aligned c pre (c.page pre limit (minHeap j) cursors).nodeCursors
      ((j + 1) * effectiveLimit limit)) : Reached minHeap c pre limit (j + 1) := by
  rw [Cluster.listedAfter, hmore, if_pos rfl] at hlist
  refine ⟨_, hnext, ?_⟩
  rw [listPages_succ hne hlist, hnext.page_keys, ← List.take_add, ← Nat.succ_mul]
  rfl

lemma reached_of_lt (hne : c.nodes ≠ [])
    (hstep : ∀ j, (j + 1) * effectiveLimit limit < (c.union pre).length →
      Reached minHeap c pre limit j → Reached minHeap c pre limit (j + 1)) :
    ∀ j, j = 0 ∨ j * effectiveLimit limit < (c.union pre).length →
      Reached minHeap c pre limit j := by
  intro j
  induction j with
  | zero => exact fun _ => reached_zero hne
  | succ j ih =>
    intro hj
    have hlt := hj.resolve_left j.succ_ne_zero
    refine hstep j hlt (ih (.inr (lt_of_le_of_lt ?_ hlt)))
    exact Nat.mul_le_mul_right _ j.le_succ

/-- Cursors that are not aligned list a key again, so a complete listing has aligned cursors. -/
theorem aligned_of_listsAll (hne : c.nodes ≠ []) (hall : ListsAll c pre minHeap limit)
    (halign : Aligned c pre cursors (j * effectiveLimit limit))
    (hlist : listPages minHeap c pre limit j = .ok (c.listedAfter pre limit (minHeap j) cursors j))
    (hmore : (c.page pre limit (minHeap j) cursors).hasMore = true) :
    Aligned c pre (c.page pre limit (minHeap j) cursors).nodeCursors
      ((j + 1) * effectiveLimit limit) := by
  obtain ⟨last, token, hlast⟩ := hall
  have hlt : j < last := by
    by_contra hnot
    obtain ⟨earlier, hearlier, -, hdone⟩ := listPages_of_le hlist (not_lt.mp hnot)
    rw [hlast, Except.ok.injEq] at hearlier
    have hsame := congrArg Listed.hasMore (hdone (by rw [← hearlier]))
    rw [← hearlier] at hsame
    exact Bool.false_ne_true (hsame.trans hmore)
  obtain ⟨later, hlater, hkeys, -⟩ := listPages_of_le hlast hlt
  rw [Cluster.listedAfter, hmore, if_pos rfl] at hlist
  rw [Nat.succ_eq_add_one, listPages_succ hne hlist, Except.ok.injEq] at hlater
  rw [← hlater] at hkeys
  intro n hn k hheld
  rw [Nat.succ_mul]
  refine ⟨halign.mem_take_of_covered _ hn hheld, fun hk => ?_⟩
  by_contra hcov
  -- The next page starts at or below a key that was listed before.
  have hagain : ∃ x ∈ (c.page pre limit (minHeap (j + 1))
      (c.page pre limit (minHeap j) cursors).nodeCursors).keys, x ≤ k :=
    (page_spec _ _).first.exists_le (effectiveLimit_pos limit).ne'
      ⟨n, hn, mem_after.mpr ⟨hheld, by simpa using hcov⟩⟩
  obtain ⟨x, hx, hle⟩ := hagain
  have hsorted := sorted_union.sublist hkeys.sublist
  rw [Nat.succ_mul, List.pairwise_append] at hsorted
  exact (hsorted.2.2 k hk x hx).not_ge hle

/-- A client that pages through a cluster ends with the sorted union of all keys, each once, exactly
if there is a node, the last key of every full page is on one node, and on every page that another
page follows, each node with a key on an earlier page has a key. -/
theorem listsAll_iff (minHeap : Nat → MinHeap) (c : Cluster) (pre : String) (limit : Int) :
    ListsAll c pre minHeap limit ↔
      c.nodes ≠ [] ∧ (∀ j, UniqueAtEnd c pre (effectiveLimit limit) j) ∧
        ∀ j, (j + 1) * effectiveLimit limit < (c.union pre).length →
          RenewsCursors c pre (effectiveLimit limit) j := by
  have hpos := effectiveLimit_pos limit
  constructor
  · intro hall
    have hne : c.nodes ≠ [] := by
      intro hnil
      obtain ⟨last, token, hlast⟩ := hall
      obtain ⟨first, hfirst, -⟩ := listPages_of_le hlast (Nat.zero_le last)
      simp [listPages, listPage, listClusterWide, hnil] at hfirst
    have hreached := @reached_of_lt minHeap c pre limit hne
      fun j hlt hpage => by
        obtain ⟨cursors, halign, hlist⟩ := hpage
        exact reached_succ hne hlist (halign.hasMore_of_lt _ hlt)
          (aligned_of_listsAll hne hall halign hlist (halign.hasMore_of_lt _ hlt))
    refine ⟨hne, fun j => ?_, fun j hlt => ?_⟩
    · by_cases hfull : (j + 1) * effectiveLimit limit ≤ (c.union pre).length
      · rw [Nat.succ_mul] at hfull
        obtain ⟨cursors, halign, hlist⟩ := hreached j (.inr (by omega))
        cases hmore : (c.page pre limit (minHeap j) cursors).hasMore with
        | true => exact ((halign.next_iff _).mp (aligned_of_listsAll hne hall halign hlist hmore)).1
        | false => exact halign.unique_of_not_hasMore _ hmore
      · have hnone : (c.union pre)[(j + 1) * effectiveLimit limit - 1]? = none :=
          List.getElem?_eq_none (by omega)
        simp [UniqueAtEnd, hnone]
    · have hlt' := hlt
      rw [Nat.succ_mul] at hlt'
      obtain ⟨cursors, halign, hlist⟩ := hreached j (.inr (by omega))
      have hmore := halign.hasMore_of_lt (minHeap j) hlt
      exact ((halign.next_iff _).mp (aligned_of_listsAll hne hall halign hlist hmore)).2
  · rintro ⟨hne, hunique, hrenews⟩
    have hreached := @reached_of_lt minHeap c pre limit hne
      fun j hlt hpage => by
        obtain ⟨cursors, halign, hlist⟩ := hpage
        exact reached_succ hne hlist (halign.hasMore_of_lt _ hlt)
          ((halign.next_iff _).mpr ⟨hunique j, hrenews j hlt⟩)
    -- The last page is the one that reaches the end of the union.
    obtain ⟨last, hlast, hend⟩ : ∃ last, (last = 0 ∨
        last * effectiveLimit limit < (c.union pre).length) ∧
        (c.union pre).length ≤ (last + 1) * effectiveLimit limit := by
      refine ⟨((c.union pre).length - 1) / effectiveLimit limit, ?_, ?_⟩
      · have hle := Nat.div_mul_le_self ((c.union pre).length - 1) (effectiveLimit limit)
        rcases Nat.eq_zero_or_pos (c.union pre).length with hzero | hlen
        · exact .inl (by simp [hzero])
        · exact .inr (by omega)
      · have hlt := Nat.lt_mul_of_div_lt (Nat.lt_succ_self
          (((c.union pre).length - 1) / effectiveLimit limit)) hpos
        rw [Nat.succ_eq_add_one] at hlt
        omega
    obtain ⟨cursors, halign, hlist⟩ := hreached last hlast
    rw [Cluster.listedAfter, halign.hasMore_of_unique _ (hunique last) hend,
      List.take_of_length_le hend] at hlist
    exact ⟨last, _, hlist⟩

/-! ## A listing that never ends -/

/-- A heap that pops the first of the least entries. -/
def firstLeast : MinHeap where
  pop heap := match heap.insertionSort (fun x y => x.key ≤ y.key) with
    | [] => none
    | x :: rest => some (x, rest)
  eq_nil heap h := by
    have hperm := List.perm_insertionSort (fun x y : HeapNode => x.key ≤ y.key) heap
    split at h
    · rename_i hnil
      rw [hnil] at hperm
      exact hperm.nil_eq.symm
    · simp at h
  perm heap x rest h := by
    have hperm := List.perm_insertionSort (fun x y : HeapNode => x.key ≤ y.key) heap
    split at h
    · simp at h
    · rename_i hcons
      simp only [Option.some.injEq, Prod.mk.injEq] at h
      rw [hcons, h.1, h.2] at hperm
      exact hperm.symm
  least heap x rest h := by
    have htotal : Std.Total fun x y : HeapNode => x.key ≤ y.key := ⟨fun x y => le_total x.key y.key⟩
    have htrans : IsTrans HeapNode fun x y => x.key ≤ y.key := ⟨fun _ _ _ => le_trans⟩
    have hsorted := List.pairwise_insertionSort (fun x y : HeapNode => x.key ≤ y.key) heap
    split at h
    · simp at h
    · rename_i hcons
      simp only [Option.some.injEq, Prod.mk.injEq] at h
      rw [hcons, h.1, h.2, List.pairwise_cons] at hsorted
      exact hsorted.1

/-- Two nodes hold two keys each, in turns. -/
def alternating : Cluster where
  nodes := ["n1", "n2"]
  keys n := if n = "n1" then ["a", "c"] else if n = "n2" then ["b", "d"] else []
  nodup := by decide
  sorted n := by
    split
    · decide
    · split <;> decide
  ne_empty n := by
    split
    · decide
    · split <;> decide

/-- From cursors that have lost one: the page lists a key again, and is full. -/
theorem listPage_exact_alternating : alternating.nodes ≠ [] ∧ ∃ page,
    listPage firstLeast alternating "" 1 (encodeContinuationToken [("n2", "b")] "") = .ok page ∧
      page.keys = ["a"] := by
  have hne : alternating.nodes ≠ [] := by decide
  obtain ⟨page, hpage, -⟩ := listPage_exact alternating hne "" 1 firstLeast [("n2", "b")]
  refine ⟨hne, page, hpage, ?_⟩
  rw [← Except.ok.inj hpage]
  decide +kernel

/-- With one key a page, each page of `alternating` loses the cursor of the other node: the third
page lists the first key again, and no number of pages gives the four keys. -/
theorem alternating_not_listsAll :
    alternating.union "" = ["a", "b", "c", "d"] ∧
      (∃ token, listPages (fun _ => firstLeast) alternating "" 1 2 =
        .ok ⟨["a", "b", "a"], token, true⟩) ∧
      ¬ ListsAll alternating "" (fun _ => firstLeast) 1 := by
  have hunion : alternating.union "" = ["a", "b", "c", "d"] := by decide +kernel
  have hthird : listPages (fun _ => firstLeast) alternating "" 1 2 =
      .ok ⟨["a", "b", "a"], .cluster [("n1", "a")] "", true⟩ := by decide +kernel
  refine ⟨hunion, ⟨_, hthird⟩, ?_⟩
  rintro ⟨last, token, hlast⟩
  rcases le_total 2 last with hle | hle
  · obtain ⟨earlier, hearlier, hkeys, -⟩ := listPages_of_le hlast hle
    rw [hthird, Except.ok.injEq] at hearlier
    rw [← hearlier, hunion] at hkeys
    have hwrong : ["a", "b", "a"] <+: ["a", "b", "c", "d"] := hkeys
    exact absurd hwrong (by decide)
  · obtain ⟨earlier, hearlier, -, hdone⟩ := listPages_of_le hthird hle
    rw [hlast, Except.ok.injEq] at hearlier
    have hsame := congrArg Listed.hasMore (hdone (by rw [← hearlier]))
    rw [← hearlier] at hsame
    exact Bool.false_ne_true hsame

end Pages

end OCache.Listing
