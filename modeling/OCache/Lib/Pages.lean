import Mathlib.Data.List.Sort
import Mathlib.Data.List.Dedup
import Mathlib.Data.Set.Basic

/-!
# Pages of an ordered set

`FirstOf n S l` says that `l` lists the `n` least elements of `S` in increasing order, or all of
`S` if there are fewer. Merging the pages of several sets gives a page of their union.
-/

namespace Pages

variable {κ : Type*} [LinearOrder κ] {n : ℕ} {S : Set κ} {l l' u : List κ}

/-! ## Sorted lists -/

lemma nodup_of_sorted (h : l.Pairwise (· < ·)) : l.Nodup :=
  h.imp fun hlt => hlt.ne

/-- A sorted list is determined by its elements. -/
theorem eq_of_sorted (hl : l.Pairwise (· < ·)) (hl' : l'.Pairwise (· < ·))
    (hmem : ∀ k, k ∈ l ↔ k ∈ l') : l = l' := by
  have hperm : l.Perm l' :=
    (List.perm_ext_iff_of_nodup (nodup_of_sorted hl) (nodup_of_sorted hl')).mpr hmem
  exact hperm.eq_of_pairwise (fun a b _ _ hab hba => absurd hab hba.asymm) hl hl'

/-- The elements of all lists in increasing order, each once. -/
def sortedUnion (ls : List (List κ)) : List κ := ls.flatten.dedup.insertionSort (· ≤ ·)

variable {k : κ}

lemma mem_sortedUnion {ls : List (List κ)} : k ∈ sortedUnion ls ↔ ∃ l ∈ ls, k ∈ l := by
  simp [sortedUnion]

lemma sorted_sortedUnion (ls : List (List κ)) : (sortedUnion ls).Pairwise (· < ·) := by
  have hle : (sortedUnion ls).Pairwise (· ≤ ·) := List.pairwise_insertionSort _ _
  have hnodup : (sortedUnion ls).Nodup :=
    (List.perm_insertionSort _ _).nodup_iff.mpr (List.nodup_dedup _)
  exact (hle.and hnodup).imp fun h => lt_of_le_of_ne h.1 h.2

/-! ## Pages -/

/-- `l` lists the `n` least elements of `S` in order, or all of `S` if there are fewer. -/
structure FirstOf (n : ℕ) (S : Set κ) (l : List κ) : Prop where
  sorted : l.Pairwise (· < ·)
  subset : ∀ k ∈ l, k ∈ S
  length_le : l.length ≤ n
  least : ∀ k ∈ S, k ∉ l → l.length = n ∧ ∀ x ∈ l, x < k

lemma firstOf_take (hu : u.Pairwise (· < ·)) (n : ℕ) : FirstOf n {k | k ∈ u} (u.take n) where
  sorted := hu.sublist (List.take_sublist n u)
  subset _ hk := List.mem_of_mem_take hk
  length_le := List.length_take_le n u
  least k hk hnot := by
    rw [Set.mem_ofPred_eq, ← List.take_append_drop n u, List.mem_append] at hk
    have hdrop : k ∈ u.drop n := hk.resolve_left hnot
    have hsplit := hu
    rw [← List.take_append_drop n u, List.pairwise_append] at hsplit
    refine ⟨?_, fun x hx => hsplit.2.2 x hx k hdrop⟩
    have := List.length_pos_of_mem hdrop
    rw [List.length_drop] at this
    exact List.length_take_of_le (by omega)

section

variable (h : FirstOf n S l)

include h

/-- A list of `n` elements that are all on the page is the page. -/
theorem FirstOf.mem_of_subset {p : List κ} (hp : p.Nodup) (hn : p.length = n) (hsub : p ⊆ l)
    (hk : k ∈ l) : k ∈ p := by
  have hperm : p.Perm l :=
    (List.subperm_of_subset hp hsub).perm_of_length_le (hn ▸ h.length_le)
  exact hperm.mem_iff.mpr hk

lemma FirstOf.mem_of_mem (h' : FirstOf n S l') (hk : k ∈ l) : k ∈ l' := by
  by_contra hnot
  obtain ⟨hlen, hlt⟩ := h'.least k (h.subset k hk) hnot
  -- `l'` has `n` elements below `k`; one of them is missing in `l`, which has `k`.
  by_cases hsub : l' ⊆ l
  · exact hnot (h.mem_of_subset (nodup_of_sorted h'.sorted) hlen hsub hk)
  · obtain ⟨x, hx, hxl⟩ := Set.not_subset.mp hsub
    have hkx := (h.least x (h'.subset x hx) hxl).2 k hk
    exact absurd hkx (hlt x hx).asymm

/-- There is one page. -/
theorem FirstOf.unique (h' : FirstOf n S l') : l = l' :=
  eq_of_sorted h.sorted h'.sorted fun _ => ⟨h.mem_of_mem h', h'.mem_of_mem h⟩

lemma FirstOf.eq_take (hu : u.Pairwise (· < ·)) (hS : ∀ k, k ∈ S ↔ k ∈ u) : l = u.take n := by
  have hset : S = {k | k ∈ u} := Set.ext hS
  exact (hset ▸ h).unique (firstOf_take hu n)

/-- A page of a set with an element starts at or below it. -/
theorem FirstOf.exists_le (hn : n ≠ 0) (hk : k ∈ S) : ∃ x ∈ l, x ≤ k := by
  by_cases hmem : k ∈ l
  · exact ⟨k, hmem, le_rfl⟩
  · obtain ⟨hlen, hlt⟩ := h.least k hk hmem
    obtain ⟨x, hx⟩ := List.exists_mem_of_length_pos (by omega : 0 < l.length)
    exact ⟨x, hx, (hlt x hx).le⟩

end

/-- The page of a union needs no more than a page of each part. -/
theorem FirstOf.of_parts {ι : Type*} {I : Set ι} {parts : ι → Set κ} {page : ι → List κ}
    (hparts : ∀ i ∈ I, FirstOf n (parts i) (page i))
    (h : FirstOf n {k | ∃ i ∈ I, k ∈ page i} l) : FirstOf n {k | ∃ i ∈ I, k ∈ parts i} l where
  sorted := h.sorted
  subset k hk := by
    obtain ⟨i, hi, hki⟩ := h.subset k hk
    exact ⟨i, hi, (hparts i hi).subset k hki⟩
  length_le := h.length_le
  least := by
    rintro k ⟨i, hi, hk⟩ hnot
    by_cases hki : k ∈ page i
    · exact h.least k ⟨i, hi, hki⟩ hnot
    · obtain ⟨hlen, hlt⟩ := (hparts i hi).least k hk hki
      -- The page of `i` is full and below `k`: the merged page is that page, or ends before it.
      by_cases hsub : page i ⊆ l
      · have hnodup := nodup_of_sorted (hparts i hi).sorted
        refine ⟨le_antisymm h.length_le ?_, fun x hx =>
          hlt x (h.mem_of_subset hnodup hlen hsub hx)⟩
        exact hlen ▸ (List.subperm_of_subset hnodup hsub).length_le
      · obtain ⟨x, hx, hxl⟩ := Set.not_subset.mp hsub
        obtain ⟨hfull, hbelow⟩ := h.least x ⟨i, hi, hx⟩ hxl
        exact ⟨hfull, fun y hy => (hbelow y hy).trans (hlt x hx)⟩

end Pages
