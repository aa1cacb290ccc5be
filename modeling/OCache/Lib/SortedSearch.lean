import Mathlib.Data.List.Sort

/-!
# Searching sorted lists

Bisection for the first index at which a predicate holds, as Go's `sort.Search` does it, and what it
finds in a list along which the predicate does not turn false again. A ring of sorted points is
searched the same way: past the last point the search goes on at the first one.
-/

namespace SortedSearch

/-! ## Bisection -/

/-- Halve the interval from `i` to `j` at most `fuel` times. -/
def bisect (f : Nat → Bool) : Nat → Nat → Nat → Nat
  | 0, i, _ => i
  | fuel + 1, i, j =>
    if i < j then
      let h := (i + j) / 2
      if f h then bisect f fuel i h else bisect f fuel (h + 1) j
    else i

/-- The first index below `n` at which `f` holds, or `n`. Every round shortens the interval, so `n`
rounds are enough. -/
def search (n : Nat) (f : Nat → Bool) : Nat := bisect f n 0 n

variable {f : Nat → Bool}

/-- Below the interval the predicate fails, and from its end on it holds. -/
structure Brackets (f : Nat → Bool) (n i j : Nat) : Prop where
  le : i ≤ j
  bound : j ≤ n
  below : ∀ k < i, f k = false
  above : ∀ k, j ≤ k → k < n → f k = true

lemma Brackets.bisect {n : Nat} (hmono : ∀ k l, k ≤ l → l < n → f k = true → f l = true)
    {fuel i j : Nat} (h : Brackets f n i j) (hfuel : j - i ≤ fuel) :
    Brackets f n (bisect f fuel i j) (bisect f fuel i j) := by
  induction fuel generalizing i j with
  | zero =>
    have hij : i = j := by
      have := h.le
      omega
    subst hij
    exact h
  | succ fuel ih =>
    have hle := h.le
    have hbound := h.bound
    rw [SortedSearch.bisect]
    split
    · dsimp only
      split
      · rename_i hf
        refine ih ⟨by omega, by omega, h.below, fun k hk hn => ?_⟩ (by omega)
        exact hmono _ _ hk hn hf
      · rename_i hf
        refine ih ⟨by omega, hbound, fun k hk => ?_, h.above⟩ (by omega)
        -- Below the middle the predicate fails, or it would hold in the middle too.
        by_contra hfk
        exact hf (hmono k _ (by omega) (by omega) (by simpa using hfk))
    · have hij : i = j := by omega
      subst hij
      exact h

lemma search_spec {n : Nat} (hmono : ∀ k l, k ≤ l → l < n → f k = true → f l = true) :
    search n f ≤ n ∧ (∀ k < search n f, f k = false) ∧
      ∀ k, search n f ≤ k → k < n → f k = true := by
  have hstart : Brackets f n 0 n := ⟨Nat.zero_le n, le_rfl, by simp, fun k hk hn => by omega⟩
  have hend := hstart.bisect hmono (Nat.sub_le n 0)
  exact ⟨hend.bound, hend.below, hend.above⟩

/-! ## Lists -/

variable {α : Type*} {p : α → Bool}

/-- The first index of a list at which `p` holds. -/
def searchList (p : α → Bool) (l : List α) : Nat := search l.length fun i => (l[i]?).any p

/-- Along the list the predicate does not turn false again. -/
theorem any_of_pairwise {l : List α} (h : l.Pairwise fun a b => p a = true → p b = true) {k m : Nat}
    (hkm : k ≤ m) (hm : m < l.length) (hk : (l[k]?).any p = true) : (l[m]?).any p = true := by
  rcases Nat.lt_or_eq_of_le hkm with hlt | rfl
  · have hk' : k < l.length := hlt.trans hm
    rw [List.getElem?_eq_getElem hk', Option.any_some] at hk
    rw [List.getElem?_eq_getElem hm, Option.any_some]
    exact List.pairwise_iff_getElem.mp h k m hk' hm hlt hk
  · exact hk

lemma searchList_le {l : List α} (h : l.Pairwise fun a b => p a = true → p b = true) :
    searchList p l ≤ l.length :=
  (search_spec fun _ _ hkm hm hk => any_of_pairwise h hkm hm hk).1

lemma getElem?_searchList {l : List α} (h : l.Pairwise fun a b => p a = true → p b = true) :
    l[searchList p l]? = l.find? p := by
  obtain ⟨hle, hbelow, habove⟩ := search_spec fun _ _ hkm hm hk => any_of_pairwise h hkm hm hk
  rw [searchList]
  generalize search l.length (fun i => (l[i]?).any p) = n at hle hbelow habove
  rcases Nat.lt_or_eq_of_le hle with hlt | rfl
  · -- The element that is found satisfies the predicate, and none before it does.
    have hfound := habove n le_rfl hlt
    rw [List.getElem?_eq_getElem hlt, Option.any_some] at hfound
    rw [List.getElem?_eq_getElem hlt]
    refine (List.find?_eq_some_iff_getElem.mpr ⟨hfound, n, hlt, rfl, fun k hk => ?_⟩).symm
    have hfail := hbelow k hk
    rw [List.getElem?_eq_getElem (hk.trans hlt), Option.any_some] at hfail
    simp [hfail]
  · rw [List.getElem?_eq_none le_rfl, eq_comm, List.find?_eq_none]
    intro a ha
    obtain ⟨k, hk, rfl⟩ := List.getElem_of_mem ha
    have hfail := hbelow k hk
    rw [List.getElem?_eq_getElem hk, Option.any_some] at hfail
    simp [hfail]

section Sorted

variable {κ : Type*} [LinearOrder κ] {key : α → κ}

/-- In a list sorted by keys the first element that is found has the least key. -/
theorem le_of_find?_eq_some {l : List α} (hl : l.Pairwise fun a b => key a ≤ key b) {a b : α}
    (ha : l.find? p = some a) (hb : b ∈ l) (hpb : p b = true) : key a ≤ key b := by
  obtain ⟨-, as, bs, rfl, has⟩ := List.find?_eq_some_iff_append.mp ha
  rcases List.mem_append.mp hb with hb | hb
  · -- What stands before the element does not satisfy the predicate.
    simpa [hpb] using has b hb
  · rcases List.mem_cons.mp hb with rfl | hb
    · exact le_rfl
    · exact (List.pairwise_cons.mp (List.pairwise_append.mp hl).2.1).1 b hb

end Sorted

/-! ## Rings -/

/-- The element at the index that is found, past the end the first one. -/
def wrapped (p : α → Bool) (l : List α) : Option α :=
  let idx := searchList p l
  l[if idx = l.length then 0 else idx]?

lemma wrapped_eq_find? {l : List α} (h : l.Pairwise fun a b => p a = true → p b = true) :
    wrapped p l = (l.find? p).or l.head? := by
  have hfind := getElem?_searchList h
  unfold wrapped
  dsimp only
  split
  · rename_i hend
    rw [hend, List.getElem?_eq_none le_rfl] at hfind
    rw [← hfind, Option.none_or, List.head?_eq_getElem?]
  · rename_i hend
    have hlt : searchList p l < l.length := by
      have hle := searchList_le h
      omega
    rw [← hfind, List.getElem?_eq_getElem hlt, Option.some_or]

/-- What a ring finds: the least point at which the predicate holds, or the least of all if it holds
nowhere. -/
theorem wrapped_eq_some {κ : Type*} [LinearOrder κ] {key : α → κ} {l : List α} {a : α}
    (hl : l.Pairwise fun a b => key a ≤ key b)
    (hmono : ∀ a b, key a ≤ key b → p a = true → p b = true) (h : wrapped p l = some a) :
    a ∈ l ∧ ∀ b ∈ l, (p b = true → p a = true) ∧ (p a = p b → key a ≤ key b) := by
  rw [wrapped_eq_find? (hl.imp (hmono _ _)), Option.or_eq_some_iff] at h
  rcases h with hfind | ⟨hnone, hhead⟩
  · have hpa := List.find?_some hfind
    exact ⟨List.mem_of_find?_eq_some hfind, fun b hb =>
      ⟨fun _ => hpa, fun heq => le_of_find?_eq_some hl hfind hb (heq ▸ hpa)⟩⟩
  · -- The first point is what the search for anything finds.
    have hfirst : l.find? (fun _ => true) = some a := by
      cases l with
      | nil => simp at hhead
      | cons => simpa using hhead
    exact ⟨List.mem_of_mem_head? hhead, fun b hb =>
      ⟨fun hpb => absurd hpb (List.find?_eq_none.mp hnone b hb),
        fun _ => le_of_find?_eq_some hl hfirst hb rfl⟩⟩

/-- An empty ring is the only one that finds nothing. -/
theorem wrapped_eq_none {l : List α} (h : l.Pairwise fun a b => p a = true → p b = true) :
    wrapped p l = none ↔ l = [] := by
  rw [wrapped_eq_find? h, Option.or_eq_none_iff, List.head?_eq_none_iff]
  exact ⟨And.right, fun hnil => ⟨by rw [hnil]; rfl, hnil⟩⟩

end SortedSearch
