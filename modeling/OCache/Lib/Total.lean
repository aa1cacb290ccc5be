import Mathlib.Algebra.BigOperators.Group.List.Basic
import Mathlib.Data.List.AList

/-!
# Totals over finite maps

The sum of a weight over the values of a finite map, and how it changes when one key changes.
-/

namespace Total

variable {κ α M : Type*} [AddCommGroup M]

variable (f : α → M)

/-- The weight of a value that may be missing. -/
def weight (v : Option α) : M := v.elim 0 f

@[simp] lemma weight_none : weight f none = 0 := rfl

@[simp] lemma weight_some (v : α) : weight f (some v) = f v := rfl

/-- The sum of the weights of all values. -/
def total (t : AList fun _ : κ => α) : M := (t.entries.map fun e => f e.2).sum

variable [DecidableEq κ]

lemma sum_kerase (k : κ) (l : List (Sigma fun _ : κ => α)) :
    ((l.kerase k).map fun e => f e.2).sum = (l.map fun e => f e.2).sum - weight f (l.dlookup k) := by
  induction l with
  | nil => simp
  | cons e l ih =>
    obtain ⟨k', v⟩ := e
    by_cases hk : k = k'
    · subst hk
      simp
    · rw [List.kerase_cons_ne hk, List.dlookup_cons_ne _ _ hk]
      simp only [List.map_cons, List.sum_cons, ih, add_sub_assoc]

lemma total_erase (k : κ) (t : AList fun _ : κ => α) :
    total f (t.erase k) = total f t - weight f (t.lookup k) :=
  sum_kerase f k t.entries

lemma total_insert (k : κ) (v : α) (t : AList fun _ : κ => α) :
    total f (t.insert k v) = total f t - weight f (t.lookup k) + f v := by
  have herase := sum_kerase f k t.entries
  simp only [total, AList.entries_insert, List.map_cons, List.sum_cons, herase, AList.lookup]
  exact add_comm _ _

/-- Values without weight have no total. -/
theorem total_eq_zero {f : α → M} {t : AList fun _ : κ => α}
    (h : ∀ k v, t.lookup k = some v → f v = 0) : total f t = 0 := by
  refine List.sum_eq_zero fun w hw => ?_
  obtain ⟨e, he, rfl⟩ := List.mem_map.mp hw
  exact h e.1 e.2 (AList.mem_lookup_iff.mpr he)

section EraseAll

variable {t : AList fun _ : κ => α} {l l' : List (κ × α)}

/-- Distinct keys with the values that the map has for them. -/
structure Picks (t : AList fun _ : κ => α) (l : List (κ × α)) : Prop where
  nodup : (l.map Prod.fst).Nodup
  lookup : ∀ e ∈ l, t.lookup e.1 = some e.2

/-- Erase the keys of a list. -/
def eraseAll (t : AList fun _ : κ => α) (l : List (κ × α)) : AList fun _ : κ => α :=
  l.foldl (fun t e => t.erase e.1) t

lemma lookup_eraseAll (t : AList fun _ : κ => α) (l : List (κ × α)) (k : κ) :
    (eraseAll t l).lookup k = if k ∈ l.map Prod.fst then none else t.lookup k := by
  induction l generalizing t with
  | nil => simp [eraseAll]
  | cons e l ih =>
    have hcons : eraseAll t (e :: l) = eraseAll (t.erase e.1) l := rfl
    rw [hcons, ih, List.map_cons]
    by_cases hk : k = e.1
    · subst hk
      simp [AList.lookup_erase]
    · rw [AList.lookup_erase_ne hk]
      simp only [List.mem_cons, hk, false_or]

lemma lookup_of_eraseAll {k : κ} {v : α} (h : (eraseAll t l).lookup k = some v) :
    k ∉ l.map Prod.fst ∧ t.lookup k = some v := by
  rw [lookup_eraseAll] at h
  split at h
  · simp at h
  · exact ⟨by assumption, h⟩

lemma Picks.nil (t : AList fun _ : κ => α) : Picks t [] := ⟨List.nodup_nil, by simp⟩

lemma Picks.tail {e : κ × α} (h : Picks t (e :: l)) : Picks (t.erase e.1) l := by
  obtain ⟨hfst, htail⟩ := List.nodup_cons.mp h.nodup
  refine ⟨htail, fun e' he' => ?_⟩
  have hne : e'.1 ≠ e.1 := fun heq => hfst (heq ▸ List.mem_map_of_mem he')
  rw [AList.lookup_erase_ne hne]
  exact h.lookup e' (List.mem_cons_of_mem _ he')

/-- What is picked from the rest can be picked together with what was picked before. -/
theorem Picks.append (h : Picks t l) (h' : Picks (eraseAll t l) l') : Picks t (l ++ l') := by
  have hkept : ∀ e ∈ l', e.1 ∉ l.map Prod.fst ∧ t.lookup e.1 = some e.2 :=
    fun e he => lookup_of_eraseAll (h'.lookup e he)
  refine ⟨?_, fun e he => ?_⟩
  · rw [List.map_append]
    refine h.nodup.append h'.nodup fun k hk hk' => ?_
    obtain ⟨e, he, rfl⟩ := List.mem_map.mp hk'
    exact (hkept e he).1 hk
  · rcases List.mem_append.mp he with he | he
    · exact h.lookup e he
    · exact (hkept e he).2

lemma eraseAll_append (t : AList fun _ : κ => α) (l l' : List (κ × α)) :
    eraseAll t (l ++ l') = eraseAll (eraseAll t l) l' :=
  List.foldl_append

/-- Erasing picked values takes their weights off the total. -/
theorem total_eraseAll (f : α → M) (h : Picks t l) :
    total f (eraseAll t l) = total f t - (l.map fun e => f e.2).sum := by
  induction l generalizing t with
  | nil => simp [eraseAll]
  | cons e l ih =>
    have hcons : eraseAll t (e :: l) = eraseAll (t.erase e.1) l := rfl
    rw [hcons, ih h.tail, total_erase, h.lookup e (by simp), weight_some, List.map_cons,
      List.sum_cons, sub_sub]

end EraseAll

section Lists

variable {β : Type*}

/-- Replacing one element of a list changes the sum by the difference. -/
theorem sum_map_set (f : β → M) {l : List β} {i : Nat} {a : β} (h : l[i]? = some a) (b : β) :
    ((l.set i b).map f).sum = (l.map f).sum - f a + f b := by
  induction l generalizing i with
  | nil => simp at h
  | cons c l ih =>
    cases i with
    | zero =>
      obtain rfl : c = a := by simpa using h
      simp only [List.set_cons_zero, List.map_cons, List.sum_cons, add_sub_cancel_left]
      exact add_comm _ _
    | succ i =>
      have htail : l[i]? = some a := by simpa using h
      simp only [List.set_cons_succ, List.map_cons, List.sum_cons, ih htail]
      rw [add_sub_assoc, add_assoc]

end Lists

end Total
