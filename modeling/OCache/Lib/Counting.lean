import Mathlib.Data.Set.Card

/-!
# Counting parties

How many parties of a system are in a state that satisfies a predicate, and how the number changes
when one of them moves. There may be infinitely many parties, so the number is an extended one.
-/

namespace Counting

variable {ι α : Type*} {q : α → Prop} {f : ι → α} {i : ι} {v : α}

/-- The number of indices at which `f` satisfies `q`. -/
noncomputable def count (q : α → Prop) (f : ι → α) : ℕ∞ := {j | q (f j)}.encard

lemma count_eq_zero : count q f = 0 ↔ ∀ j, ¬q (f j) := by
  rw [count, Set.encard_eq_zero, Set.eq_empty_iff_forall_notMem]
  rfl

lemma count_ne_zero (h : q (f i)) : count q f ≠ 0 := fun hzero => count_eq_zero.mp hzero i h

/-- If one party is counted, there is no other one. -/
theorem eq_of_count_eq_one (h : count q f = 1) {j : ι} (hi : q (f i)) (hj : q (f j)) : i = j :=
  Set.encard_le_one_iff.mp h.le i j hi hj

variable {f' : ι → α} {q' : α → Prop}

lemma count_congr (h : ∀ j, q (f j) ↔ q' (f' j)) : count q f = count q' f' :=
  congrArg Set.encard (Set.ext h)

/-- One more index is counted, the others as before. -/
theorem count_gain (h : ∀ j ≠ i, q' (f' j) ↔ q (f j)) (hnew : q' (f' i)) (hold : ¬q (f i)) :
    count q' f' = count q f + 1 := by
  have hset : {j | q' (f' j)} = insert i {j | q (f j)} := by
    ext j
    by_cases hj : j = i
    · subst hj
      simp [hnew]
    · simp [hj, h j hj]
  have hnot : i ∉ {j | q (f j)} := hold
  rw [count, hset, Set.encard_insert_of_notMem hnot]
  rfl

variable [DecidableEq ι]

lemma count_update_gain (hv : q v) (hi : ¬q (f i)) :
    count q (Function.update f i v) = count q f + 1 :=
  count_gain (fun j hj => by rw [Function.update_of_ne hj]) (by rwa [Function.update_self]) hi

lemma count_update_same (h : q v ↔ q (f i)) : count q (Function.update f i v) = count q f := by
  refine count_congr fun j => ?_
  by_cases hj : j = i
  · subst hj
    simpa using h
  · simp [hj]

/-- Moving back is a gain. -/
theorem count_update_loss (hv : ¬q v) (hi : q (f i)) :
    count q (Function.update f i v) + 1 = count q f :=
  (count_gain (fun j hj => by rw [Function.update_of_ne hj]) hi (by rwa [Function.update_self])).symm

/-- A number that a loss leaves is finite if the number before was. -/
theorem exists_of_add_one_eq {a : ℕ∞} {n : ℕ} (h : a + 1 = n) : ∃ k : ℕ, n = k + 1 ∧ a = k := by
  cases n with
  | zero => simp at h
  | succ k => exact ⟨k, rfl, ENat.add_left_injective_of_ne_top ENat.one_ne_top (by simpa using h)⟩

end Counting
