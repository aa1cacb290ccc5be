import Mathlib.Data.List.TakeWhile
import OCache.Lib.ByteOrder

/-!
# Iterators over ordered keys

A snapshot of an ordered store is a list of entries whose keys increase. An iterator stands before
the entries that are ahead. It may break: it then yields the entries up to some point and ends there
in an error, which a reader has to tell from the end of the store.

The keys with a given prefix are neighbours in the order. A scan that seeks the prefix and goes on
while keys have it meets all of them.
-/

namespace KeyIterator

/-! ## Sorted lists -/

section Sorted

variable {γ : Type*} {P : γ → Bool} {l : List γ}

/-- Once a test fails it fails for all that follows. -/
theorem all_false_of_pairwise {a : γ} (h : (a :: l).Pairwise fun a b => P b = true → P a = true)
    (ha : P a = false) : ∀ b ∈ l, P b = false := by
  intro b hb
  by_contra hne
  have hab := List.rel_of_pairwise_cons h hb (by simpa using hne)
  simp [hab] at ha

variable (h : l.Pairwise fun a b => P b = true → P a = true)

include h

lemma takeWhile_eq_filter : l.takeWhile P = l.filter P := by
  induction l with
  | nil => rfl
  | cons a l ih =>
    cases ha : P a with
    | true => rw [List.takeWhile_cons_of_pos ha, List.filter_cons_of_pos ha, ih h.of_cons]
    | false =>
      have hnone : l.filter P = [] :=
        List.filter_eq_nil_iff.mpr fun b hb => by simp [all_false_of_pairwise h ha b hb]
      rw [List.takeWhile_cons_of_neg (by simp [ha]), List.filter_cons_of_neg (by simp [ha]), hnone]

lemma dropWhile_eq_filter : l.dropWhile P = l.filter fun a => !P a := by
  induction l with
  | nil => rfl
  | cons a l ih =>
    cases ha : P a with
    | true =>
      rw [List.dropWhile_cons_of_pos ha, List.filter_cons_of_neg (by simp [ha]), ih h.of_cons]
    | false =>
      have hall : l.filter (fun a => !P a) = l :=
        List.filter_eq_self.mpr fun b hb => by simp [all_false_of_pairwise h ha b hb]
      rw [List.dropWhile_cons_of_neg (by simp [ha]), List.filter_cons_of_pos (by simp [ha]), hall]

end Sorted

variable {α β : Type*}

/-! ## Iterators -/

/-- The entries of a store, in the order of their keys. -/
structure Snapshot (α β : Type*) [LT α] where
  entries : List (List α × β)
  sorted : entries.Pairwise fun a b => a.1 < b.1

/-- The entries ahead, the current one first, and whether the iterator ends in an error. -/
structure Iterator (α β : Type*) where
  rest : List (List α × β)
  broken : Bool

/-- An iterator that is not positioned yet. It breaks after some entries, or not at all. -/
def Snapshot.iterator [LT α] (s : Snapshot α β) : Option Nat → Iterator α β
  | none => ⟨s.entries, false⟩
  | some n => ⟨s.entries.take n, true⟩

lemma Snapshot.sorted_iterator [LT α] (s : Snapshot α β) (stop : Option Nat) :
    (s.iterator stop).rest.Pairwise fun a b => a.1 < b.1 := by
  cases stop with
  | none => exact s.sorted
  | some n => exact s.sorted.sublist (List.take_sublist _ _)

namespace Iterator

variable (it : Iterator α β)

/-- Go to the first entry that is not before the key. -/
def seek [DecidableEq α] [LT α] [DecidableLT α] (key : List α) : Iterator α β :=
  { it with rest := it.rest.dropWhile fun e => decide (e.1 < key) }

/-- The iterator has come to its end, and that is an error. -/
def err : Bool := it.rest.isEmpty && it.broken

/-- The entries that a loop meets as long as keys have the prefix. -/
def scan [BEq α] (pre : List α) : List (List α × β) := it.rest.takeWhile fun e => pre.isPrefixOf e.1

/-- The iterator after such a loop. -/
def afterScan [BEq α] (pre : List α) : Iterator α β :=
  { it with rest := it.rest.dropWhile fun e => pre.isPrefixOf e.1 }

end Iterator

/-! ## Prefixes -/

variable [DecidableEq α] [LT α] [LE α] [Std.LawfulOrderLT α] [Std.IsLinearOrder α]

variable {pre : List α} {it : Iterator α β}

/-- What is between a prefix and a key with it has it. -/
theorem isPrefixOf_of_between {b c : List α} (hpre : ¬b < pre) (hbc : ¬c < b)
    (h : pre.isPrefixOf c = true) : pre.isPrefixOf b = true := by
  induction pre generalizing b c with
  | nil => simp
  | cons x pre ih =>
    obtain ⟨t, rfl⟩ := List.isPrefixOf_iff_prefix.mp h
    cases b with
    | nil => exact absurd (List.nil_lt_cons x pre) hpre
    | cons y b =>
      rw [List.cons_lt_cons_iff, not_or, not_and] at hpre
      rw [List.cons_append, List.cons_lt_cons_iff, not_or, not_and] at hbc
      obtain rfl : x = y := Std.le_antisymm (Std.not_lt.mp hpre.1) (Std.not_lt.mp hbc.1)
      have hrest := ih (hpre.2 rfl) (hbc.2 rfl) (by simp [List.isPrefixOf_iff_prefix])
      simpa using hrest

omit [Std.IsLinearOrder α] in
lemma not_lt_of_isPrefixOf {k : List α} (h : pre.isPrefixOf k = true) : ¬k < pre := by
  obtain ⟨t, rfl⟩ := List.isPrefixOf_iff_prefix.mp h
  exact List.not_lt.mpr List.le_append_left

variable [DecidableLT α]

variable (hsorted : it.rest.Pairwise fun a b => a.1 < b.1)

include hsorted

lemma rest_seek (position : List α) :
    (it.seek position).rest = it.rest.filter fun e => !decide (e.1 < position) := by
  apply dropWhile_eq_filter
  refine hsorted.imp fun {a b} hab hb => ?_
  simp only [decide_eq_true_eq] at hb ⊢
  exact List.lt_trans hab hb

/-- A scan from a position on meets all entries with the prefix from there on, if the entries from
there on are not before the prefix. -/
theorem scan_seek {position : List α} (hgap : ∀ e ∈ it.rest, ¬e.1 < position → ¬e.1 < pre) :
    (it.seek position).scan pre =
      it.rest.filter fun e => pre.isPrefixOf e.1 && !decide (e.1 < position) := by
  have hseek := rest_seek hsorted position
  have hclosed : (it.seek position).rest.Pairwise fun a b =>
      pre.isPrefixOf b.1 = true → pre.isPrefixOf a.1 = true := by
    rw [hseek]
    refine (hsorted.filter _).imp_of_mem fun {a b} ha _ hab hb => ?_
    obtain ⟨hmem, hposition⟩ := List.mem_filter.mp ha
    exact isPrefixOf_of_between (hgap a hmem (by simpa using hposition)) (List.lt_asymm hab) hb
  rw [Iterator.scan, takeWhile_eq_filter hclosed, hseek, List.filter_filter]

/-- A scan from the prefix on meets all entries with it. -/
theorem scan_seek_self (pre : List α) :
    (it.seek pre).scan pre = it.rest.filter fun e => pre.isPrefixOf e.1 := by
  rw [scan_seek hsorted fun _ _ h => h]
  refine List.filter_congr fun e _ => ?_
  cases h : pre.isPrefixOf e.1 with
  | false => rfl
  | true => simp [not_lt_of_isPrefixOf h]

end KeyIterator
