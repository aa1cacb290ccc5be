import Mathlib.Data.List.Pairwise
import Mathlib.Data.List.Forall2

/-!
# Matching two increasing sequences

Two counters hand out increasing numbers at the same moments. The pairs of numbers handed out
together are listed, the newest first, and each pair is above all earlier ones on both sides.
Comparisons of numbers on one side are then comparisons on the other.
-/

namespace OrderMatching

variable {α β : Type*} [LT α] [LT β]

/-- Pairs that increase on both sides, the newest first. -/
def Matching (P : List (α × β)) : Prop := P.Pairwise fun p q => q.1 < p.1 ∧ q.2 < p.2

variable {P : List (α × β)} {p q : α × β}

lemma matching_singleton (p : α × β) : Matching [p] := List.pairwise_singleton _ p

lemma Matching.cons (h : Matching P) (hp : ∀ q ∈ P, q.1 < p.1 ∧ q.2 < p.2) : Matching (p :: P) :=
  List.pairwise_cons.mpr ⟨hp, h⟩

/-- Two pairs are the same, or one is above the other on both sides. -/
theorem Matching.trichotomy (h : Matching P) (hp : p ∈ P) (hq : q ∈ P) :
    p = q ∨ (p.1 < q.1 ∧ p.2 < q.2) ∨ (q.1 < p.1 ∧ q.2 < p.2) := by
  induction P with
  | nil => cases hp
  | cons r P ih =>
    obtain ⟨hr, hP⟩ := List.pairwise_cons.mp h
    rcases List.mem_cons.mp hp with rfl | hp'
    · rcases List.mem_cons.mp hq with rfl | hq'
      · exact .inl rfl
      · exact .inr (.inr (hr q hq'))
    · rcases List.mem_cons.mp hq with rfl | hq'
      · exact .inr (.inl (hr p hp'))
      · exact ih hP hp' hq'

section Asymm

variable [Std.Asymm (fun a b : α => a < b)] [Std.Asymm (fun a b : β => a < b)]

lemma Matching.lt_iff (h : Matching P) (hp : p ∈ P) (hq : q ∈ P) : p.1 < q.1 ↔ p.2 < q.2 := by
  rcases h.trichotomy hp hq with rfl | ⟨h₁, h₂⟩ | ⟨h₁, h₂⟩
  · exact ⟨fun hlt => absurd hlt (Std.Asymm.asymm (r := fun a b : α => a < b) _ _ hlt),
      fun hlt => absurd hlt (Std.Asymm.asymm (r := fun a b : β => a < b) _ _ hlt)⟩
  · exact ⟨fun _ => h₂, fun _ => h₁⟩
  · exact ⟨fun hlt => absurd h₁ (Std.Asymm.asymm (r := fun a b : α => a < b) _ _ hlt),
      fun hlt => absurd h₂ (Std.Asymm.asymm (r := fun a b : β => a < b) _ _ hlt)⟩

lemma Matching.eq_iff (h : Matching P) (hp : p ∈ P) (hq : q ∈ P) : p.1 = q.1 ↔ p.2 = q.2 := by
  rcases h.trichotomy hp hq with rfl | ⟨h₁, h₂⟩ | ⟨h₁, h₂⟩
  · exact ⟨fun _ => rfl, fun _ => rfl⟩
  all_goals
    refine ⟨fun heq => ?_, fun heq => ?_⟩
    · rw [heq] at h₁
      exact absurd h₁ (Std.Asymm.asymm (r := fun a b : α => a < b) _ _ h₁)
    · rw [heq] at h₂
      exact absurd h₂ (Std.Asymm.asymm (r := fun a b : β => a < b) _ _ h₂)

variable [DecidableEq α] [Inhabited β]

/-- The partner of a number. -/
def translate (P : List (α × β)) (a : α) : β := ((P.find? fun p => p.1 = a).map Prod.snd).getD default

lemma Matching.translate_eq (h : Matching P) (hp : p ∈ P) : translate P p.1 = p.2 := by
  unfold translate
  cases hfind : P.find? fun q => decide (q.1 = p.1) with
  | none => exact absurd (List.find?_eq_none.mp hfind p hp) (by simp)
  | some q =>
    have hq : q.1 = p.1 := by simpa using List.find?_some hfind
    exact (h.eq_iff (List.mem_of_find?_eq_some hfind) hp).mp hq

end Asymm

end OrderMatching
