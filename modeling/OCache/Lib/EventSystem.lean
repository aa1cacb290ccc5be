import Mathlib

/-!
# Runs of deterministic event systems

A concurrent program is a total step function: an event names the party that moves and the choices
its environment makes, and an event that is not enabled leaves the state alone. A run is a list of
events, so every interleaving is a list, and what holds "for every interleaving" is a statement
about all lists.
-/

namespace EventSystem

variable {σ ε : Type*}

section Run

variable (step : σ → ε → σ)

/-- The state after a list of events. -/
def run (s : σ) (es : List ε) : σ := es.foldl step s

@[simp] lemma run_nil (s : σ) : run step s [] = s := rfl

@[simp] lemma run_cons (s : σ) (e : ε) (es : List ε) :
    run step s (e :: es) = run step (step s e) es := rfl

lemma run_append (s : σ) (es fs : List ε) : run step s (es ++ fs) = run step (run step s es) fs :=
  List.foldl_append

/-- Every event of the run met `ok` in the state it was taken in. -/
def RunOk (ok : σ → ε → Prop) : σ → List ε → Prop
  | _, [] => True
  | s, e :: es => ok s e ∧ RunOk ok (step s e) es

instance decidableRunOk (ok : σ → ε → Prop) [∀ s e, Decidable (ok s e)] :
    (s : σ) → (es : List ε) → Decidable (RunOk step ok s es)
  | _, [] => isTrue trivial
  | s, e :: es =>
    have := decidableRunOk ok (step s e) es
    inferInstanceAs (Decidable (ok s e ∧ RunOk step ok (step s e) es))

end Run

variable {step : σ → ε → σ} {ok : σ → ε → Prop}

@[simp] lemma runOk_nil (s : σ) : RunOk step ok s [] := trivial

variable {es : List ε} {s : σ} {I : σ → Prop}

@[simp] lemma runOk_cons {e : ε} :
    RunOk step ok s (e :: es) ↔ ok s e ∧ RunOk step ok (step s e) es := Iff.rfl

lemma runOk_append {fs : List ε} :
    RunOk step ok s (es ++ fs) ↔ RunOk step ok s es ∧ RunOk step ok (run step s es) fs := by
  induction es generalizing s with
  | nil => simp
  | cons e es ih => simp [ih, and_assoc]

/-- A condition on the events alone. -/
theorem runOk_of_forall (h : ∀ e ∈ es, ∀ s, ok s e) (s : σ) : RunOk step ok s es := by
  induction es generalizing s with
  | nil => trivial
  | cons e es ih => exact ⟨h e (by simp) s, ih (fun e' he' => h e' (by simp [he'])) _⟩

/-- What every admissible step preserves holds after an admissible run. -/
theorem invariant_run (hstep : ∀ s e, I s → ok s e → I (step s e)) (hs : I s)
    (hok : RunOk step ok s es) : I (run step s es) := by
  induction es generalizing s with
  | nil => exact hs
  | cons e es ih => exact ih (hstep s e hs hok.1) hok.2

/-- What every step preserves holds after every run. -/
theorem invariant_run_of_forall (hstep : ∀ s e, I s → I (step s e)) (hs : I s) (es : List ε) :
    I (run step s es) := by
  induction es generalizing s with
  | nil => exact hs
  | cons e es ih => exact ih (hstep s e hs)

/-- What no event of a run changes is the same after the run. -/
theorem run_eq_of_forall {β : Type*} {f : σ → β} (h : ∀ e ∈ es, ∀ s, f (step s e) = f s) (s : σ) :
    f (run step s es) = f s := by
  induction es generalizing s with
  | nil => rfl
  | cons e es ih =>
    exact (ih (fun e' he' => h e' (by simp [he'])) _).trans (h e (by simp) s)

/-- If an event moves one party only, what holds for all parties at the start has to be checked for
the parties of a run only. -/
theorem forall_party_run {ι α : Type*} {f : σ → ι → α} {party : ε → ι}
    (hstep : ∀ s e, ∀ i ≠ party e, f (step s e) i = f s i) {P : α → Prop} (hs : ∀ i, P (f s i))
    (hrun : ∀ i ∈ es.map party, P (f (run step s es) i)) (i : ι) : P (f (run step s es) i) := by
  by_cases hi : i ∈ es.map party
  · exact hrun i hi
  · have hsame : f (run step s es) i = f s i := run_eq_of_forall (f := fun s => f s i) (fun e he s =>
      hstep s e i fun heq => hi (List.mem_map.mpr ⟨e, he, heq.symm⟩)) s
    rw [hsame]
    exact hs i

/-- A run simulates itself with the events that `keep` drops left out, if a kept event preserves the
relation on both sides and a dropped one preserves it on the left. -/
theorem simulation_filter {R : σ → σ → Prop} {keep : ε → Bool}
    (hkeep : ∀ s t e, R s t → ok s e → keep e = true → R (step s e) (step t e))
    (hdrop : ∀ s t e, R s t → ok s e → keep e = false → R (step s e) t) {t : σ} (h : R s t)
    (hok : RunOk step ok s es) : R (run step s es) (run step t (es.filter keep)) := by
  induction es generalizing s t with
  | nil => exact h
  | cons e es ih =>
    cases hk : keep e with
    | true =>
      rw [List.filter_cons_of_pos hk]
      exact ih (hkeep s t e h hok.1 hk) hok.2
    | false =>
      rw [List.filter_cons_of_neg (by simp [hk])]
      exact ih (hdrop s t e h hok.1 hk) hok.2

end EventSystem
