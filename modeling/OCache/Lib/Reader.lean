import Mathlib

/-!
# Byte readers

A reader takes a value off the front of a byte string and hands back what is left. Every reader
carries the proof that it is local: the bytes it did not consume do not influence its answer.
Locality is what makes encodings composable, because a value that was read once from some bytes is
read again whenever the same bytes stand in front of anything else.
-/

/-- A reader of values from the front of a byte string. -/
structure Reader (α : Type*) where
  /-- The value read and the bytes behind it, or `none` if the input is malformed. -/
  run : List UInt8 → Option (α × List UInt8)
  /-- The answer depends on the consumed bytes only. -/
  isLocal : ∀ {b : List UInt8} {a : α} {rest : List UInt8}, run b = some (a, rest) →
    ∃ used, b = used ++ rest ∧ ∀ rest', run (used ++ rest') = some (a, rest')

namespace Reader

variable {α β σ : Type*}

/-! ## Combinators -/

/-- Read nothing and return `a`. -/
protected def pure (a : α) : Reader α where
  run b := some (a, b)
  isLocal := by
    intro b a' rest h
    simp only [Option.some.injEq, Prod.mk.injEq] at h
    obtain ⟨rfl, rfl⟩ := h
    exact ⟨[], rfl, fun rest' => rfl⟩

/-- Reject every input. -/
def fail : Reader α where
  run _ := none
  isLocal := by simp

/-- Return the given value, or reject. -/
def ofOption : Option α → Reader α
  | some a => Reader.pure a
  | none => fail

/-- Read one byte. -/
def byte : Reader UInt8 where
  run
    | [] => none
    | c :: cs => some (c, cs)
  isLocal := by
    intro b a rest h
    cases b with
    | nil => simp at h
    | cons c cs =>
      simp only [Option.some.injEq, Prod.mk.injEq] at h
      obtain ⟨rfl, rfl⟩ := h
      exact ⟨[c], rfl, fun rest' => rfl⟩

/-- Read exactly `n` bytes. -/
def take (n : Nat) : Reader (List UInt8) where
  run b := if n ≤ b.length then some (b.take n, b.drop n) else none
  isLocal := by
    intro b a rest h
    split at h
    · rename_i hn
      simp only [Option.some.injEq, Prod.mk.injEq] at h
      obtain ⟨rfl, rfl⟩ := h
      refine ⟨b.take n, (List.take_append_drop n b).symm, fun rest' => ?_⟩
      have hlen : (b.take n).length = n := by simp [hn]
      rw [if_pos (by simp; omega), List.take_left' hlen, List.drop_left' hlen]
    · simp at h

/-- Read with `x`, then with the reader `f` chooses from what was read. -/
protected def bind (x : Reader α) (f : α → Reader β) : Reader β where
  run b :=
    match x.run b with
    | none => none
    | some (a, rest) => (f a).run rest
  isLocal := by
    intro b c rest h
    split at h
    · simp at h
    · rename_i a mid hx
      obtain ⟨used₁, rfl, h₁⟩ := x.isLocal hx
      obtain ⟨used₂, rfl, h₂⟩ := (f a).isLocal h
      refine ⟨used₁ ++ used₂, by simp, fun rest' => ?_⟩
      rw [List.append_assoc, h₁]
      exact h₂ rest'

/-- Apply `f` to what `x` read. -/
protected def map (f : α → β) (x : Reader α) : Reader β :=
  x.bind fun a => Reader.pure (f a)

@[simp] lemma pure_run (a : α) (b : List UInt8) : (Reader.pure a).run b = some (a, b) := rfl

@[simp] lemma fail_run (b : List UInt8) : (fail : Reader α).run b = none := rfl

@[simp] lemma ofOption_some (a : α) : ofOption (some a) = Reader.pure a := rfl

@[simp] lemma ofOption_none : ofOption (none : Option α) = fail := rfl

@[simp] lemma byte_run_cons (c : UInt8) (cs : List UInt8) : byte.run (c :: cs) = some (c, cs) :=
  rfl

@[simp] lemma byte_run_nil : byte.run [] = none := rfl

variable {b rest : List UInt8} {a : α} {x : Reader α} {r : σ → Reader σ} {s s' : σ}

variable {n : Nat} {f : α → Reader β} {c : β} {used : List UInt8}

/-- A read of `n` bytes returns the first `n` bytes of an input that starts with them. -/
theorem take_run_append (h : b.length = n) : (take n).run (b ++ rest) = some (b, rest) := by
  have hn : n ≤ (b ++ rest).length := by simp; omega
  simp only [take, if_pos hn, List.take_left' h, List.drop_left' h]

lemma bind_run_of_some (h : x.run b = some (a, rest)) : (x.bind f).run b = (f a).run rest := by
  simp [Reader.bind, h]

lemma map_run_of_some {f : α → β} (h : x.run b = some (a, rest)) :
    (x.map f).run b = some (f a, rest) := by
  simp [Reader.map, bind_run_of_some h]

/-- A successful `bind` is two successful reads in a row. -/
theorem exists_of_bind_run (h : (x.bind f).run b = some (c, rest)) :
    ∃ a mid, x.run b = some (a, mid) ∧ (f a).run mid = some (c, rest) := by
  simp only [Reader.bind] at h
  split at h
  · simp at h
  · rename_i a mid hx
    exact ⟨a, mid, hx, h⟩

lemma exists_of_map_run {f : α → β} (h : (x.map f).run b = some (c, rest)) :
    ∃ a, x.run b = some (a, rest) ∧ f a = c := by
  obtain ⟨a, mid, hx, h⟩ := exists_of_bind_run h
  simp only [pure_run, Option.some.injEq, Prod.mk.injEq] at h
  obtain ⟨rfl, rfl⟩ := h
  exact ⟨a, hx, rfl⟩

lemma length_of_take_run {x : List UInt8} (h : (take n).run b = some (x, rest)) : x.length = n := by
  simp only [take] at h
  split at h
  · rename_i hn
    simp only [Option.some.injEq, Prod.mk.injEq] at h
    rw [← h.1]
    simp [hn]
  · simp at h

/-- What stands behind the consumed bytes does not matter. -/
theorem run_append_of_run (h : x.run (used ++ rest) = some (a, rest)) (rest' : List UInt8) :
    x.run (used ++ rest') = some (a, rest') := by
  obtain ⟨used', hused, hlocal⟩ := x.isLocal h
  rw [List.append_cancel_right hused]
  exact hlocal rest'

/-! ## Consumption -/

/-- What is left is never longer than the input. -/
theorem length_le_of_run (h : x.run b = some (a, rest)) : rest.length ≤ b.length := by
  obtain ⟨used, rfl, -⟩ := x.isLocal h
  simp

/-- The reader consumes at least one byte whenever it succeeds. -/
def Consumes (x : Reader α) : Prop :=
  ∀ b a rest, x.run b = some (a, rest) → rest.length < b.length

lemma consumes_byte : byte.Consumes := by
  intro b a rest h
  cases b with
  | nil => simp at h
  | cons c cs =>
    simp only [byte_run_cons, Option.some.injEq, Prod.mk.injEq] at h
    obtain ⟨-, rfl⟩ := h
    simp

lemma consumes_bind (hx : x.Consumes) (f : α → Reader β) : (x.bind f).Consumes := by
  intro b c rest h
  obtain ⟨a, mid, h₁, h₂⟩ := exists_of_bind_run h
  exact lt_of_le_of_lt (length_le_of_run h₂) (hx b a mid h₁)

/-- The consumed bytes, with the proof that `x` reads them to the end. -/
def exactly (x : Reader Unit) : Reader {raw : List UInt8 // x.run raw = some ((), [])} where
  run b :=
    match h : x.run b with
    | none => none
    | some ((), rest) => some (⟨b.take (b.length - rest.length), by
        obtain ⟨used, rfl, hused⟩ := x.isLocal h
        simpa using hused []⟩, rest)
  isLocal := by
    intro b raw rest h
    split at h
    · simp at h
    · rename_i rest' hx
      simp only [Option.some.injEq, Prod.mk.injEq] at h
      obtain ⟨rfl, rfl⟩ := h
      obtain ⟨used, rfl, hused⟩ := x.isLocal hx
      refine ⟨used, rfl, fun rest'' => ?_⟩
      split
      · rename_i hx'
        rw [hused rest''] at hx'
        simp at hx'
      · rename_i rest₂ hx'
        rw [hused rest''] at hx'
        simp only [Option.some.injEq, Prod.mk.injEq, true_and] at hx'
        subst hx'
        simp

/-- Bytes that `x` reads completely are returned by `exactly x` in front of anything. -/
theorem exactly_run_append (x : Reader Unit) (raw : {raw : List UInt8 // x.run raw = some ((), [])})
    (rest : List UInt8) : x.exactly.run (raw.1 ++ rest) = some (raw, rest) := by
  obtain ⟨raw, hraw⟩ := raw
  obtain ⟨used, hused, h⟩ := x.isLocal hraw
  have hrun : x.run (raw ++ rest) = some ((), rest) := by
    rw [hused, List.append_nil]
    exact h rest
  simp only [exactly]
  split
  · rename_i h'
    rw [hrun] at h'
    simp at h'
  · rename_i rest' h'
    rw [hrun] at h'
    simp only [Option.some.injEq, Prod.mk.injEq, true_and] at h'
    subst h'
    simp

lemma run_of_exactly_run {x : Reader Unit} {raw : {raw : List UInt8 // x.run raw = some ((), [])}}
    (h : x.exactly.run b = some (raw, rest)) : x.run b = some ((), rest) := by
  simp only [exactly] at h
  split at h
  · simp at h
  · rename_i rest' hx
    simp only [Option.some.injEq, Prod.mk.injEq] at h
    rw [hx, h.2]

/-! ## Folding a reader over the whole input -/

/-- Apply `r` until the input is used up, at most `n` times. -/
def fold (r : σ → Reader σ) : Nat → σ → List UInt8 → Option σ
  | _, s, [] => some s
  | 0, _, _ :: _ => none
  | n + 1, s, c :: cs =>
    match (r s).run (c :: cs) with
    | none => none
    | some (s', rest) => fold r n s' rest

/-- Apply `r` until the input is used up. -/
def foldAll (r : σ → Reader σ) (s : σ) (b : List UInt8) : Option σ :=
  fold r b.length s b

@[simp] lemma foldAll_nil (r : σ → Reader σ) (s : σ) : foldAll r s [] = some s := rfl

section

variable (hr : ∀ s, (r s).Consumes)

include hr

/-- Extra rounds do not change the result of a fold whose reader consumes its input. -/
theorem fold_eq_foldAll :
    ∀ (n : Nat) (s : σ) (b : List UInt8), b.length ≤ n → fold r n s b = foldAll r s b := by
  -- Strong induction on the input: a consuming read leaves a shorter one.
  intro n s b
  induction hb : b.length using Nat.strong_induction_on generalizing n s b with
  | _ len ih =>
    intro hn
    cases b with
    | nil => simp [fold]
    | cons c cs =>
      obtain ⟨n, rfl⟩ : ∃ m, n = m + 1 := ⟨n - 1, by simp at hb; omega⟩
      simp only [foldAll, List.length_cons, fold]
      cases hrun : (r s).run (c :: cs) with
      | none => rfl
      | some p =>
        obtain ⟨s', rest⟩ := p
        have hlt := hr s _ _ _ hrun
        simp only [List.length_cons] at hlt hb
        simp only
        rw [ih rest.length (by omega) n s' rest rfl (by omega),
          ih rest.length (by omega) cs.length s' rest rfl (by omega)]

/-- One successful read peels its bytes off the fold. -/
theorem foldAll_step (h : (r s).run (used ++ rest) = some (s', rest)) :
    foldAll r s (used ++ rest) = foldAll r s' rest := by
  have hlt := hr s _ _ _ h
  obtain ⟨c, cs, hcons⟩ : ∃ c cs, used ++ rest = c :: cs := by
    cases hb : used ++ rest with
    | nil => simp [hb] at hlt
    | cons c cs => exact ⟨c, cs, rfl⟩
  rw [hcons] at h hlt ⊢
  simp only [foldAll, List.length_cons, fold, h]
  exact fold_eq_foldAll hr _ _ _ (by simp at hlt; omega)

/-- A fold starts with one read. -/
theorem foldAll_of_ne_nil (s : σ) (hb : b ≠ []) :
    foldAll r s b = ((r s).run b).bind fun p => foldAll r p.1 p.2 := by
  obtain ⟨c, cs, rfl⟩ := List.exists_cons_of_ne_nil hb
  simp only [foldAll, List.length_cons, fold]
  cases hrun : (r s).run (c :: cs) with
  | none => rfl
  | some p =>
    have hlt := hr s _ _ _ hrun
    exact fold_eq_foldAll hr _ _ _ (by simp at hlt; omega)

/-- What was read completely is read the same in front of more bytes. -/
theorem foldAll_append {a : List UInt8} (h : foldAll r s a = some s') (b : List UInt8) :
    foldAll r s (a ++ b) = foldAll r s' b := by
  induction hlen : a.length using Nat.strong_induction_on generalizing s a with
  | _ n ih =>
    cases a with
    | nil =>
      rw [foldAll_nil, Option.some.injEq] at h
      rw [List.nil_append, h]
    | cons c cs =>
      rw [foldAll_of_ne_nil hr _ (List.cons_ne_nil _ _), Option.bind_eq_some_iff] at h
      obtain ⟨⟨s₁, rest⟩, hrun, hrest⟩ := h
      have hlt := hr s _ _ _ hrun
      obtain ⟨used, hused, hlocal⟩ := (r s).isLocal hrun
      rw [hused, List.append_assoc, foldAll_step hr (hlocal (rest ++ b))]
      exact ih rest.length (hlen ▸ hlt) hrest rfl

end

/-- A property that every read preserves holds after the fold. -/
theorem foldAll_invariant {I : σ → Prop}
    (hstep : ∀ s b s' rest, I s → (r s).run b = some (s', rest) → I s') (hs : I s)
    (h : foldAll r s b = some s') : I s' := by
  suffices ∀ n s b, I s → fold r n s b = some s' → I s' from this _ _ _ hs h
  intro n
  induction n with
  | zero =>
    intro s b hs h
    cases b with
    | nil =>
      simp only [fold, Option.some.injEq] at h
      exact h ▸ hs
    | cons c cs => simp [fold] at h
  | succ n ih =>
    intro s b hs h
    cases b with
    | nil =>
      simp only [fold, Option.some.injEq] at h
      exact h ▸ hs
    | cons c cs =>
      simp only [fold] at h
      split at h
      · simp at h
      · rename_i s₁ rest hrun
        exact ih s₁ rest (hstep _ _ _ _ hs hrun) h

/-! ## Two readers of the same bytes -/

/-- Where `x` reads a value, `y` reads its image under `f` from the same bytes, and `y` rejects what
`x` rejects. -/
def Agrees (f : α → β) (x : Reader α) (y : Reader β) : Prop :=
  ∀ b, y.run b = (x.run b).map (Prod.map f id)

section Agrees

variable {γ τ : Type*} {f : β → γ}

variable {x : Reader α}

lemma agrees_map {g : α → β} {h : α → γ} (hf : ∀ a, f (g a) = h a) :
    Agrees f (x.map g) (x.map h) := by
  intro b
  cases hx : x.run b with
  | none => simp [Reader.map, Reader.bind, hx]
  | some p => simp [map_run_of_some hx, hf]

lemma agrees_bind {u : α → Reader β} {v : α → Reader γ} (huv : ∀ a, Agrees f (u a) (v a)) :
    Agrees f (x.bind u) (x.bind v) := by
  intro b
  cases hx : x.run b with
  | none => simp [Reader.bind, hx]
  | some p => rw [bind_run_of_some hx, bind_run_of_some hx, huv]

/-- The consumed bytes do not matter to who does not look at them. -/
theorem agrees_exactly {x : Reader Unit} {g : {raw : List UInt8 // x.run raw = some ((), [])} → β}
    {c : γ} (hf : ∀ raw, f (g raw) = c) : Agrees f (x.exactly.map g) (x.map fun _ => c) := by
  intro b
  cases hx : x.run b with
  | none =>
    have hnone : x.exactly.run b = none := by
      simp only [exactly]
      split
      · rfl
      · simp_all
    simp [Reader.map, Reader.bind, hx, hnone]
  | some p =>
    obtain ⟨used, rfl, hused⟩ := x.isLocal hx
    have hraw : x.run used = some ((), []) := by simpa using hused []
    rw [map_run_of_some hx, map_run_of_some (exactly_run_append x ⟨used, hraw⟩ p.2)]
    simp [hf]

/-- Readers that agree on every step agree on the whole input. -/
theorem foldAll_agrees {f : σ → τ} {r : σ → Reader σ} {q : τ → Reader τ}
    (hstep : ∀ s, Agrees f (r s) (q (f s))) (s : σ) (b : List UInt8) :
    foldAll q (f s) b = (foldAll r s b).map f := by
  suffices ∀ n s b, fold q n (f s) b = (fold r n s b).map f from this _ _ _
  intro n
  induction n with
  | zero =>
    intro s b
    cases b <;> rfl
  | succ n ih =>
    intro s b
    cases b with
    | nil => rfl
    | cons c cs =>
      simp only [fold, hstep s (c :: cs)]
      cases (r s).run (c :: cs) with
      | none => rfl
      | some p => exact ih p.1 p.2

end Agrees

end Reader
