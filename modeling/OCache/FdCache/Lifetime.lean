import OCache.Lib.Counting
import OCache.FdCache.Protocol

/-!
# Lifetime of descriptors

The reference count of an entry is the number of calls and callers that have a reference to it,
until the last of them claims the entry. From then on exactly one call is closing the entry, and
after that none. So a descriptor is closed once, and only when nobody uses it.

A claimed entry does not stay in the map. A cached one is deleted by the call that claimed it. One
that is not cached leaves the map before it can be claimed: the call that stored it deletes it while
it still has its reference.
-/

namespace OCache.FdCache

open EventSystem Counting

/-! ## The life of an entry -/

/-- The stages of an entry with `H` references and `C` calls that close it. -/
inductive Life (x : Entry) (H C : ℕ∞) : Prop where
  | held (n : ℕ) (refs : x.refs = n + 1) (holders : H = n + 1) (closers : C = 0)
      (closes : x.closes = 0)
  | claimed (refs : x.refs = refsClosed) (holders : H = 0) (closers : C = 1) (closes : x.closes = 0)
  | closed (refs : x.refs = refsClosed) (holders : H = 0) (closers : C = 0)
      (closes : x.closes = if x.opened then 1 else 0)

namespace Life

variable {x y : Entry} {H C H' C' : ℕ∞}

lemma new (path : String) (cached : Bool) : Life (.new path cached) 1 0 :=
  .held 0 rfl rfl rfl rfl

variable (h : Life x H C)

include h

/-- Only the count and the closes matter, and for a closed entry whether there was a descriptor. -/
theorem congr (hrefs : y.refs = x.refs) (hcloses : y.closes = x.closes)
    (hopened : H = 0 → y.opened = x.opened) : Life y H C := by
  cases h with
  | held n refs holders closers closes =>
    exact .held n (hrefs.trans refs) holders closers (hcloses.trans closes)
  | claimed refs holders closers closes =>
    exact .claimed (hrefs.trans refs) holders closers (hcloses.trans closes)
  | closed refs holders closers closes =>
    refine .closed (hrefs.trans refs) holders closers ?_
    rw [hcloses, closes, hopened holders]

lemma refs_ne_zero : x.refs ≠ 0 := by
  cases h with
  | held n refs => omega
  | claimed refs | closed refs => simp [refs, refsClosed]

/-- A reference keeps the entry from being claimed. -/
theorem refs_pos (hH : H ≠ 0) : 0 < x.refs := by
  cases h with
  | held n refs => omega
  | claimed _ holders | closed _ holders => exact absurd holders hH

lemma closes_eq_zero (hH : H ≠ 0) : x.closes = 0 := by
  cases h with
  | held _ _ _ _ closes => exact closes
  | claimed _ holders | closed _ holders => exact absurd holders hH

lemma closes_le_one : x.closes ≤ 1 := by
  cases h with
  | held _ _ _ _ closes | claimed _ _ _ closes => omega
  | closed _ _ _ closes =>
    rw [closes]
    split <;> omega

/-- An entry that nobody refers to or closes has been closed. -/
theorem closes_of_unused (hH : H = 0) (hC : C = 0) : x.closes = if x.opened then 1 else 0 := by
  cases h with
  | held n _ holders => exact absurd (holders.symm.trans hH) (by simp)
  | claimed _ _ closers => exact absurd (closers.symm.trans hC) one_ne_zero
  | closed _ _ _ closes => exact closes

lemma acquire (hx : x.tryAcquireRef = some y) (hH : H' = H + 1) : Life y H' C := by
  unfold Entry.tryAcquireRef at hx
  split at hx
  · cases hx
  · rename_i hpos
    obtain rfl := Option.some.inj hx
    cases h with
    | held n refs holders closers closes =>
      refine .held (n + 1) ?_ ?_ closers closes
      · simp [refs]
      · rw [hH, holders]
        push_cast
        rfl
    | claimed refs | closed refs => exact absurd (by simp [refs, refsClosed]) hpos

/-- One of the references is dropped, and the last one claims the entry. -/
theorem drop (hH : H' + 1 = H) (hC : C' = if x.dropRef.2 then C + 1 else C) :
    Life x.dropRef.1 H' C' := by
  have hne : H ≠ 0 := by
    rw [← hH]
    simp
  cases h with
  | held n refs holders closers closes =>
    have hH' : H' = n := by
      rw [holders] at hH
      exact (ENat.add_left_injective_of_ne_top ENat.one_ne_top) hH
    have hpos : ¬x.refs ≤ 0 := by omega
    by_cases hmore : 1 < x.refs
    · -- Other references are left.
      have hdrop : x.dropRef = ({ x with refs := x.refs - 1 }, false) := by
        simp [Entry.dropRef, hpos, hmore]
      rw [hdrop] at hC ⊢
      obtain ⟨m, rfl⟩ : ∃ m, n = m + 1 := ⟨n - 1, by omega⟩
      refine .held m ?_ (by simpa using hH') (hC.trans closers) closes
      simp [refs]
    · have hdrop : x.dropRef = ({ x with refs := refsClosed }, true) := by
        simp [Entry.dropRef, hpos, hmore]
      rw [hdrop] at hC ⊢
      obtain rfl : n = 0 := by omega
      refine .claimed rfl (by simpa using hH') ?_ closes
      simpa [closers] using hC
  | claimed _ holders | closed _ holders => exact absurd holders hne

lemma close (hC : C' + 1 = C) : Life x.close H C' := by
  cases h with
  | held _ _ _ closers => exact absurd (hC.trans closers) (by simp)
  | claimed refs holders closers closes =>
    have hC' : C' = 0 := by
      rw [closers] at hC
      exact (ENat.add_left_injective_of_ne_top ENat.one_ne_top) (hC.trans (zero_add 1).symm)
    refine .closed refs holders hC' ?_
    simp only [Entry.close, closes]
  | closed _ _ closers => exact absurd (hC.trans closers) (by simp)

end Life

/-! ## The invariant -/

/-- The number of references to an entry. -/
noncomputable def State.holders (s : State) (e : Nat) : ℕ∞ := count (fun φ => φ.holds = some e) s.calls

/-- The number of calls that close an entry. -/
noncomputable def State.closers (s : State) (e : Nat) : ℕ∞ :=
  count (fun φ => φ.closing = some e) s.calls

/-- The entry whose file has to be open in this phase. -/
def Phase.returns : Phase → Option Nat
  | .book _ e | .holding _ e => some e
  | _ => none

structure Inv (s : State) : Prop where
  named : ∀ t p e, (s.calls t).named = some (p, e) → e < s.next ∧ (s.entry e).path = p
  stored : ∀ p e, s.entries p = some e → e < s.next ∧ (s.entry e).path = p
  opened : ∀ t e, (s.calls t).returns = some e → (s.entry e).opened = true
  /-- Who stored an entry that is not cached has not deleted it yet. -/
  uncached : ∀ p e, s.entries p = some e → (s.entry e).cached = false →
    ∃ t, (s.calls t).opener = some e
  /-- Who claimed an entry of the map is about to delete it. -/
  claimed : ∀ p e, s.entries p = some e → (s.entry e).refs = refsClosed →
    (s.entry e).cached = true ∧ ∃ t, s.calls t = .evict p e
  life : ∀ e < s.next, Life (s.entry e) (s.holders e) (s.closers e)

lemma inv_init (capacity : Int) : Inv (.init capacity) where
  named t p e h := by cases h
  stored p e h := by cases h
  opened t e h := by cases h
  uncached p e h := by cases h
  claimed p e h := by cases h
  life e h := absurd h (Nat.not_lt_zero e)

/-! ## Phases -/

variable {e : Nat} {φ : Phase} {p : String} {x : Entry}

lemma Phase.named_of_holds (h : φ.holds = some e) : ∃ p, φ.named = some (p, e) := by
  cases φ <;> simp_all

lemma Phase.named_of_closing (h : φ.closing = some e) : ∃ p, φ.named = some (p, e) := by
  cases φ <;> simp_all

lemma Phase.holds_of_opener (h : φ.opener = some e) : φ.holds = some e := by
  cases φ <;> simp_all

variable {s s' : State} {t : Nat} {φ : Phase}

lemma Inv.holders_ne_zero (h : (s.calls t).holds = some e) : s.holders e ≠ 0 :=
  count_ne_zero (q := fun φ => Phase.holds φ = some e) h

lemma Inv.lt_of_holds (h : Inv s) (ht : (s.calls t).holds = some e) : e < s.next := by
  obtain ⟨p, hp⟩ := Phase.named_of_holds ht
  exact (h.named t p e hp).1

/-! ## One step -/

/-- What a step that stores nothing does to the map, the entries and the call that takes it. -/
structure Acts (s s' : State) (t : Nat) (φ : Phase) : Prop where
  calls : s'.calls = Function.update s.calls t φ
  next : s'.next = s.next
  entries : ∀ p, s'.entries p = s.entries p ∨ s'.entries p = none
  path : ∀ e, (s'.entry e).path = (s.entry e).path
  cached : ∀ e, (s'.entry e).cached = (s.entry e).cached
  opened : ∀ e, (s.entry e).opened = true → (s'.entry e).opened = true
  /-- The call works on the entry it worked on, or on one that it found. -/
  named : ∀ p e, φ.named = some (p, e) → (s.calls t).named = some (p, e) ∨ s.entries p = some e
  returns : ∀ e, φ.returns = some e → (s'.entry e).opened = true
  opener : ∀ p e, (s.calls t).opener = some e → s'.entries p = some e →
    (s.entry e).cached = false → φ.opener = some e
  /-- The entry was claimed before, and not by this call, or is claimed by it now. -/
  claimed : ∀ p e, s'.entries p = some e → (s'.entry e).refs = refsClosed →
    ((s.entry e).refs = refsClosed ∧ s.calls t ≠ .evict p e) ∨
      ((s.entry e).cached = true ∧ φ = .evict p e)

lemma Acts.old (h : Acts s s' t φ) (he : s'.entries p = some e) : s.entries p = some e := by
  rcases h.entries p with heq | heq
  · exact heq ▸ he
  · rw [heq] at he
    cases he

lemma Inv.acts (h : Inv s) (ha : Acts s s' t φ)
    (hlife : ∀ e < s.next, Life (s'.entry e) (s'.holders e) (s'.closers e)) : Inv s' where
  -- In each part the call that moves is looked at first, the others are as before.
  named t' p e ht' := by
    rw [ha.calls] at ht'
    rw [ha.next, ha.path]
    by_cases heq : t' = t
    · subst heq
      rw [Function.update_self] at ht'
      rcases ha.named p e ht' with hold | hfound
      · exact h.named t' p e hold
      · exact h.stored p e hfound
    · rw [Function.update_of_ne heq] at ht'
      exact h.named t' p e ht'
  stored p e he := by
    rw [ha.next, ha.path]
    exact h.stored p e (ha.old he)
  opened t' e ht' := by
    rw [ha.calls] at ht'
    by_cases heq : t' = t
    · subst heq
      rw [Function.update_self] at ht'
      exact ha.returns e ht'
    · rw [Function.update_of_ne heq] at ht'
      exact ha.opened e (h.opened t' e ht')
  uncached p e he hcached := by
    rw [ha.cached] at hcached
    obtain ⟨t', ht'⟩ := h.uncached p e (ha.old he) hcached
    refine ⟨t', ?_⟩
    rw [ha.calls]
    by_cases heq : t' = t
    · subst heq
      rw [Function.update_self]
      exact ha.opener p e ht' he hcached
    · rwa [Function.update_of_ne heq]
  claimed p e he hrefs := by
    rw [ha.cached, ha.calls]
    rcases ha.claimed p e he hrefs with ⟨hbefore, hne⟩ | ⟨hcached, rfl⟩
    · -- Whoever had claimed the entry has not moved.
      obtain ⟨hcached, t', ht'⟩ := h.claimed p e (ha.old he) hbefore
      have heq : t' ≠ t := by
        rintro rfl
        exact hne ht'
      exact ⟨hcached, t', by rwa [Function.update_of_ne heq]⟩
    · exact ⟨hcached, t, Function.update_self t _ _⟩
  life e he := hlife e (ha.next ▸ he)

/-- The counts, if the call keeps its references and claims. -/
theorem life_of_same (h : Inv s) (hcalls : s'.calls = Function.update s.calls t φ)
    (hholds : φ.holds = (s.calls t).holds) (hclosing : φ.closing = (s.calls t).closing)
    (hrefs : ∀ e, (s'.entry e).refs = (s.entry e).refs)
    (hcloses : ∀ e, (s'.entry e).closes = (s.entry e).closes)
    (hopened : ∀ e, s.holders e = 0 → (s'.entry e).opened = (s.entry e).opened) :
    ∀ e < s.next, Life (s'.entry e) (s'.holders e) (s'.closers e) := by
  intro e he
  have hH : s'.holders e = s.holders e := by
    rw [State.holders, hcalls]
    exact count_update_same (by rw [hholds])
  have hC : s'.closers e = s.closers e := by
    rw [State.closers, hcalls]
    exact count_update_same (by rw [hclosing])
  rw [hH, hC]
  exact (h.life e he).congr (hrefs e) (hcloses e) (hopened e)

/-- A step that changes neither counts nor entries. -/
theorem Inv.moves (h : Inv s) (ha : Acts s s' t φ) (hentry : s'.entry = s.entry)
    (hholds : φ.holds = (s.calls t).holds) (hclosing : φ.closing = (s.calls t).closing) : Inv s' :=
  h.acts ha (life_of_same h ha.calls hholds hclosing (fun e => by rw [hentry])
    (fun e => by rw [hentry]) fun e _ => by rw [hentry])

variable {ψ : Phase}

/-- A call goes on and changes nothing else. -/
theorem Inv.goto (h : Inv s) (hcall : s.calls t = ψ) (hholds : φ.holds = ψ.holds)
    (hclosing : φ.closing = ψ.closing) (hopener : φ.opener = ψ.opener)
    (hnamed : ∀ p e, φ.named = some (p, e) → ψ.named = some (p, e) ∨ s.entries p = some e)
    (hreturns : ∀ e, φ.returns = some e → (s.entry e).opened = true)
    (hevict : ∀ p e, ψ = .evict p e → s.entries p ≠ some e) : Inv (s.goto t φ) := by
  subst hcall
  refine h.moves (t := t) (φ := φ) ?_ rfl hholds hclosing
  exact
    { calls := rfl
      next := rfl
      entries := fun p => .inl rfl
      path := fun e => rfl
      cached := fun e => rfl
      opened := fun e => id
      named := hnamed
      returns := hreturns
      opener := fun p e he _ _ => hopener.trans he
      claimed := fun p e he hrefs => .inl ⟨hrefs, fun ht => hevict p e ht he⟩ }

/-- A call that works on no entry goes on to a phase without one. -/
theorem Inv.goto_unnamed (h : Inv s) (hcall : s.calls t = ψ) (hholds : φ.holds = ψ.holds)
    (hclosing : φ.closing = ψ.closing) (hopener : φ.opener = ψ.opener) (hnamed : φ.named = none)
    (hreturns : φ.returns = none) (hevict : ∀ p e, ψ ≠ .evict p e) : Inv (s.goto t φ) :=
  h.goto hcall hholds hclosing hopener (fun _ _ hpe => absurd (hnamed.symm.trans hpe) nofun)
    (fun _ he => absurd (hreturns.symm.trans he) nofun) fun p e heq => absurd heq (hevict p e)

/-- A call deletes the path it works on and goes on. -/
theorem Inv.delete (h : Inv s) (hcall : s.calls t = ψ)
    (hpath : ∀ p' e', ψ.named = some (p', e') → p' = p) (hholds : φ.holds = ψ.holds)
    (hclosing : φ.closing = ψ.closing)
    (hnamed : ∀ p e, φ.named = some (p, e) → ψ.named = some (p, e) ∨ s.entries p = some e)
    (hreturns : ∀ e, φ.returns = some e → (s.entry e).opened = true) :
    Inv ((s.delete p).goto t φ) := by
  subst hcall
  -- Entries that other paths lead to are not the one that the call works on.
  have hother : ∀ p' e', ((s.delete p).goto t φ).entries p' = some e' →
      ∀ p'', (s.calls t).named ≠ some (p'', e') := by
    intro p' e' he' p'' hname
    have hne : p' ≠ p := by
      rintro rfl
      simp at he'
    have hold : s.entries p' = some e' := by simpa [hne] using he'
    refine hne ?_
    rw [← (h.stored p' e' hold).2, (h.named t p'' e' hname).2, hpath p'' e' hname]
  refine h.moves (t := t) (φ := φ) ?_ rfl hholds hclosing
  exact
    { calls := rfl
      next := rfl
      entries := fun p' => by
        by_cases hp : p' = p <;> simp [hp]
      path := fun e => rfl
      cached := fun e => rfl
      opened := fun e => id
      named := hnamed
      returns := hreturns
      opener := fun p' e' hopener he' _ => by
        obtain ⟨p'', hp''⟩ := Phase.named_of_holds (Phase.holds_of_opener hopener)
        exact absurd hp'' (hother p' e' he' p'')
      claimed := fun p' e' he' hrefs =>
        .inl ⟨hrefs, fun ht => hother p' e' he' p' (by rw [ht]; rfl)⟩ }

/-- A call changes its entry and goes on. -/
theorem acts_setEntry (hcall : (s.calls t).named = some (p, e)) (hpath : x.path = (s.entry e).path)
    (hcached : x.cached = (s.entry e).cached)
    (hopened : (s.entry e).opened = true → x.opened = true)
    (hnamed : ∀ p' e', φ.named = some (p', e') → (p', e') = (p, e))
    (hreturns : ∀ e', φ.returns = some e' → x.opened = true)
    (hopener : (s.calls t).opener = some e → (s.entry e).cached = false → φ.opener = some e)
    (hclaimed : ∀ p', s.entries p' = some e → x.refs = refsClosed →
      ((s.entry e).refs = refsClosed ∧ s.calls t ≠ .evict p' e) ∨
        ((s.entry e).cached = true ∧ φ = .evict p' e))
    (hnot : ∀ p' e', e' ≠ e → s.calls t ≠ .evict p' e') :
    Acts s ((s.setEntry e x).goto t φ) t φ where
  calls := rfl
  next := rfl
  entries p' := .inl rfl
  path := State.setEntry_field Entry.path hpath
  cached := State.setEntry_field Entry.cached hcached
  opened e' := by
    by_cases he : e' = e
    · subst he
      simpa using hopened
    · simp [he]
  named p' e' hpe := .inl (by rw [hcall, hnamed p' e' hpe])
  returns e' he' := by
    obtain ⟨p', hp'⟩ : ∃ p', φ.named = some (p', e') := by
      cases φ <;> simp_all [Phase.returns]
    obtain rfl : e' = e := congrArg Prod.snd (hnamed p' e' hp')
    simpa using hreturns e' he'
  opener p' e' ho _ hc := by
    obtain ⟨p'', hp''⟩ := Phase.named_of_holds (Phase.holds_of_opener ho)
    rw [hcall] at hp''
    obtain ⟨-, rfl⟩ : p = p'' ∧ e = e' := by simpa using hp''
    exact hopener ho hc
  claimed p' e' he' hrefs := by
    by_cases he : e' = e
    · subst he
      exact hclaimed p' he' (by simpa using hrefs)
    · exact .inl ⟨by simpa [he] using hrefs, hnot p' e' he⟩

section

variable (h : Inv s)

include h

/-- The size is not part of the invariant. -/
theorem Inv.addSize (n : Int) : Inv (s.addSize n) :=
  ⟨h.named, h.stored, h.opened, h.uncached, h.claimed, h.life⟩

/-- The call that stored an entry changes something of it that the counts do not depend on. -/
theorem Inv.marks (hψ : s.calls t = ψ) (hcall : ψ.named = some (p, e))
    (hnamed : φ.named = some (p, e)) (hstorer : ψ.opener = some e) (hholds : φ.holds = some e)
    (hclosing : φ.closing = ψ.closing) (hopener : (s.entry e).cached = false → φ.opener = some e)
    (hevict : ∀ p e, ψ ≠ .evict p e) (hpath : x.path = (s.entry e).path)
    (hcached : x.cached = (s.entry e).cached) (hrefs : x.refs = (s.entry e).refs)
    (hcloses : x.closes = (s.entry e).closes)
    (hopened : (s.entry e).opened = true → x.opened = true)
    (hreturns : ∀ e', φ.returns = some e' → x.opened = true) : Inv ((s.setEntry e x).goto t φ) := by
  subst hψ
  have hcallHolds : (s.calls t).holds = some e := Phase.holds_of_opener hstorer
  refine h.acts (acts_setEntry hcall hpath hcached hopened ?_ hreturns ?_ ?_ ?_)
    (life_of_same h rfl (hholds.trans hcallHolds.symm) hclosing
      (State.setEntry_field Entry.refs hrefs) (State.setEntry_field Entry.closes hcloses) ?_)
  · exact fun p' e' hpe => Option.some.inj (hpe.symm.trans hnamed)
  · exact fun _ => hopener
  · exact fun p' _ hx => .inl ⟨hrefs.symm.trans hx, hevict p' e⟩
  · exact fun p' e' _ => hevict p' e'
  · -- The call has a reference, so nobody has closed the entry.
    intro e' hzero
    have he : e' ≠ e := by
      rintro rfl
      exact Inv.holders_ne_zero hcallHolds hzero
    simp [he]

/-- The counts of the other entries, if a call changes its own. -/
theorem life_of_other (hholds : ∀ e' ≠ e, φ.holds = some e' ↔ (s.calls t).holds = some e')
    (hclosing : ∀ e' ≠ e, φ.closing = some e' ↔ (s.calls t).closing = some e')
    (hself : Life x (((s.setEntry e x).goto t φ).holders e) (((s.setEntry e x).goto t φ).closers e)) :
    ∀ e' < s.next, Life (((s.setEntry e x).goto t φ).entry e') (((s.setEntry e x).goto t φ).holders e')
      (((s.setEntry e x).goto t φ).closers e') := by
  intro e' he'
  by_cases he : e' = e
  · subst he
    simpa using hself
  · have hH : ((s.setEntry e x).goto t φ).holders e' = s.holders e' :=
      count_update_same (hholds e' he)
    have hC : ((s.setEntry e x).goto t φ).closers e' = s.closers e' :=
      count_update_same (hclosing e' he)
    rw [hH, hC]
    simpa [he] using h.life e' he'

/-! ## References -/

lemma inv_tryRef (hcall : s.calls t = .tryRef p e) (hx : (s.entry e).tryAcquireRef = some x) :
    Inv ((s.setEntry e x).goto t (.wait p e)) := by
  have he : e < s.next := (h.named t p e (by rw [hcall]; rfl)).1
  obtain ⟨rfl, hpos⟩ : { s.entry e with refs := (s.entry e).refs + 1 } = x ∧ 0 < (s.entry e).refs := by
    unfold Entry.tryAcquireRef at hx
    split at hx
    · cases hx
    · exact ⟨Option.some.inj hx, by omega⟩
  refine h.acts (acts_setEntry (p := p) (by rw [hcall]; rfl) rfl rfl id ?_ ?_ ?_ ?_ ?_)
    (life_of_other h ?_ ?_ ?_)
  · exact fun p' e' hpe => (Option.some.inj hpe).symm
  · exact fun e' hreturns => by cases hreturns
  · exact fun ho _ => by simp [hcall] at ho
  · exact fun p' _ hrefs => by simp only [refsClosed] at hrefs; omega
  · exact fun p' e' _ => by simp [hcall]
  · exact fun e' hne => by simp [hcall, hne.symm]
  · exact fun e' hne => by simp [hcall]
  · -- One more call has a reference, and none has claimed the entry.
    refine Eq.subst (motive := Life _ _) ?_ ((h.life e he).acquire hx ?_)
    · exact (count_update_same (by simp [hcall])).symm
    · exact count_update_gain rfl (show ¬(s.calls t).holds = some e by simp [hcall])

/-- Nobody is left to delete an entry that is claimed and not cached, so it is not in the map. -/
theorem cached_of_last {p' : String} (hcall : s.calls t = .drop p e) (he : s.entries p' = some e)
    (hlast : (s.entry e).refs = 1) : (s.entry e).cached = true := by
  by_contra hcached
  obtain ⟨t', ht'⟩ := h.uncached p' e he (by simpa using hcached)
  have hholds : (s.calls t).holds = some e := by rw [hcall]; rfl
  -- The count is one, so whoever stored the entry is the call that drops its reference.
  have hone : s.holders e = 1 := by
    cases h.life e (h.lt_of_holds hholds) with
    | held n refs holders =>
      obtain rfl : n = 0 := by omega
      simpa using holders
    | claimed refs | closed refs => simp [refs, refsClosed] at hlast
  obtain rfl : t = t' :=
    eq_of_count_eq_one (q := fun φ => Phase.holds φ = some e) hone hholds (Phase.holds_of_opener ht')
  simp [hcall] at ht'

lemma inv_drop (hcall : s.calls t = .drop p e) :
    Inv ((s.setEntry e (s.entry e).dropRef.1).goto t
      (if (s.entry e).dropRef.2 then .evict p e else .idle)) := by
  have hholds : (s.calls t).holds = some e := by rw [hcall]; rfl
  have hlt := h.lt_of_holds hholds
  have hpos := (h.life e hlt).refs_pos (Inv.holders_ne_zero hholds)
  have hpath := (h.named t p e (by rw [hcall]; rfl)).2
  -- `dropRef` changes the count only, and returns whether it has claimed the entry.
  have hdrop : (s.entry e).dropRef.1 = { s.entry e with refs := (s.entry e).dropRef.1.refs } ∧
      ((s.entry e).dropRef.1.refs = refsClosed → (s.entry e).dropRef.2 = true ∧ (s.entry e).refs = 1) := by
    unfold Entry.dropRef
    rw [if_neg (by omega)]
    split
    · exact ⟨rfl, fun hrefs => by simp only [refsClosed] at hrefs; omega⟩
    · exact ⟨rfl, fun _ => ⟨rfl, by omega⟩⟩
  obtain ⟨hfields, hclaim⟩ := hdrop
  have hphase : ∀ b : Bool, (if b then Phase.evict p e else .idle).holds = none ∧
      (if b then Phase.evict p e else .idle).returns = none ∧
      (if b then Phase.evict p e else .idle).closing = if b then some e else none := by
    intro b
    cases b <;> exact ⟨rfl, rfl, rfl⟩
  refine h.acts (acts_setEntry (p := p) (by rw [hcall]; rfl) ?_ ?_ ?_ ?_ ?_ ?_ ?_ ?_)
    (life_of_other h ?_ ?_ ?_)
  · rw [hfields]
  · rw [hfields]
  · rw [hfields]
    exact id
  · intro p' e' hpe
    split at hpe
    · exact (Option.some.inj hpe).symm
    · cases hpe
  · exact fun e' hreturns => by simp [(hphase _).2.1] at hreturns
  · exact fun ho _ => by simp [hcall] at ho
  · intro p' he' hrefs
    obtain ⟨howns, hlast⟩ := hclaim hrefs
    have hp : p' = p := (h.stored p' e he').2.symm.trans hpath
    exact .inr ⟨cached_of_last h hcall he' hlast, by simp [howns, hp]⟩
  · exact fun p' e' _ => by simp [hcall]
  · intro e' hne
    rw [(hphase _).1, hholds]
    simp [hne.symm]
  · intro e' hne
    rw [(hphase _).2.2, hcall]
    split <;> simp [hne.symm]
  · refine (h.life e hlt).drop (count_update_loss ((hphase _).1 ▸ nofun) hholds) ?_
    -- If it was the last reference, there is a call that closes the entry.
    have hnone : (s.calls t).closing = none := by rw [hcall]; rfl
    split
    · exact count_update_gain rfl (hnone ▸ nofun)
    · exact count_update_same (hnone ▸ .rfl)

/-! ## Closing -/

lemma inv_close (hcall : (s.calls t).named = some (p, e)) (hclosing : (s.calls t).closing = some e)
    (hholds : (s.calls t).holds = none) (hevict : ∀ p e, s.calls t ≠ .evict p e) :
    Inv ((s.setEntry e (s.entry e).close).goto t .idle) := by
  refine h.acts (acts_setEntry hcall rfl rfl id ?_ ?_ ?_ ?_ ?_) (life_of_other h ?_ ?_ ?_)
  · exact fun p' e' hpe => by cases hpe
  · exact fun e' hreturns => by cases hreturns
  · exact fun ho _ => by
      rw [Phase.holds_of_opener ho] at hholds
      cases hholds
  · exact fun p' _ hrefs => .inl ⟨hrefs, hevict p' e⟩
  · exact fun p' e' _ => hevict p' e'
  · exact fun e' _ => by rw [hholds]; rfl
  · exact fun e' hne => by rw [hclosing]; simp [hne.symm]
  · refine Eq.subst (motive := fun H => Life _ H _) ?_
      ((h.life e (h.named t p e hcall).1).close (count_update_loss (by simp) hclosing))
    exact (count_update_same (by rw [hholds]; rfl)).symm

/-- A call that has claimed an entry of the map finds it cached. -/
theorem not_stored_of_uncached (hcall : s.calls t = .evict p e)
    (hcached : ¬((s.entry e).cached = true ∧ s.entries p = some e)) : s.entries p ≠ some e := by
  intro he
  refine hcached ⟨(h.claimed p e he ?_).1, he⟩
  have hC : s.closers e ≠ 0 :=
    count_ne_zero (q := fun φ => Phase.closing φ = some e) (i := t) (by rw [hcall]; rfl)
  cases h.life e (h.stored p e he).1 with
  | held _ _ _ closers => exact absurd closers hC
  | claimed refs | closed refs => exact refs

/-! ## Storing -/

lemma inv_alloc {cached : Bool} (hcall : s.calls t = .store p cached) (hp : s.entries p = none) :
    Inv ((s.alloc p cached).goto t (.openFile p s.next)) := by
  set s' := (s.alloc p cached).goto t (.openFile p s.next)
  -- Entries that were there before keep their numbers and do not change.
  have hself : s'.entry s.next = .new p cached := Function.update_self ..
  have hold : ∀ e < s.next, s'.entry e = s.entry e := fun e he =>
    Function.update_of_ne (Nat.ne_of_lt he) ..
  have hcallSelf : s'.calls t = .openFile p s.next := Function.update_self ..
  have hcallOther : ∀ t' ≠ t, s'.calls t' = s.calls t' := fun t' ht' => Function.update_of_ne ht' ..
  have hpath : s'.entries p = some s.next := Function.update_self ..
  have hpathOther : ∀ p' ≠ p, s'.entries p' = s.entries p' := fun p' hp' =>
    Function.update_of_ne hp' ..
  have hlt : ∀ e < s.next, e < s'.next := fun e he => Nat.lt_succ_of_lt he
  -- A path leads to the new entry or to an old one.
  have hstored : ∀ p' e, s'.entries p' = some e →
      (p' = p ∧ e = s.next) ∨ (p' ≠ p ∧ s.entries p' = some e ∧ e < s.next) := by
    intro p' e he
    by_cases hp' : p' = p
    · subst hp'
      exact .inl ⟨rfl, (Option.some.inj (hpath.symm.trans he)).symm⟩
    · rw [hpathOther p' hp'] at he
      exact .inr ⟨hp', he, (h.stored p' e he).1⟩
  refine ⟨?_, ?_, ?_, ?_, ?_, ?_⟩
  · -- The new entry has a number that no call and no path knew.
    intro t' p' e hname
    by_cases ht' : t' = t
    · subst ht'
      rw [hcallSelf] at hname
      obtain ⟨rfl, rfl⟩ : p = p' ∧ s.next = e := by simpa using hname
      exact ⟨Nat.lt_succ_self _, by rw [hself]; rfl⟩
    · rw [hcallOther t' ht'] at hname
      obtain ⟨he, hpe⟩ := h.named t' p' e hname
      exact ⟨hlt e he, by rw [hold e he, hpe]⟩
  · intro p' e he
    rcases hstored p' e he with ⟨rfl, rfl⟩ | ⟨-, hbefore, hlt'⟩
    · exact ⟨Nat.lt_succ_self _, by rw [hself]; rfl⟩
    · exact ⟨hlt e hlt', by rw [hold e hlt', (h.stored p' e hbefore).2]⟩
  · intro t' e hreturns
    by_cases ht' : t' = t
    · subst ht'
      rw [hcallSelf] at hreturns
      cases hreturns
    · rw [hcallOther t' ht'] at hreturns
      obtain ⟨p', hp'⟩ : ∃ p', (s.calls t').named = some (p', e) := by
        cases hφ : s.calls t' <;> simp_all [Phase.returns]
      rw [hold e (h.named t' p' e hp').1]
      exact h.opened t' e hreturns
  · intro p' e he hcached
    rcases hstored p' e he with ⟨-, rfl⟩ | ⟨-, hbefore, hlt'⟩
    · exact ⟨t, by rw [hcallSelf]; rfl⟩
    · rw [hold e hlt'] at hcached
      obtain ⟨t', ht'⟩ := h.uncached p' e hbefore hcached
      have hne : t' ≠ t := by
        rintro rfl
        simp [hcall] at ht'
      exact ⟨t', by rw [hcallOther t' hne, ht']⟩
  · intro p' e he hrefs
    rcases hstored p' e he with ⟨-, rfl⟩ | ⟨-, hbefore, hlt'⟩
    · rw [hself] at hrefs
      cases hrefs
    · rw [hold e hlt'] at hrefs ⊢
      obtain ⟨hcached, t', ht'⟩ := h.claimed p' e hbefore hrefs
      have hne : t' ≠ t := by
        rintro rfl
        simp [hcall] at ht'
      exact ⟨hcached, t', by rw [hcallOther t' hne, ht']⟩
  · intro e he
    rcases Nat.lt_succ_iff_lt_or_eq.mp he with hlt' | rfl
    · have hH : s'.holders e = s.holders e :=
        count_update_same (show some s.next = some e ↔ (s.calls t).holds = some e by
          simp [hcall, (Nat.ne_of_lt hlt').symm])
      have hC : s'.closers e = s.closers e :=
        count_update_same (show none = some e ↔ (s.calls t).closing = some e by
          simp [hcall])
      rw [hold e hlt', hH, hC]
      exact h.life e hlt'
    · -- Nobody has heard of the new entry but the call that stored it.
      have hH : s'.holders s.next = 1 := by
        have hzero : s.holders s.next = 0 := count_eq_zero.mpr fun t' ht' =>
          absurd (h.lt_of_holds ht') (lt_irrefl _)
        have hgain : s'.holders s.next = s.holders s.next + 1 :=
          count_update_gain rfl (show ¬(s.calls t).holds = some s.next by simp [hcall])
        rw [hgain, hzero, zero_add]
      have hC : s'.closers s.next = 0 := by
        refine count_eq_zero.mpr fun t' ht' => ?_
        by_cases heq : t' = t
        · subst heq
          rw [hcallSelf] at ht'
          cases ht'
        · rw [hcallOther t' heq] at ht'
          obtain ⟨p', hp'⟩ := Phase.named_of_closing ht'
          exact absurd (h.named t' p' _ hp').1 (lt_irrefl _)
      rw [hself, hH, hC]
      exact .new p cached

end

/-! ## The steps of a call -/

section Steps

variable (h : Inv s) {opens : Bool}

include h

lemma inv_load (hcall : s.calls t = .load p) : Inv (advance s t opens) := by
  simp only [advance, hcall]
  split
  · rename_i e he
    refine h.goto hcall rfl rfl rfl ?_ nofun nofun
    rintro _ _ ⟨⟩
    exact .inr he
  · exact h.goto_unnamed hcall rfl rfl rfl rfl rfl nofun

lemma inv_wait (hcall : s.calls t = .wait p e) : Inv (advance s t opens) := by
  simp only [advance, hcall]
  split
  · split
    · rename_i hopened
      refine h.goto hcall rfl rfl rfl (fun _ _ => .inl) ?_ nofun
      rintro _ ⟨⟩
      exact hopened
    · exact h.goto hcall rfl rfl rfl (fun _ _ => .inl) nofun nofun
  · exact h

lemma inv_store {cached : Bool} (hcall : s.calls t = .store p cached) :
    Inv (advance s t opens) := by
  simp only [advance, hcall]
  split
  · rename_i e he
    refine h.goto hcall rfl rfl rfl ?_ nofun nofun
    rintro _ _ ⟨⟩
    exact .inr he
  · rename_i hp
    exact inv_alloc h hcall hp

lemma inv_signal (hcall : s.calls t = .signal p e) : Inv (advance s t opens) := by
  simp only [advance, hcall]
  split
  · rename_i hopened
    exact h.marks hcall rfl rfl rfl rfl rfl (fun _ => rfl) nofun rfl rfl rfl rfl id fun _ _ => hopened
  · exact h.marks hcall rfl rfl rfl rfl rfl (fun _ => rfl) nofun rfl rfl rfl rfl id nofun

lemma inv_book (hcall : s.calls t = .book p e) : Inv (advance s t opens) := by
  have hopened : (s.entry e).opened = true := h.opened t e (by rw [hcall]; rfl)
  simp only [advance, hcall]
  split
  · -- A cached entry stays in the map without the call that stored it.
    rename_i hcached
    refine (h.marks (φ := .holding p e) (x := { s.entry e with counted := true }) hcall rfl rfl rfl
      rfl rfl ?_ nofun rfl rfl rfl rfl id fun _ _ => hopened).addSize 1
    exact fun huncached => absurd (hcached.symm.trans huncached) nofun
  · refine h.delete hcall ?_ rfl rfl (fun _ _ => .inl) ?_
    · rintro _ _ ⟨⟩
      rfl
    · rintro _ ⟨⟩
      exact hopened

lemma inv_evict (hcall : s.calls t = .evict p e) : Inv (advance s t opens) := by
  simp only [advance, hcall]
  split
  · split
    · refine h.delete hcall ?_ rfl rfl (fun _ _ => .inl) nofun
      rintro _ _ ⟨⟩
      rfl
    · rename_i hcached
      -- The entry is not in the map under its path, so nobody else can find it.
      refine h.goto hcall rfl rfl rfl (fun _ _ => .inl) nofun ?_
      rintro _ _ ⟨⟩
      exact not_stored_of_uncached h hcall hcached
  · exact h

lemma inv_takeOut (hcall : s.calls t = .takeOut p) : Inv (advance s t opens) := by
  simp only [advance, hcall]
  split
  · rename_i e he
    -- `Remove` has found the entry in the map; it works on it without a reference.
    refine h.delete hcall nofun rfl rfl ?_ nofun
    rintro _ _ ⟨⟩
    exact .inr he
  · exact h.goto_unnamed hcall rfl rfl rfl rfl rfl nofun

lemma inv_removeClaim (hcall : s.calls t = .removeClaim p e) : Inv (advance s t opens) := by
  simp only [advance, hcall]
  split
  · -- The count is never zero.
    rename_i hzero
    exact absurd hzero (h.life e (h.named t p e (by rw [hcall]; rfl)).1).refs_ne_zero
  · exact h.goto_unnamed hcall rfl rfl rfl rfl rfl nofun

end Steps

/-! ## Runs -/

lemma inv_advance (h : Inv s) (t : Nat) (opens : Bool) : Inv (advance s t opens) := by
  cases hcall : s.calls t with
  | load p => exact inv_load h hcall
  | wait p e => exact inv_wait h hcall
  | store p cached => exact inv_store h hcall
  | signal p e => exact inv_signal h hcall
  | book p e => exact inv_book h hcall
  | evict p e => exact inv_evict h hcall
  | takeOut p => exact inv_takeOut h hcall
  | removeClaim p e => exact inv_removeClaim h hcall
  | idle | holding p e => simpa only [advance, hcall] using h
  | tryRef p e =>
    simp only [advance, hcall]
    split
    · exact inv_tryRef h hcall ‹_›
    · exact h.goto_unnamed hcall rfl rfl rfl rfl rfl nofun
  | readSize p =>
    simp only [advance, hcall]
    exact h.goto_unnamed hcall rfl rfl rfl rfl rfl nofun
  | openFile p e =>
    simp only [advance, hcall]
    refine h.marks hcall rfl rfl rfl rfl rfl (fun _ => rfl) nofun rfl rfl rfl rfl ?_ nofun
    exact fun hopened => by simp [hopened]
  | discard p e =>
    simp only [advance, hcall]
    refine h.delete hcall ?_ rfl rfl (fun _ _ => .inl) nofun
    rintro _ _ ⟨⟩
    rfl
  -- The last reference claims the entry.
  | drop p e =>
    simp only [advance, hcall]
    exact inv_drop h hcall
  | uncount p e =>
    simp only [advance, hcall]
    exact (h.goto (φ := .close p e) hcall rfl rfl rfl (fun _ _ => .inl) nofun nofun).addSize (-1)
  | removeUncount p e =>
    simp only [advance, hcall]
    split
    · exact (h.goto (φ := .removeClaim p e) hcall rfl rfl rfl (fun _ _ => .inl) nofun nofun).addSize (-1)
    · exact h
  | close p e | removeClose p e =>
    simp only [advance, hcall]
    exact inv_close h (p := p) (by rw [hcall]; rfl) (by rw [hcall]; rfl) (by rw [hcall]; rfl)
      (by rw [hcall]; nofun)

lemma inv_step (h : Inv s) (e : Event) : Inv (step s e) := by
  cases e with
  | acquire t path | remove t path =>
    simp only [step]
    split
    · rename_i hcall
      exact h.goto_unnamed hcall rfl rfl rfl rfl rfl nofun
    · exact h
  | release t =>
    simp only [step]
    split
    · rename_i hcall
      exact h.goto hcall rfl rfl rfl (fun _ _ => .inl) nofun nofun
    · exact h
  | advance t opens => exact inv_advance h t opens

lemma inv_run (capacity : Int) (es : List Event) : Inv (run step (.init capacity) es) :=
  invariant_run_of_forall (I := Inv) (fun _ e hI => inv_step hI e) (inv_init capacity) es

/-- While no call is in progress, references are held by callers and nobody closes an entry. -/
theorem Phase.resting_cases (h : φ.resting = true) : φ = .idle ∨ ∃ p e, φ = .holding p e := by
  cases φ <;> simp_all [Phase.resting]

/-- After every run of any number of calls, on any paths, with any capacity and with opens that
succeed or fail: an entry that a caller holds has an open descriptor that was never closed. No
descriptor is closed twice. When no call is in progress, every descriptor that was opened and that
no caller holds was closed once, and no entry of the map is claimed for closing. -/
theorem descriptor_lifetime (capacity : Int) (es : List Event) :
    (∀ t p e, (run step (.init capacity) es).calls t = .holding p e →
      ((run step (.init capacity) es).entry e).opened = true ∧
        ((run step (.init capacity) es).entry e).closes = 0) ∧
      (∀ e < (run step (.init capacity) es).next,
        ((run step (.init capacity) es).entry e).closes ≤ 1) ∧
      ((run step (.init capacity) es).Quiet →
        (∀ e < (run step (.init capacity) es).next,
          ((run step (.init capacity) es).entry e).opened = true →
          (∀ t p, (run step (.init capacity) es).calls t ≠ .holding p e) →
          ((run step (.init capacity) es).entry e).closes = 1) ∧
        ∀ p e, (run step (.init capacity) es).entries p = some e →
          0 < ((run step (.init capacity) es).entry e).refs) := by
  have h := inv_run capacity es
  generalize run step (.init capacity) es = s at h
  refine ⟨fun t p e hcall => ?_, fun e he => (h.life e he).closes_le_one, fun hquiet => ⟨?_, ?_⟩⟩
  · have hholds : (s.calls t).holds = some e := by rw [hcall]; rfl
    exact ⟨h.opened t e (by rw [hcall]; rfl),
      (h.life e (h.lt_of_holds hholds)).closes_eq_zero (Inv.holders_ne_zero hholds)⟩
  · intro e he hopened hunheld
    have hH : s.holders e = 0 := count_eq_zero.mpr fun t ht => by
      rcases Phase.resting_cases (hquiet t) with hφ | ⟨p, e', hφ⟩
      · simp [hφ] at ht
      · obtain rfl : e' = e := by simpa [hφ] using ht
        exact hunheld t p hφ
    have hC : s.closers e = 0 := count_eq_zero.mpr fun t ht => by
      rcases Phase.resting_cases (hquiet t) with hφ | ⟨p, e', hφ⟩ <;> simp [hφ] at ht
    rw [(h.life e he).closes_of_unused hH hC, if_pos hopened]
  · intro p e he
    cases h.life e (h.stored p e he).1 with
    | held n refs => omega
    | claimed refs =>
      -- Whoever claimed the entry would still have to delete it.
      obtain ⟨-, t, ht⟩ := h.claimed p e he refs
      have := hquiet t
      simp [ht, Phase.resting] at this
    | closed refs =>
      obtain ⟨-, t, ht⟩ := h.claimed p e he refs
      have := hquiet t
      simp [ht, Phase.resting] at this

end OCache.FdCache
