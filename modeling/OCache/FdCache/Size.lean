import OCache.FdCache.Lifetime

/-!
# The size of the descriptor cache

The size counter and the map are changed in separate steps. The call that stores an entry raises the
counter when the file is open, and whoever takes an entry out of the map lowers it. So the counter
is the number of counted entries of the map, and of the calls that still have to lower it.

`Remove` lowers the counter for whatever it finds in the map, also for an entry that is still being
opened. If the open fails, or the entry is not to be cached, the counter is never raised for it. The
call that stored the entry then deletes the path, which by now may lead to another entry.
-/

namespace OCache.FdCache

open EventSystem Counting

/-- A `Remove` that takes an entry out of the map takes one that was counted. -/
def removesCounted (s : State) : Event → Bool
  | .advance t _ =>
    match s.calls t with
    | .takeOut p => (s.entries p).all fun e => (s.entry e).counted
    | _ => true
  | _ => true

/-! ## The invariant -/

/-- The call has taken an entry out of the map and has not lowered the size yet. -/
def Phase.pending : Phase → Bool
  | .uncount _ _ | .removeUncount _ _ => true
  | _ => false

/-- The number of paths with a counted entry. -/
noncomputable def State.booked (s : State) : ℕ∞ :=
  count (fun o => ∃ e, o = some e ∧ (s.entry e).counted = true) s.entries

noncomputable def State.pendings (s : State) : ℕ∞ := count (fun φ => φ.pending = true) s.calls

/-- An entry of the map was counted or is in the hands of the one call that stored it. -/
structure Storers (s : State) : Prop where
  stored : ∀ p e, s.entries p = some e →
    (s.entry e).counted = true ∨ ∃ t, (s.calls t).opener = some e
  opener : ∀ t e, (s.calls t).opener = some e →
    (s.entry e).counted = false ∧ s.entries (s.entry e).path = some e
  unique : ∀ t t' e, (s.calls t).opener = some e → (s.calls t').opener = some e → t = t'

/-- The size counts the entries of the map and the calls that have to lower it. -/
def Sized (s : State) : Prop := ∃ n m : ℕ, s.booked = n ∧ s.pendings = m ∧ s.size = n + m

variable {s s' : State} {t : Nat} {φ ψ : Phase}

lemma storers_init (capacity : Int) : Storers (.init capacity) where
  stored p e h := by cases h
  opener t e h := by cases h
  unique t t' e h := by cases h

lemma sized_init (capacity : Int) : Sized (.init capacity) := by
  refine ⟨0, 0, count_eq_zero.mpr ?_, count_eq_zero.mpr ?_, rfl⟩
  · rintro p ⟨e, he, -⟩
    cases he
  · exact fun t ht => by cases ht

/-! ## Calls that stored an entry -/

/-- A step that neither changes the map nor counts an entry. -/
theorem Storers.keeps (h : Storers s) (hcall : s.calls t = ψ)
    (hcalls : s'.calls = Function.update s.calls t φ) (hentries : s'.entries = s.entries)
    (hcounted : ∀ e, (s'.entry e).counted = (s.entry e).counted)
    (hpath : ∀ e, (s'.entry e).path = (s.entry e).path) (hopener : φ.opener = ψ.opener) :
    Storers s' := by
  -- Every call has the opener that it had.
  have hsame : ∀ t', (s'.calls t').opener = (s.calls t').opener := by
    intro t'
    rw [hcalls]
    by_cases ht' : t' = t
    · subst ht'
      rw [Function.update_self, hopener, hcall]
    · rw [Function.update_of_ne ht']
  refine ⟨fun p e he => ?_, fun t' e he => ?_, fun t' t'' e he he' => ?_⟩
  · simp only [hcounted, hsame]
    exact h.stored p e (hentries ▸ he)
  · rw [hcounted, hpath, hentries]
    exact h.opener t' e (hsame t' ▸ he)
  · exact h.unique t' t'' e (hsame t' ▸ he) (hsame t'' ▸ he')

variable {p : String} {e : Nat}

/-- A path is deleted that no other call has stored an entry under. -/
theorem Storers.delete (h : Storers s) (hinv : Inv s) (hcall : s.calls t = ψ) (hφ : φ.opener = none)
    (hpath : ∀ e, ψ.opener = some e → (s.entry e).path = p)
    (hother : ∀ t' ≠ t, ∀ e, (s.calls t').opener = some e → s.entries p ≠ some e) :
    Storers ((s.delete p).goto t φ) := by
  have hothers : ∀ t' e, (((s.delete p).goto t φ).calls t').opener = some e →
      t' ≠ t ∧ (s.calls t').opener = some e := by
    intro t' e he
    have hne : t' ≠ t := by
      rintro rfl
      simp [hφ, -Phase.opener] at he
    exact ⟨hne, by simpa [State.delete, hne] using he⟩
  refine ⟨fun p' e he => ?_, fun t' e he => ?_, fun t' t'' e he he' => ?_⟩
  · have hne : p' ≠ p := by
      rintro rfl
      simp at he
    have hold : s.entries p' = some e := by simpa [hne] using he
    rcases h.stored p' e hold with hcounted | ⟨t', ht'⟩
    · exact .inl hcounted
    · refine .inr ⟨t', ?_⟩
      have hne' : t' ≠ t := by
        rintro rfl
        rw [hcall] at ht'
        exact hne ((hinv.stored p' e hold).2.symm.trans (hpath e ht'))
      simpa [State.delete, hne'] using ht'
  · obtain ⟨hne, ht'⟩ := hothers t' e he
    obtain ⟨hcounted, hstored⟩ := h.opener t' e ht'
    refine ⟨hcounted, ?_⟩
    have hp : (s.entry e).path ≠ p := by
      intro hp
      exact hother t' hne e ht' (hp ▸ hstored)
    simpa [hp] using hstored
  · exact h.unique t' t'' e (hothers t' e he).2 (hothers t'' e he').2

/-- A call that is done with a path has the only entry of it. -/
theorem Storers.other (h : Storers s) (he : (s.calls t).opener = some e) :
    ∀ t' ≠ t, ∀ e', (s.calls t').opener = some e' → s.entries (s.entry e).path ≠ some e' := by
  intro t' hne e' he' hstored
  obtain rfl : e = e' := Option.some.inj ((h.opener t e he).2.symm.trans hstored)
  exact hne (h.unique t' t e he' he)

/-- Nobody has stored a counted entry and is not done with it. -/
theorem Storers.other_of_counted (h : Storers s) (he : s.entries p = some e)
    (hcounted : (s.entry e).counted = true) :
    ∀ t' ≠ t, ∀ e', (s.calls t').opener = some e' → s.entries p ≠ some e' := by
  intro t' _ e' he' hstored
  obtain rfl : e = e' := Option.some.inj (he.symm.trans hstored)
  exact absurd (hcounted.symm.trans (h.opener t' e he').1) nofun

/-- A claimed entry of the map was counted: whoever stored it would have a reference. -/
theorem counted_of_evict (hinv : Inv s) (h : Storers s) (hcall : s.calls t = .evict p e)
    (he : s.entries p = some e) : (s.entry e).counted = true := by
  rcases h.stored p e he with hcounted | ⟨t', ht'⟩
  · exact hcounted
  · have hC : s.closers e ≠ 0 :=
      count_ne_zero (q := fun φ => Phase.closing φ = some e) (i := t) (by rw [hcall]; rfl)
    have hH := Inv.holders_ne_zero (Phase.holds_of_opener ht')
    cases hinv.life e (hinv.stored p e he).1 with
    | held _ _ _ closers => exact absurd closers hC
    | claimed _ holders | closed _ holders => exact absurd holders hH

/-! ## Counts -/

lemma pendings_same (hcall : s.calls t = ψ) (hcalls : s'.calls = Function.update s.calls t φ)
    (h : φ.pending = ψ.pending) : s'.pendings = s.pendings := by
  rw [State.pendings, hcalls]
  exact count_update_same (by rw [h, hcall])

/-- A step that changes none of the numbers. -/
theorem Sized.keeps (h : Sized s) (hcall : s.calls t = ψ)
    (hcalls : s'.calls = Function.update s.calls t φ) (hbooked : s'.booked = s.booked)
    (hpending : φ.pending = ψ.pending) (hsize : s'.size = s.size) : Sized s' := by
  rw [Sized, hbooked, pendings_same hcall hcalls hpending, hsize]
  exact h

lemma booked_of_counted (hentries : s'.entries = s.entries)
    (hcounted : ∀ e, (s'.entry e).counted = (s.entry e).counted) : s'.booked = s.booked := by
  simp only [State.booked, hentries, hcounted]

/-- Deleting a path without a counted entry. -/
theorem booked_delete (h : ∀ e, s.entries p = some e → (s.entry e).counted = false) :
    ((s.delete p).goto t φ).booked = s.booked := by
  refine count_update_same ⟨?_, ?_⟩
  · rintro ⟨e, he, -⟩
    cases he
  · rintro ⟨e, he, hcounted⟩
    exact absurd (hcounted.symm.trans (h e he)) nofun

/-- A counted entry is taken out of the map: the call has to lower the size. -/
theorem Sized.takes (h : Sized s) (hcall : s.calls t = ψ) (he : s.entries p = some e)
    (hcounted : (s.entry e).counted = true) (hψ : ψ.pending = false) (hφ : φ.pending = true) :
    Sized ((s.delete p).goto t φ) := by
  obtain ⟨n, m, hn, hm, hsize⟩ := h
  have hbooked : ((s.delete p).goto t φ).booked + 1 = s.booked := by
    refine count_update_loss ?_ ⟨e, he, hcounted⟩
    rintro ⟨e', he', -⟩
    cases he'
  have hpendings : ((s.delete p).goto t φ).pendings = s.pendings + 1 :=
    count_update_gain hφ (show ¬(s.calls t).pending = true by simp [hcall, hψ])
  obtain ⟨k, rfl, hk⟩ := exists_of_add_one_eq (hbooked.trans hn)
  refine ⟨k, m + 1, hk, by rw [hpendings, hm]; rfl, ?_⟩
  simp only [State.goto_size, State.delete, hsize]
  push_cast
  omega

/-- The call lowers the size. -/
theorem Sized.lowers (h : Sized s) (hcall : s.calls t = ψ) (hψ : ψ.pending = true)
    (hφ : φ.pending = false) : Sized ((s.addSize (-1)).goto t φ) := by
  obtain ⟨n, m, hn, hm, hsize⟩ := h
  have hpendings : ((s.addSize (-1)).goto t φ).pendings + 1 = s.pendings :=
    count_update_loss (by simp [hφ]) (show (s.calls t).pending = true by rw [hcall, hψ])
  obtain ⟨k, rfl, hk⟩ := exists_of_add_one_eq (hpendings.trans hm)
  refine ⟨n, k, hn, hk, ?_⟩
  simp only [State.goto_size, State.addSize, hsize]
  push_cast
  omega

/-! ## One step -/

/-- The invariant of the size. -/
structure SizeInv (s : State) : Prop where
  inv : Inv s
  storers : Storers s
  sized : Sized s

section

variable (h : SizeInv s)

include h

/-- A call goes on without changing the map, the size or what is counted. -/
theorem SizeInv.keeps (hinv : Inv s') (hcall : s.calls t = ψ)
    (hcalls : s'.calls = Function.update s.calls t φ) (hentries : s'.entries = s.entries)
    (hcounted : ∀ e, (s'.entry e).counted = (s.entry e).counted)
    (hpath : ∀ e, (s'.entry e).path = (s.entry e).path) (hopener : φ.opener = ψ.opener)
    (hpending : φ.pending = ψ.pending) (hsize : s'.size = s.size) : SizeInv s' where
  inv := hinv
  storers := h.storers.keeps hcall hcalls hentries hcounted hpath hopener
  sized := h.sized.keeps hcall hcalls (booked_of_counted hentries hcounted) hpending hsize

lemma SizeInv.goto (hcall : s.calls t = ψ) (hopener : φ.opener = ψ.opener)
    (hpending : φ.pending = ψ.pending) (hinv : Inv (s.goto t φ)) : SizeInv (s.goto t φ) :=
  h.keeps hinv hcall rfl rfl (fun _ => rfl) (fun _ => rfl) hopener hpending rfl

/-- A call changes an entry, but not whether it is counted. -/
theorem SizeInv.setEntry {x : Entry} (hcall : s.calls t = ψ)
    (hcounted : x.counted = (s.entry e).counted) (hpath : x.path = (s.entry e).path)
    (hopener : φ.opener = ψ.opener) (hpending : φ.pending = ψ.pending)
    (hinv : Inv ((s.setEntry e x).goto t φ)) : SizeInv ((s.setEntry e x).goto t φ) :=
  h.keeps hinv hcall rfl rfl (State.setEntry_field Entry.counted hcounted)
    (State.setEntry_field Entry.path hpath) hopener hpending rfl

/-- The call that stored an entry deletes it: it was not counted. -/
theorem SizeInv.discards (hcall : s.calls t = ψ) (hψ : ψ.opener = some e)
    (hpath : (s.entry e).path = p) (hφ : φ.opener = none) (hpending : φ.pending = ψ.pending)
    (hinv : Inv ((s.delete p).goto t φ)) : SizeInv ((s.delete p).goto t φ) := by
  subst hcall hpath
  obtain ⟨hcounted, hstored⟩ := h.storers.opener t e hψ
  refine ⟨hinv, h.storers.delete h.inv rfl hφ ?_ (h.storers.other hψ),
    h.sized.keeps rfl rfl (booked_delete ?_) hpending rfl⟩
  · intro e' he'
    rw [Option.some.inj (he'.symm.trans hψ)]
  · intro e' he'
    rw [Option.some.inj (he'.symm.trans hstored)]
    exact hcounted

/-- A counted entry is taken out of the map. -/
theorem SizeInv.takes (hcall : s.calls t = ψ) (he : s.entries p = some e)
    (hcounted : (s.entry e).counted = true) (hψ : ψ.opener = none) (hφ : φ.opener = none)
    (hpending : ψ.pending = false) (hpending' : φ.pending = true)
    (hinv : Inv ((s.delete p).goto t φ)) : SizeInv ((s.delete p).goto t φ) where
  inv := hinv
  storers := h.storers.delete h.inv hcall hφ (fun _ he' => absurd (hψ.symm.trans he') nofun)
    (h.storers.other_of_counted he hcounted)
  sized := h.sized.takes hcall he hcounted hpending hpending'

lemma SizeInv.lowers (hcall : s.calls t = ψ) (hopener : φ.opener = ψ.opener)
    (hpending : ψ.pending = true) (hpending' : φ.pending = false)
    (hinv : Inv ((s.addSize (-1)).goto t φ)) : SizeInv ((s.addSize (-1)).goto t φ) where
  inv := hinv
  storers := h.storers.keeps hcall rfl rfl (fun _ => rfl) (fun _ => rfl) hopener
  sized := h.sized.lowers hcall hpending hpending'

/-- The call that stored an entry counts it. -/
theorem SizeInv.counts (hcall : s.calls t = .book p e)
    (hinv : Inv (((s.setEntry e { s.entry e with counted := true }).addSize 1).goto t (.holding p e))) :
    SizeInv (((s.setEntry e { s.entry e with counted := true }).addSize 1).goto t (.holding p e)) := by
  have hopener : (s.calls t).opener = some e := by rw [hcall]; rfl
  obtain ⟨hcounted, hstored⟩ := h.storers.opener t e hopener
  set s' := ((s.setEntry e { s.entry e with counted := true }).addSize 1).goto t (.holding p e)
  have hself : (s'.entry e).counted = true := by simp [s']
  have hother : ∀ e' ≠ e, s'.entry e' = s.entry e' := fun e' he' => by simp [s', he']
  have hpath : ∀ e', (s'.entry e').path = (s.entry e').path := by
    intro e'
    by_cases he' : e' = e
    · simp [s', he']
    · rw [hother e' he']
  -- The call has stored no other entry, so the storers that are left are other calls.
  have hcalls : ∀ t' e', (s'.calls t').opener = some e' →
      t' ≠ t ∧ (s.calls t').opener = some e' ∧ e' ≠ e := by
    intro t' e' he'
    have hne : t' ≠ t := by
      rintro rfl
      simp [s'] at he'
    have hbefore : (s.calls t').opener = some e' := by
      simpa [s', State.addSize, State.setEntry, hne] using he'
    refine ⟨hne, hbefore, ?_⟩
    rintro rfl
    exact hne (h.storers.unique t' t e' hbefore hopener)
  refine ⟨hinv, ⟨fun p' e' he' => ?_, fun t' e' he' => ?_, fun t' t'' e' he' he'' => ?_⟩, ?_⟩
  · by_cases heq : e' = e
    · exact .inl (heq ▸ hself)
    · rw [hother e' heq]
      refine (h.storers.stored p' e' he').imp_right ?_
      rintro ⟨t', ht'⟩
      have hne : t' ≠ t := by
        rintro rfl
        exact heq (Option.some.inj (ht'.symm.trans hopener))
      exact ⟨t', by simpa [s', State.addSize, State.setEntry, hne] using ht'⟩
  · obtain ⟨-, hbefore, hne⟩ := hcalls t' e' he'
    rw [hother e' hne]
    exact h.storers.opener t' e' hbefore
  · exact h.storers.unique t' t'' e' (hcalls t' e' he').2.1 (hcalls t'' e' he'').2.1
  · obtain ⟨n, m, hn, hm, hsize⟩ := h.sized
    -- The path of the entry is counted now, all other paths lead to other entries.
    have hbooked : s'.booked = s.booked + 1 := by
      refine count_gain (i := (s.entry e).path) (fun p' hp' => ?_) ⟨e, hstored, hself⟩ ?_
      · refine exists_congr fun e' => and_congr_right fun he' => ?_
        have hne : e' ≠ e := by
          rintro rfl
          exact hp' (h.inv.stored p' e' he').2.symm
        rw [hother e' hne]
      · rintro ⟨e', he', hcounted'⟩
        rw [← Option.some.inj (hstored.symm.trans he')] at hcounted'
        exact absurd (hcounted.symm.trans hcounted') nofun
    have hpendings : s'.pendings = s.pendings := pendings_same hcall rfl rfl
    refine ⟨n + 1, m, by rw [hbooked, hn]; rfl, hpendings.trans hm, ?_⟩
    simp only [s', State.goto_size, State.addSize, State.setEntry, hsize]
    push_cast
    omega

/-- A new entry is stored. -/
theorem SizeInv.alloc {cached : Bool} (hcall : s.calls t = .store p cached)
    (hp : s.entries p = none) : SizeInv ((s.alloc p cached).goto t (.openFile p s.next)) := by
  set s' := (s.alloc p cached).goto t (.openFile p s.next)
  have hself : s'.entry s.next = .new p cached := Function.update_self ..
  have hold : ∀ e < s.next, s'.entry e = s.entry e := fun e he =>
    Function.update_of_ne (Nat.ne_of_lt he) ..
  have hcallSelf : s'.calls t = .openFile p s.next := Function.update_self ..
  have hcallOther : ∀ t' ≠ t, s'.calls t' = s.calls t' := fun t' ht' => Function.update_of_ne ht' ..
  have hpathSelf : s'.entries p = some s.next := Function.update_self ..
  have hpathOther : ∀ p' ≠ p, s'.entries p' = s.entries p' := fun p' hp' =>
    Function.update_of_ne hp' ..
  have hlt : ∀ t' e, (s.calls t').opener = some e → e < s.next := fun t' e he =>
    h.inv.lt_of_holds (Phase.holds_of_opener he)
  -- A storer is the call that stored the new entry, or one that was there before.
  have hcalls : ∀ t' e, (s'.calls t').opener = some e →
      (t' = t ∧ e = s.next) ∨ (t' ≠ t ∧ (s.calls t').opener = some e) := by
    intro t' e he
    by_cases ht' : t' = t
    · subst ht'
      rw [hcallSelf] at he
      exact .inl ⟨rfl, (Option.some.inj he).symm⟩
    · rw [hcallOther t' ht'] at he
      exact .inr ⟨ht', he⟩
  refine ⟨inv_alloc h.inv hcall hp,
    ⟨fun p' e he => ?_, fun t' e he => ?_, fun t' t'' e he he' => ?_⟩, ?_⟩
  · by_cases hp' : p' = p
    · subst hp'
      obtain rfl : s.next = e := Option.some.inj (hpathSelf.symm.trans he)
      exact .inr ⟨t, by rw [hcallSelf]; rfl⟩
    · rw [hpathOther p' hp'] at he
      rw [hold e (h.inv.stored p' e he).1]
      refine (h.storers.stored p' e he).imp_right ?_
      rintro ⟨t', ht'⟩
      have hne : t' ≠ t := by
        rintro rfl
        simp [hcall] at ht'
      exact ⟨t', by rw [hcallOther t' hne, ht']⟩
  · rcases hcalls t' e he with ⟨-, rfl⟩ | ⟨-, hbefore⟩
    · rw [hself]
      exact ⟨rfl, hpathSelf⟩
    · rw [hold e (hlt t' e hbefore)]
      obtain ⟨hcounted, hstored⟩ := h.storers.opener t' e hbefore
      have hne : (s.entry e).path ≠ p := by
        intro heq
        rw [heq, hp] at hstored
        cases hstored
      exact ⟨hcounted, by rw [hpathOther _ hne, hstored]⟩
  · rcases hcalls t' e he with ⟨rfl, rfl⟩ | ⟨-, hbefore⟩
    · rcases hcalls t'' _ he' with ⟨rfl, -⟩ | ⟨-, hbefore'⟩
      · rfl
      · exact absurd (hlt t'' _ hbefore') (lt_irrefl _)
    · rcases hcalls t'' e he' with ⟨-, rfl⟩ | ⟨-, hbefore'⟩
      · exact absurd (hlt t' _ hbefore) (lt_irrefl _)
      · exact h.storers.unique t' t'' e hbefore hbefore'
  · -- The path had no entry and has one that is not counted.
    refine h.sized.keeps hcall rfl (count_congr fun p' => ?_) rfl rfl
    by_cases hp' : p' = p
    · subst hp'
      rw [hpathSelf, hp]
      constructor
      · rintro ⟨e, he, hcounted⟩
        obtain rfl : s.next = e := Option.some.inj he
        rw [hself] at hcounted
        cases hcounted
      · rintro ⟨e, he, -⟩
        cases he
    · rw [hpathOther p' hp']
      refine exists_congr fun e => and_congr_right fun he => ?_
      rw [hold e (h.inv.stored p' e he).1]

lemma sizeInv_advance (t : Nat) (opens : Bool)
    (hok : removesCounted s (.advance t opens) = true) : SizeInv (advance s t opens) := by
  have hinv := inv_advance h.inv t opens
  -- The lifetime of the entries is kept by the same step, so only the counts are left in each case.
  revert hinv
  unfold advance
  cases hcall : s.calls t with
  | idle | holding p e => exact fun _ => h
  | load p =>
    dsimp only
    split <;> exact h.goto hcall rfl rfl
  | tryRef p e =>
    dsimp only
    split
    · rename_i x hx
      -- A new reference does not change what is counted.
      unfold Entry.tryAcquireRef at hx
      split at hx
      · cases hx
      · obtain rfl := Option.some.inj hx
        exact h.setEntry hcall rfl rfl rfl rfl
    · exact h.goto hcall rfl rfl
  | wait p e =>
    dsimp only
    split
    · split <;> exact h.goto hcall rfl rfl
    · exact fun _ => h
  | readSize p => exact h.goto hcall rfl rfl
  | store p cached =>
    dsimp only
    split
    · exact h.goto hcall rfl rfl
    · rename_i hp
      exact fun _ => h.alloc hcall hp
  | openFile p e => exact h.setEntry hcall rfl rfl rfl rfl
  | signal p e =>
    dsimp only
    split <;> exact h.setEntry hcall rfl rfl rfl rfl
  | book p e =>
    dsimp only
    split
    · -- The entry is counted at the same time as the size is raised.
      exact h.counts hcall
    · -- An entry that is not to be cached leaves the map without having been counted.
      exact h.discards hcall rfl (h.inv.named t p e (by rw [hcall]; rfl)).2 rfl rfl
  | discard p e => exact h.discards hcall rfl (h.inv.named t p e (by rw [hcall]; rfl)).2 rfl rfl
  | drop p e =>
    have hfields : (s.entry e).dropRef.1.counted = (s.entry e).counted ∧
        (s.entry e).dropRef.1.path = (s.entry e).path := by
      unfold Entry.dropRef
      split
      · exact ⟨rfl, rfl⟩
      · split <;> exact ⟨rfl, rfl⟩
    dsimp only
    split <;> exact h.setEntry hcall hfields.1 hfields.2 rfl rfl
  | evict p e =>
    dsimp only
    split
    · split
      · -- Its storer is long done with it, so the entry was counted.
        rename_i hstored
        have hcounted := counted_of_evict h.inv h.storers hcall hstored.2
        exact h.takes hcall hstored.2 hcounted rfl rfl rfl rfl
      · exact h.goto hcall rfl rfl
    · exact fun _ => h
  | uncount p e => exact h.lowers hcall rfl rfl rfl
  | close p e | removeClose p e => exact h.setEntry hcall rfl rfl rfl rfl
  | takeOut p =>
    dsimp only
    split
    · -- Here the condition is used.
      rename_i e he
      have hcounted : (s.entry e).counted = true := by simpa [removesCounted, hcall, he] using hok
      exact h.takes hcall he hcounted rfl rfl rfl rfl
    · exact h.goto hcall rfl rfl
  | removeUncount p e =>
    dsimp only
    split
    · exact h.lowers hcall rfl rfl rfl
    · exact fun _ => h
  | removeClaim p e =>
    dsimp only
    split
    · exact h.setEntry hcall rfl rfl rfl rfl
    · exact h.goto hcall rfl rfl

lemma sizeInv_step {e : Event} (hok : removesCounted s e = true) : SizeInv (step s e) := by
  have hinv := inv_step h.inv e
  revert hinv
  cases e with
  | acquire t path | release t | remove t path =>
    simp only [step]
    split
    · rename_i hcall
      exact h.goto hcall rfl rfl
    · exact fun _ => h
  | advance t opens => exact fun _ => sizeInv_advance h t opens hok

end

/-! ## Runs -/

/-- After every run in which `Remove` takes counted entries only, the size counter is not negative,
and when no call is in progress it is the number of entries in the map. -/
theorem size_exact (capacity : Int) (es : List Event)
    (h : RunOk step (fun s e => removesCounted s e = true) (.init capacity) es) :
    0 ≤ (run step (.init capacity) es).size ∧
      ((run step (.init capacity) es).Quiet →
        {p | ((run step (.init capacity) es).entries p).isSome}.encard =
          (run step (.init capacity) es).size.toNat) := by
  have hinv : SizeInv (run step (.init capacity) es) :=
    invariant_run (I := SizeInv) (fun _ _ hI hok => sizeInv_step hI hok)
      ⟨inv_init capacity, storers_init capacity, sized_init capacity⟩ h
  generalize run step (.init capacity) es = s at hinv
  obtain ⟨n, m, hn, hm, hsize⟩ := hinv.sized
  refine ⟨by omega, fun hquiet => ?_⟩
  -- No call has to lower the size, and every entry of the map was counted.
  have hzero : s.pendings = 0 := count_eq_zero.mpr fun t ht => by
    rcases Phase.resting_cases (hquiet t) with hφ | ⟨p, e, hφ⟩ <;> simp [hφ, Phase.pending] at ht
  obtain rfl : m = 0 := by simpa [hm] using hzero
  have hbooked : {p | (s.entries p).isSome}.encard = s.booked := by
    refine congrArg Set.encard (Set.ext fun p => ?_)
    simp only [Set.mem_ofPred_eq, Option.isSome_iff_exists]
    refine exists_congr fun e => ⟨fun he => ⟨he, ?_⟩, And.left⟩
    rcases hinv.storers.stored p e he with hcounted | ⟨t, ht⟩
    · exact hcounted
    · rcases Phase.resting_cases (hquiet t) with hφ | ⟨p', e', hφ⟩ <;> simp [hφ] at ht
  rw [hbooked, hn, hsize]
  simp

/-! ## Entries that are removed too early -/

/-- The call that an event is about. -/
def Event.call : Event → Nat
  | .acquire t _ | .release t | .remove t _ | .advance t _ => t

/-- Other calls do not move. -/
theorem step_calls_of_ne (s : State) (e : Event) (t : Nat) (h : t ≠ e.call) :
    (step s e).calls t = s.calls t := by
  cases e with
  | acquire t' path | release t' | remove t' path =>
    simp only [step]
    split
    · exact Function.update_of_ne h ..
    · rfl
  | advance t' opens =>
    have hgoto : ∀ (s' : State) (φ : Phase), (s'.goto t' φ).calls t = s'.calls t := fun s' φ =>
      Function.update_of_ne h ..
    simp only [step, advance]
    -- Every branch moves the call of the event, or nothing.
    split <;> (try split) <;> (try split) <;> first | rfl | exact hgoto _ _

/-- Only the calls of a run have to be looked at. -/
theorem quiet_run (capacity : Int) {es : List Event}
    (h : ∀ t ∈ es.map Event.call, ((run step (.init capacity) es).calls t).resting = true) :
    (run step (.init capacity) es).Quiet :=
  forall_party_run (f := State.calls) (P := fun φ => φ.resting = true) step_calls_of_ne
    (fun _ => rfl) h

/-- A call takes some steps. -/
def advances (t n : Nat) (opens : Bool) : List Event := List.replicate n (.advance t opens)

/-- An entry is removed while it is being opened, and the open fails. -/
def failedOpen : List Event :=
  .acquire 0 "f" :: advances 0 3 false ++ .remove 1 "f" :: advances 1 1 false ++ advances 0 6 false ++
    advances 1 2 false

/-- With a capacity of one, an entry that is not to be cached is removed while it is being
opened. -/
def uncachedOpen : List Event :=
  .acquire 0 "f" :: advances 0 6 true ++ .acquire 1 "g" :: advances 1 3 true ++
    .remove 2 "g" :: advances 2 1 true ++ advances 1 3 true ++ advances 2 2 true

/-- The size is negative and the map is empty, or the size is zero and the map has an entry. -/
theorem remove_opening_entry :
    ((run step (.init 10) failedOpen).Quiet ∧ (run step (.init 10) failedOpen).size = -1 ∧
      (run step (.init 10) failedOpen).entries "f" = none) ∧
      (run step (.init 1) uncachedOpen).Quiet ∧ (run step (.init 1) uncachedOpen).size = 0 ∧
      (run step (.init 1) uncachedOpen).entries "f" = some 0 := by
  refine ⟨⟨quiet_run 10 ?_, ?_⟩, quiet_run 1 ?_, ?_⟩ <;> decide +kernel

/-- Two entries are opened and one of them is removed, an open fails, and the two descriptors are
still held. -/
def orderlyRun : List Event :=
  .acquire 0 "f" :: advances 0 6 true ++ .acquire 1 "g" :: advances 1 6 true ++
    .remove 2 "g" :: advances 2 3 true ++ .acquire 3 "h" :: advances 3 9 false

theorem size_exact_orderlyRun :
    (run step (.init 2) orderlyRun).size = 1 ∧ 0 ≤ (run step (.init 2) orderlyRun).size ∧
      {p | ((run step (.init 2) orderlyRun).entries p).isSome}.encard =
        (run step (.init 2) orderlyRun).size.toNat := by
  have h := size_exact 2 orderlyRun (by decide +kernel)
  exact ⟨by decide +kernel, h.1, h.2 (quiet_run 2 (by decide +kernel))⟩

end OCache.FdCache
