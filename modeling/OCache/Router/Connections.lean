import OCache.Router.Protocol

/-!
# No connection is lost

A connection that was dialed and not closed is at every moment the current connection of a
registered state, or some running call is going to close it or to look after it. A call that has
dialed owns the connection until it has found its state registered, with the connection in it.
Nobody else can have replaced it by then, because the call still has the dial slot of the state.

`RemoveClient`, `RefreshConnections` and `Close` take a state out of the map after they have closed
the connection they saw in it. In between a dial can put a new one there. The call that did so then
looks at the map, for which it has to wait for `mu`, so it finds the state gone.
-/

namespace OCache.Router

open EventSystem OCache.Ring

/-! ## What calls own -/

/-- The state that a call of `getClient` works on. -/
def Phase.named : Phase → Option Nat
  | .check _ x _ _ | .inspect _ x _ | .getState _ x _ _ | .takeClient _ x _ | .dialSlot _ x
  | .nodeAddr _ x | .dial _ x _ | .recordFailure _ x _ _ | .install _ x _ _ | .closeOld _ x _ _ _
  | .recheck _ x _ _ | .closeNew _ x _ _ | .resetFailures x _ | .release x _ => some x
  | _ => none

/-- The state whose dial slot a call has. -/
def Phase.slot : Phase → Option Nat
  | .check _ x true _ | .inspect _ x true | .getState _ x true _ | .takeClient _ x true
  | .nodeAddr _ x | .dial _ x _ | .recordFailure _ x _ _ | .install _ x _ _ | .closeOld _ x _ _ _
  | .recheck _ x _ _ | .closeNew _ x _ _ | .resetFailures x _ | .release x _ => some x
  | _ => none

/-- The state and the connection that a call has set in it and not checked yet. -/
def Phase.installed : Phase → Option (Nat × Nat)
  | .closeOld _ x _ c _ | .recheck _ x _ c => some (x, c)
  | _ => none

/-- The call has to close the connection, or to find it registered. -/
@[simp] def Phase.owns : Phase → Nat → Bool
  | .install _ _ _ c, d | .recheck _ _ _ c, d | .closeNew _ _ _ c, d => d = c
  | .closeOld _ _ _ c old, d => d = c ∨ d = old
  | _, _ => false

/-- The call has `mu` from one step to the next. -/
def Phase.locks : Phase → Bool
  | .activeNodes | .range _ _ | .readConn _ _ _ _ | .closeConn _ _ _ _ | .delete _ _ _ | .clear
  | .unlock => true
  | _ => false

variable {x c : Nat} {φ : Phase} {n : NodeID} {op : Sweep} {pending : List NodeID}

lemma Phase.named_of_slot (h : φ.slot = some x) : φ.named = some x := by
  unfold Phase.slot at h
  split at h <;> first | exact h | cases h

lemma Phase.slot_of_installed (h : φ.installed = some (x, c)) : φ.slot = some x := by
  unfold Phase.installed at h
  split at h <;> cases h <;> rfl

lemma Phase.owns_of_resting (h : φ.resting = true) (c : Nat) : φ.owns c = false := by
  unfold Phase.resting at h
  split at h <;> first | rfl | cases h

lemma Phase.slot_eq_none (h : φ.named = none) : φ.slot = none := by
  cases hslot : φ.slot with
  | none => rfl
  | some x => exact absurd (h.symm.trans (Phase.named_of_slot hslot)) nofun

lemma Phase.installed_eq_none (h : φ.named = none) : φ.installed = none := by
  cases hinstalled : φ.installed with
  | none => rfl
  | some p =>
    exact absurd ((Phase.slot_eq_none h).symm.trans (Phase.slot_of_installed hinstalled)) nofun

lemma Phase.owns_of_locks (h : φ.locks = true) (c : Nat) : φ.owns c = false := by
  unfold Phase.locks at h
  split at h <;> first | rfl | cases h

variable {addr : String} {node m : NodeID} {b : Option Nat}

lemma Phase.owns_afterInstall {d : Nat} {old : Option Nat} :
    (Phase.afterInstall node x addr c old).owns d = true ↔ d = c ∨ old = some d := by
  cases old with
  | none => simp [Phase.afterInstall]
  | some old =>
    simp only [Phase.afterInstall, Phase.owns, decide_eq_true_eq, Option.some.injEq]
    exact or_congr_right eq_comm

/-! ## The invariant -/

/-- The connection is closed, or a call owns it. -/
def State.Accounted (s : State) (c : Nat) : Prop :=
  s.closed c = true ∨ ∃ t, (s.calls t).owns c = true

/-- The current connection of the node is the given one, or accounted for. -/
def State.Settled (s : State) (given : Option Nat) (node : NodeID) : Prop :=
  ∀ x c, s.clients.lookup node = some x → (s.state x).conn = some c → given = some c ∨ s.Accounted c

/-- What a call that has `mu` has done so far. `Close` has settled the nodes that it is done with,
the other calls only the one they are about to delete. -/
def State.Progress (s : State) : Phase → Prop
  | .range op pending => op = .close → ∀ m ∉ pending, s.Settled none m
  | .readConn op pending n x =>
    s.clients.lookup n = some x ∧ (op = .close → ∀ m ∉ pending, m ≠ n → s.Settled none m)
  | .closeConn op pending n c =>
    s.Settled (some c) n ∧ (op = .close → ∀ m ∉ pending, m ≠ n → s.Settled none m)
  | .delete op _ n => op ≠ .close ∧ s.Settled none n
  | .clear => ∀ m, s.Settled none m
  | _ => True

structure Inv (s : State) : Prop where
  named : ∀ t x, (s.calls t).named = some x → x < s.nextState
  stored : ∀ n x, s.clients.lookup n = some x → x < s.nextState
  slot : ∀ t x, (s.calls t).slot = some x → (s.state x).dialing = true
  alone : ∀ t t' x, (s.calls t).slot = some x → (s.calls t').slot = some x → t = t'
  installed : ∀ t x c, (s.calls t).installed = some (x, c) → (s.state x).conn = some c
  locks : ∀ t, (s.calls t).locks = true → s.locked = some t
  progress : ∀ t, s.Progress (s.calls t)
  home : ∀ c < s.dialed, s.Registered c ∨ s.Accounted c

lemma inv_init (config : RouterConfig) : Inv (.init config) where
  named t x h := by cases h
  stored n x h := by simp at h
  slot t x h := by cases h
  alone t t' x h := by cases h
  installed t x c h := by cases h
  locks t h := by cases h
  progress t := trivial
  home c h := absurd h (Nat.not_lt_zero c)

variable {s s' : State} {t : Nat} {φ ψ : Phase}

/-! ## Settled nodes -/

lemma State.Settled.mono (h : s.Settled b m)
    (hclients : ∀ x, s'.clients.lookup m = some x → s.clients.lookup m = some x)
    (hconn : ∀ x c, (s'.state x).conn = some c → (s.state x).conn = some c ∨ s'.Accounted c)
    (hacc : ∀ c, s.Accounted c → s'.Accounted c) : s'.Settled b m := by
  intro x c hx hc
  rcases hconn x c hc with hold | hnew
  · exact (h x c (hclients x hx) hold).imp_right (hacc c)
  · exact .inr hnew

lemma State.Progress.mono (h : s.Progress φ) (hclients : s'.clients = s.clients)
    (hsettled : ∀ b m, s.Settled b m → s'.Settled b m) : s'.Progress φ := by
  cases φ with
  | range op pending => exact fun hop m hm => hsettled _ m (h hop m hm)
  | readConn op pending n x =>
    exact ⟨hclients ▸ h.1, fun hop m hm hne => hsettled _ m (h.2 hop m hm hne)⟩
  | closeConn op pending n c =>
    exact ⟨hsettled _ n h.1, fun hop m hm hne => hsettled _ m (h.2 hop m hm hne)⟩
  | delete op pending n => exact ⟨h.1, hsettled _ n h.2⟩
  | clear => exact fun m => hsettled _ m (h m)
  | _ => trivial

lemma State.progress_of_not_locks (h : φ.locks = false) : s.Progress φ := by
  cases φ <;> trivial

/-- The node whose connection `closeConn` closed is settled, and so are the ones before it. -/
theorem State.progress_afterClose (hn : s.Settled none n)
    (hrest : op = .close → ∀ m ∉ pending, m ≠ n → s.Settled none m) :
    s.Progress (.afterClose op pending n) := by
  cases op with
  | close =>
    intro _ m hm
    by_cases hmn : m = n
    · exact hmn ▸ hn
    · exact hrest rfl m hm hmn
  | remove | refresh active => exact ⟨nofun, hn⟩

/-- The call that moves keeps what it owns, or closes it. -/
theorem State.Accounted.mono (hcalls : s'.calls = Function.update s.calls t φ)
    (hclosed : ∀ c, s.closed c = true → s'.closed c = true)
    (howns : (s.calls t).owns c = true → s'.closed c = true ∨ φ.owns c = true) (h : s.Accounted c) :
    s'.Accounted c := by
  rcases h with hc | ⟨t', ht'⟩
  · exact .inl (hclosed c hc)
  · by_cases heq : t' = t
    · subst heq
      rcases howns ht' with hc | hφ
      · exact .inl hc
      · exact .inr ⟨t', by rwa [hcalls, Function.update_self]⟩
    · exact .inr ⟨t', by rwa [hcalls, Function.update_of_ne heq]⟩

/-! ## One step -/

/-- What a step does to the states, the map and the call that takes it. -/
structure Acts (s s' : State) (t : Nat) (φ : Phase) : Prop where
  calls : s'.calls = Function.update s.calls t φ
  nextState : s.nextState ≤ s'.nextState
  named : ∀ x, φ.named = some x → x < s'.nextState
  stored : ∀ n x, s'.clients.lookup n = some x → s.clients.lookup n = some x ∨ x < s'.nextState
  /-- Only the call that has the slot sets the connection. -/
  conn : ∀ x < s.nextState, (s'.state x).conn = (s.state x).conn ∨ (s.calls t).slot = some x
  /-- Only the call that has the slot gives it back. -/
  dialing : ∀ x < s.nextState, (s.state x).dialing = true →
    (s'.state x).dialing = true ∨ (s.calls t).slot = some x
  /-- The call had the slot, or takes a free one. -/
  slot : ∀ x, φ.slot = some x →
    (s'.state x).dialing = true ∧ ((s.calls t).slot = some x ∨ (s.state x).dialing = false)
  installed : ∀ x c, φ.installed = some (x, c) → (s'.state x).conn = some c
  locks : φ.locks = true → s'.locked = some t
  progress : s'.Progress φ
  fresh : ∀ x c, (s'.state x).conn = some c → (s.state x).conn = some c ∨ φ.owns c = true
  /-- While another call has `mu`, the map stays as it is and no connection gets out of sight. -/
  others : ∀ t' ≠ t, s.locked = some t' →
    s'.locked = some t' ∧ s'.clients = s.clients ∧ ∀ c, s.Accounted c → s'.Accounted c

lemma Inv.acts (h : Inv s) (ha : Acts s s' t φ)
    (hhome : ∀ c < s'.dialed, s'.Registered c ∨ s'.Accounted c) : Inv s' := by
  -- The calls that do not move.
  have hother : ∀ t' ≠ t, s'.calls t' = s.calls t' := fun t' ht' => by
    rw [ha.calls, Function.update_of_ne ht']
  have hself : s'.calls t = φ := by rw [ha.calls, Function.update_self]
  have hlt : ∀ t' x, (s.calls t').slot = some x → x < s.nextState := fun t' x hx =>
    h.named t' x (Phase.named_of_slot hx)
  have hfree : ∀ t' ≠ t, ∀ x, (s.calls t').slot = some x → φ.slot ≠ some x := by
    intro t' ht' x hx hφ
    rcases (ha.slot x hφ).2 with hold | hfree
    · exact ht' (h.alone t' t x hx hold)
    · rw [h.slot t' x hx] at hfree
      cases hfree
  -- In each part the call that moves is looked at first, then the others.
  refine ⟨?_, ?_, ?_, ?_, ?_, ?_, ?_, hhome⟩
  · intro t' x hx
    by_cases ht' : t' = t
    · rw [ht', hself] at hx
      exact ha.named x hx
    · rw [hother t' ht'] at hx
      exact lt_of_lt_of_le (h.named t' x hx) ha.nextState
  · intro n x hx
    rcases ha.stored n x hx with hold | hnew
    · exact lt_of_lt_of_le (h.stored n x hold) ha.nextState
    · exact hnew
  · intro t' x hx
    by_cases ht' : t' = t
    · rw [ht', hself] at hx
      exact (ha.slot x hx).1
    · rw [hother t' ht'] at hx
      -- A slot is given back by its owner only.
      rcases ha.dialing x (hlt t' x hx) (h.slot t' x hx) with hkept | hmine
      · exact hkept
      · exact absurd (h.alone t' t x hx hmine) ht'
  · intro t₁ t₂ x h₁ h₂
    by_cases ht₁ : t₁ = t
    · by_cases ht₂ : t₂ = t
      · exact ht₁.trans ht₂.symm
      · rw [ht₁, hself] at h₁
        rw [hother t₂ ht₂] at h₂
        exact absurd h₁ (hfree t₂ ht₂ x h₂)
    · rw [hother t₁ ht₁] at h₁
      by_cases ht₂ : t₂ = t
      · rw [ht₂, hself] at h₂
        exact absurd h₂ (hfree t₁ ht₁ x h₁)
      · rw [hother t₂ ht₂] at h₂
        exact h.alone t₁ t₂ x h₁ h₂
  · intro t' x c hx
    by_cases ht' : t' = t
    · rw [ht', hself] at hx
      exact ha.installed x c hx
    · rw [hother t' ht'] at hx
      -- The slot of the state is not the moving call's, so the connection is still there.
      have hslot := Phase.slot_of_installed hx
      rcases ha.conn x (hlt t' x hslot) with hkept | hmine
      · exact hkept.trans (h.installed t' x c hx)
      · exact absurd (h.alone t' t x hslot hmine) ht'
  · intro t' hx
    by_cases ht' : t' = t
    · rw [ht', hself] at hx
      rw [ht']
      exact ha.locks hx
    · rw [hother t' ht'] at hx
      exact (ha.others t' ht' (h.locks t' hx)).1
  · intro t'
    by_cases ht' : t' = t
    · rw [ht', hself]
      exact ha.progress
    · rw [hother t' ht']
      cases hlocks : (s.calls t').locks with
      | false => exact State.progress_of_not_locks hlocks
      | true =>
        -- The other call has `mu`, so the map is the same and what it has settled stays settled.
        obtain ⟨-, hclients, hacc⟩ := ha.others t' ht' (h.locks t' hlocks)
        refine (h.progress t').mono hclients fun b m hm => ?_
        refine hm.mono (fun x hx => hclients ▸ hx) (fun x c hc => ?_) hacc
        exact (ha.fresh x c hc).imp_right fun hφ => .inr ⟨t, by rwa [hself]⟩

/-- A step that changes no connection and no slot of a state. -/
structure Frame (s s' : State) (t : Nat) (φ : Phase) : Prop where
  calls : s'.calls = Function.update s.calls t φ
  nextState : s'.nextState = s.nextState
  conn : ∀ x, (s'.state x).conn = (s.state x).conn
  dialing : ∀ x, (s'.state x).dialing = (s.state x).dialing
  closed : ∀ c, s.closed c = true → s'.closed c = true
  named : ∀ x, φ.named = some x → x < s.nextState
  slot : ∀ x, φ.slot = some x → (s.calls t).slot = some x
  installed : ∀ p, φ.installed = some p → (s.calls t).installed = some p
  locks : φ.locks = true → s'.locked = some t
  progress : s'.Progress φ
  /-- A new connection belongs to the call that dialed it. -/
  dialed : ∀ c < s'.dialed, c < s.dialed ∨ φ.owns c = true
  owns : ∀ c, (s.calls t).owns c = true →
    s'.closed c = true ∨ φ.owns c = true ∨ (s.locked = none ∧ s'.Registered c)
  stored : ∀ n x, s'.clients.lookup n = some x → s.clients.lookup n = some x
  /-- Only settled nodes are taken out of the map. -/
  kept : ∀ n x, s.clients.lookup n = some x → s'.clients.lookup n = some x ∨ s.Settled none n
  others : ∀ t' ≠ t, s.locked = some t' → s'.locked = some t' ∧ s'.clients = s.clients

lemma Frame.accounted (hf : Frame s s' t φ) (h : s.Accounted c) :
    s'.Accounted c ∨ (s.locked = none ∧ s'.Registered c) := by
  by_cases hlost : s.locked = none ∧ s'.Registered c
  · exact .inr hlost
  · refine .inl (h.mono hf.calls hf.closed fun hc => ?_)
    rcases hf.owns c hc with hclosed | hφ | hreg
    · exact .inl hclosed
    · exact .inr hφ
    · exact absurd hreg hlost

lemma Frame.acts (h : Inv s) (hf : Frame s s' t φ) : Acts s s' t φ where
  calls := hf.calls
  nextState := hf.nextState.ge
  named x hx := hf.nextState ▸ hf.named x hx
  stored n x hx := .inl (hf.stored n x hx)
  conn x _ := .inl (hf.conn x)
  dialing x _ hx := .inl ((hf.dialing x).trans hx)
  slot x hx := ⟨(hf.dialing x).trans (h.slot t x (hf.slot x hx)), .inl (hf.slot x hx)⟩
  installed x c hx := (hf.conn x).trans (h.installed t x c (hf.installed _ hx))
  locks := hf.locks
  progress := hf.progress
  fresh x c hc := .inl ((hf.conn x).symm.trans hc)
  others t' ht' hlocked := by
    obtain ⟨hkeep, hclients⟩ := hf.others t' ht' hlocked
    refine ⟨hkeep, hclients, fun c hc => (hf.accounted hc).resolve_right ?_⟩
    -- Connections are handed to the map only while nobody has `mu`.
    rintro ⟨hnone, -⟩
    rw [hnone] at hlocked
    cases hlocked

lemma Inv.frame (h : Inv s) (hf : Frame s s' t φ) : Inv s' := by
  refine h.acts (hf.acts h) fun c hc => ?_
  have hacc : s.Accounted c → s'.Registered c ∨ s'.Accounted c := fun hc =>
    (hf.accounted hc).elim .inr fun hreg => .inl hreg.2
  rcases hf.dialed c hc with hold | hnew
  · rcases h.home c hold with ⟨n, x, hx, hconn⟩ | hc
    · -- The node stays in the map, or its connection has another owner.
      rcases hf.kept n x hx with hkept | hsettled
      · exact .inl ⟨n, x, hkept, (hf.conn x).trans hconn⟩
      · exact hacc ((hsettled x c hx hconn).resolve_left nofun)
    · exact hacc hc
  · exact .inr (.inr ⟨t, by rwa [hf.calls, Function.update_self]⟩)

/-- The step leaves the map, the lock and the connections of the states alone. -/
structure Same (s s' : State) (t : Nat) (φ : Phase) : Prop where
  calls : s'.calls = Function.update s.calls t φ
  nextState : s'.nextState = s.nextState
  clients : s'.clients = s.clients
  locked : s'.locked = s.locked
  dialed : s'.dialed = s.dialed
  conn : ∀ x, (s'.state x).conn = (s.state x).conn
  dialing : ∀ x, (s'.state x).dialing = (s.state x).dialing
  closed : ∀ c, s.closed c = true → s'.closed c = true

lemma same_goto : Same s (s.goto t φ) t φ :=
  ⟨rfl, rfl, rfl, rfl, rfl, fun _ => rfl, fun _ => rfl, fun _ => id⟩

lemma same_setBreaker {b : Breaker} :
    Same s ((s.setState x { s.state x with breaker := b }).goto t φ) t φ := by
  refine ⟨rfl, rfl, rfl, rfl, rfl, fun x' => ?_, fun x' => ?_, fun _ => id⟩
  all_goals by_cases hx : x' = x <;> simp [hx]

lemma closed_closes (s : State) (c : Nat) (t : Nat) (φ : Phase) :
    ((s.closes c).goto t φ).closed c = true := by
  simp [State.closes]

lemma same_closes : Same s ((s.closes c).goto t φ) t φ := by
  refine ⟨rfl, rfl, rfl, rfl, rfl, fun _ => rfl, fun _ => rfl, fun c' hc' => ?_⟩
  by_cases hc : c' = c
  · simp [State.closes, hc]
  · simpa [State.closes, hc] using hc'

lemma Same.settled (hs : Same s s' t φ) (howns : ∀ c, (s.calls t).owns c = true → φ.owns c = true)
    (h : s.Settled b m) : s'.Settled b m :=
  h.mono (fun _ hx => hs.clients ▸ hx) (fun x _ hc => .inl ((hs.conn x).symm.trans hc))
    fun _ hc => hc.mono hs.calls hs.closed fun hown => .inr (howns _ hown)

section

variable (h : Inv s)

include h

/-- A step of a call that closes connections. It may take nodes out of the map. -/
theorem Inv.sweeps (hcalls : s'.calls = Function.update s.calls t φ)
    (howns : ∀ c, (s.calls t).owns c = false) (hnamed : φ.named = none)
    (hstate : s'.state = s.state) (hnext : s'.nextState = s.nextState)
    (hdialed : s'.dialed = s.dialed) (hclosed : ∀ c, s.closed c = true → s'.closed c = true)
    (hlocks : φ.locks = true → s'.locked = some t) (hprogress : s'.Progress φ)
    (hstored : ∀ n x, s'.clients.lookup n = some x → s.clients.lookup n = some x)
    (hkept : ∀ n x, s.clients.lookup n = some x → s'.clients.lookup n = some x ∨ s.Settled none n)
    (hothers : ∀ t' ≠ t, s.locked = some t' → s'.locked = some t' ∧ s'.clients = s.clients) :
    Inv s' :=
  h.frame (φ := φ)
    { calls := hcalls
      nextState := hnext
      conn := fun x => by rw [hstate]
      dialing := fun x => by rw [hstate]
      closed := hclosed
      named := fun x hx => absurd (hnamed.symm.trans hx) nofun
      slot := fun x hx => absurd ((Phase.slot_eq_none hnamed).symm.trans hx) nofun
      installed := fun p hp => absurd ((Phase.installed_eq_none hnamed).symm.trans hp) nofun
      locks := hlocks
      progress := hprogress
      dialed := fun c hc => .inl (hdialed ▸ hc)
      owns := fun c hc => absurd ((howns c).symm.trans hc) nofun
      stored := hstored
      kept := hkept
      others := hothers }

/-- A call gives `mu` back. -/
theorem Inv.unlock (hcall : s.calls t = .unlock) (answer : Answer) :
    Inv ({ s with locked := none }.goto t (.returned answer)) := by
  have hmine : s.locked = some t := h.locks t (by rw [hcall]; rfl)
  refine h.sweeps (φ := .returned answer) rfl ?_ rfl rfl rfl rfl (fun _ => id) nofun trivial
    (fun _ _ => id) (fun _ _ => .inl) ?_
  · rw [hcall]
    exact fun _ => rfl
  · intro t' ht' hlocked
    exact absurd (Option.some.inj (hlocked.symm.trans hmine)) ht'

section

variable (hcall : s.calls t = ψ)

include hcall

/-- A step of `getClient` that touches neither connections nor the slot. -/
theorem Inv.same (hs : Same s s' t φ)
    (hnamed : ∀ x, φ.named = some x → ψ.named = some x ∨ ∃ n, s.clients.lookup n = some x)
    (hslot : ∀ x, φ.slot = some x → ψ.slot = some x)
    (hinstalled : ∀ p, φ.installed = some p → ψ.installed = some p)
    (hlocks : φ.locks = true → ψ.locks = true) (hprogress : s'.Progress φ)
    (howns : ∀ c, ψ.owns c = true →
      s'.closed c = true ∨ φ.owns c = true ∨ (s.locked = none ∧ s.Registered c)) : Inv s' := by
  subst hcall
  refine h.frame (φ := φ)
    { calls := hs.calls
      nextState := hs.nextState
      conn := hs.conn
      dialing := hs.dialing
      closed := hs.closed
      named := fun x hx => ?_
      slot := hslot
      installed := hinstalled
      locks := fun hφ => hs.locked.trans (h.locks t (hlocks hφ))
      progress := hprogress
      dialed := fun c hc => .inl (hs.dialed ▸ hc)
      owns := fun c hc => ?_
      stored := fun n x hx => hs.clients ▸ hx
      kept := fun n x hx => .inl (hs.clients ▸ hx)
      others := fun t' _ hlocked => ⟨hs.locked.trans hlocked, hs.clients⟩ }
  · -- The state is the one the call had, or one that it found in the map.
    rcases hnamed x hx with hold | ⟨n, hn⟩
    · exact h.named t x hold
    · exact h.stored n x hn
  · refine (howns c hc).imp_right (Or.imp_right ?_)
    rintro ⟨hnone, n, x, hx, hconn⟩
    exact ⟨hnone, n, x, hs.clients ▸ hx, (hs.conn x).trans hconn⟩

/-- A call that owns no connection and does not have `mu` goes on. -/
theorem Inv.goes (hs : Same s s' t φ)
    (hnamed : ∀ x, φ.named = some x → ψ.named = some x ∨ ∃ n, s.clients.lookup n = some x)
    (hslot : ∀ x, φ.slot = some x → ψ.slot = some x) (hinstalled : φ.installed = none)
    (hlocks : φ.locks = false) (howns : ∀ c, ψ.owns c = false) : Inv s' := by
  refine h.same hcall hs hnamed hslot ?_ ?_ (State.progress_of_not_locks hlocks) ?_
  · rw [hinstalled]
    exact nofun
  · rw [hlocks]
    exact nofun
  · intro c hc
    rw [howns c] at hc
    cases hc

/-- A call takes `mu`. -/
theorem Inv.lock (hfree : s.locked = none) (howns : ∀ c, ψ.owns c = false)
    (hnamed : φ.named = none) (hprogress : ({ s with locked := some t }.goto t φ).Progress φ) :
    Inv ({ s with locked := some t }.goto t φ) := by
  subst hcall
  refine h.sweeps (φ := φ) rfl howns hnamed rfl rfl rfl (fun _ => id) (fun _ => rfl) hprogress
    (fun _ _ => id) (fun _ _ => .inl) ?_
  intro t' _ hlocked
  rw [hfree] at hlocked
  cases hlocked

/-- A call that has `mu` goes on in its loop. -/
theorem Inv.loop (hψ : ψ.locks = true) (hs : Same s s' t φ) (hstate : s'.state = s.state)
    (hnamed : φ.named = none) (hprogress : s'.Progress φ) : Inv s' := by
  subst hcall
  refine h.sweeps hs.calls (Phase.owns_of_locks hψ) hnamed hstate hs.nextState hs.dialed hs.closed
    (fun _ => hs.locked.trans (h.locks t hψ)) hprogress (fun n x hx => hs.clients ▸ hx)
    (fun n x hx => .inl (hs.clients ▸ hx)) fun t' _ hlocked => ⟨hs.locked.trans hlocked, hs.clients⟩

/-- A call that has `mu` takes settled nodes out of the map. -/
theorem Inv.takeOut (hψ : ψ.locks = true) {m : AList fun _ : NodeID => Nat}
    (hnamed : φ.named = none) (hprogress : ({ s with clients := m }.goto t φ).Progress φ)
    (hstored : ∀ n x, m.lookup n = some x → s.clients.lookup n = some x)
    (hkept : ∀ n x, s.clients.lookup n = some x → m.lookup n = some x ∨ s.Settled none n) :
    Inv ({ s with clients := m }.goto t φ) := by
  subst hcall
  have hmine := h.locks t hψ
  refine h.sweeps (φ := φ) rfl (Phase.owns_of_locks hψ) hnamed rfl rfl rfl (fun _ => id)
    (fun _ => hmine) hprogress hstored hkept ?_
  intro t' ht' hlocked
  exact absurd (Option.some.inj (hlocked.symm.trans hmine)) ht'

end

/-! ## States -/

/-- A call of `getClient` changes the connection or the slot of its state. -/
theorem Inv.setState {y : ClientState} (hcall : s.calls t = ψ)
    (hnamed : ∀ x', φ.named = some x' → ψ.named = some x')
    (hconn : y.conn = (s.state x).conn ∨ ψ.slot = some x)
    (hdialing : (s.state x).dialing = true → y.dialing = true ∨ ψ.slot = some x)
    (hslot : ∀ x', φ.slot = some x' →
      x' = x ∧ y.dialing = true ∧ (ψ.slot = some x ∨ (s.state x).dialing = false))
    (hinstalled : ∀ x' c, φ.installed = some (x', c) → x' = x ∧ y.conn = some c)
    (hlocks : φ.locks = false)
    (hfresh : ∀ c, y.conn = some c → (s.state x).conn = some c ∨ φ.owns c = true)
    (hold : ∀ c, (s.state x).conn = some c → y.conn = some c ∨ φ.owns c = true)
    (howns : ∀ c, ψ.owns c = true → φ.owns c = true) : Inv ((s.setState x y).goto t φ) := by
  subst hcall
  set s' := (s.setState x y).goto t φ with hs'
  have hself : s'.state x = y := by simp [hs']
  have hne : ∀ x' ≠ x, s'.state x' = s.state x' := fun x' hx' => by
    simp [hs', hx']
  have hcalls : s'.calls = Function.update s.calls t φ := rfl
  have hφ : s'.calls t = φ := by rw [hcalls, Function.update_self]
  have hacc : ∀ c, s.Accounted c → s'.Accounted c := fun c hc =>
    hc.mono hcalls (fun _ => id) fun hown => .inr (howns c hown)
  have ha : Acts s s' t φ := by
    refine ⟨hcalls, le_rfl, fun x' hx' => h.named t x' (hnamed x' hx'), fun _ _ => .inl, ?_, ?_, ?_, ?_,
      ?_, State.progress_of_not_locks hlocks, ?_, fun t' _ hlocked => ⟨hlocked, rfl, hacc⟩⟩
    · intro x' _
      by_cases hx' : x' = x
      · rw [hx', hself]
        exact hconn
      · exact .inl (by rw [hne x' hx'])
    · intro x' _ hd
      by_cases hx' : x' = x
      · rw [hx', hself]
        exact hdialing (hx' ▸ hd)
      · exact .inl (by rwa [hne x' hx'])
    · intro x' hx'
      obtain ⟨rfl, hrest⟩ := hslot x' hx'
      rwa [hself]
    · intro x' c hx'
      obtain ⟨rfl, hc⟩ := hinstalled x' c hx'
      rwa [hself]
    · rw [hlocks]
      exact nofun
    · intro x' c hc
      by_cases hx' : x' = x
      · rw [hx', hself] at hc
        rw [hx']
        exact hfresh c hc
      · exact .inl (by rwa [hne x' hx'] at hc)
  refine h.acts ha fun c hc => ?_
  rcases h.home c hc with ⟨n, x', hx', hc'⟩ | hc'
  · by_cases heq : x' = x
    · -- The connection that the state had is still there, or the call owns it now.
      subst heq
      rcases hold c hc' with hstill | hown
      · exact .inl ⟨n, x', hx', by rwa [hself]⟩
      · exact .inr (.inr ⟨t, by rwa [hφ]⟩)
    · exact .inl ⟨n, x', hx', by rwa [hne x' heq]⟩
  · exact .inr (hacc c hc')

/-- A call registers a new state. -/
theorem Inv.register (hcall : s.calls t = .register node) (hfree : s.locked = none)
    (hnone : s.clients.lookup node = none) :
    Inv ((s.alloc node).goto t (.dialSlot node s.nextState)) := by
  set s' := (s.alloc node).goto t (.dialSlot node s.nextState) with hs'
  have hstate : ∀ x < s.nextState, s'.state x = s.state x := fun x hx => by
    simp [hs', State.alloc, hx.ne]
  have hcalls : s'.calls = Function.update s.calls t (.dialSlot node s.nextState) := rfl
  have hacc : ∀ c, s.Accounted c → s'.Accounted c := fun c hc =>
    hc.mono hcalls (fun _ => id) (by simp [hcall])
  have ha : Acts s s' t (.dialSlot node s.nextState) := by
    refine ⟨hcalls, Nat.le_succ _, ?_, ?_, fun x hx => .inl (by rw [hstate x hx]),
      fun x hx hd => .inl (by rwa [hstate x hx]), nofun, nofun, nofun, trivial, ?_, ?_⟩
    · intro x hx
      obtain rfl := Option.some.inj hx
      exact Nat.lt_succ_self _
    · intro n x hx
      by_cases hn : n = node
      · subst hn
        obtain rfl : s.nextState = x := by simpa [hs', State.alloc] using hx
        exact .inr (Nat.lt_succ_self _)
      · exact .inl ((AList.lookup_insert_ne hn).symm.trans hx)
    · -- A new state has no connection.
      intro x c hc
      by_cases hx : x = s.nextState
      · simp [hs', State.alloc, newClientState, hx] at hc
      · simp only [hs', State.goto, State.alloc, Function.update_of_ne hx] at hc
        exact .inl hc
    · intro t' _ hlocked
      rw [hfree] at hlocked
      cases hlocked
  refine h.acts ha fun c hc => ?_
  rcases h.home c hc with ⟨n, x, hx, hc'⟩ | hc'
  · have hn : n ≠ node := by
      rintro rfl
      rw [hnone] at hx
      cases hx
    exact .inl ⟨n, x, (AList.lookup_insert_ne hn).trans hx, by rwa [hstate x (h.stored n x hx)]⟩
  · exact .inr (hacc c hc')

/-- A dial succeeds. -/
theorem Inv.dial (hcall : s.calls t = .dial node x addr) :
    Inv ({ s with dialed := s.dialed + 1 }.goto t (.install node x addr s.dialed)) := by
  refine h.frame (φ := .install node x addr s.dialed)
    { calls := rfl
      nextState := rfl
      conn := fun _ => rfl
      dialing := fun _ => rfl
      closed := fun _ => id
      named := fun x' hx' => h.named t x' (by rwa [hcall])
      slot := fun x' hx' => by rwa [hcall]
      installed := nofun
      locks := nofun
      progress := trivial
      dialed := fun c hc => ?_
      owns := fun c hc => absurd hc (by simp [hcall])
      stored := fun _ _ => id
      kept := fun _ _ => .inl
      others := fun _ _ hlocked => ⟨hlocked, rfl⟩ }
  -- The new connection is the last one.
  rcases Nat.lt_succ_iff_lt_or_eq.mp hc with hlt | heq
  · exact .inl hlt
  · exact .inr (by simp [heq])

end

/-! ## Steps of `getClient` -/

section Steps

variable (h : Inv s) (env : Env)

include h

variable {node : NodeID} {x : Nat} {slow : Bool}

/-- `healthyClient` returns, to a phase with the dial slot or to one without a state. -/
theorem Inv.checked {φ' : Phase} (hcall : s.calls t = ψ) (hnamed : ψ.named = some x)
    (hslot : slow = true → ψ.slot = some x) (howns : ∀ c, ψ.owns c = false)
    (hslow : φ.named = some x) (hsafe : φ.installed = none ∧ φ.locks = false)
    (hfast : φ'.named = none) (hfree : φ'.locks = false) :
    Inv (s.goto t (if slow then φ else φ')) := by
  cases slow with
  | false =>
    refine h.goes hcall same_goto ?_ ?_ (Phase.installed_eq_none hfast) hfree howns
    · exact fun _ hx => absurd (hfast.symm.trans hx) nofun
    · exact fun _ hx => absurd ((Phase.slot_eq_none hfast).symm.trans hx) nofun
  | true =>
    refine h.goes hcall same_goto ?_ ?_ hsafe.1 hsafe.2 howns
    · exact fun _ hx => .inl (hnamed.trans (hslow.symm.trans hx))
    · exact fun _ hx => (hslot rfl).trans (hslow.symm.trans (Phase.named_of_slot hx))

lemma inv_lookup (hcall : s.calls t = .lookup node) : Inv (act s t env (.lookup node)) := by
  simp only [act]
  split
  · split
    · rename_i x hx
      refine h.goes hcall same_goto ?_ nofun rfl rfl fun _ => rfl
      rintro _ ⟨⟩
      exact .inr ⟨node, hx⟩
    · exact h.goes hcall same_goto nofun nofun rfl rfl fun _ => rfl
  · exact h

lemma inv_check {c : Check} (hcall : s.calls t = .check node x slow c) :
    Inv (act s t env (.check node x slow c)) := by
  cases c with
  | answer isOpen =>
    cases isOpen with
    | false =>
      refine h.goes hcall same_goto (fun _ => .inl) ?_ rfl rfl fun _ => rfl
      cases slow <;> exact fun _ => id
    | true =>
      show Inv (s.goto t (.leave x slow _))
      refine h.checked hcall rfl ?_ (fun _ => rfl) rfl ⟨rfl, rfl⟩ rfl rfl
      rintro rfl
      rfl
  | _ =>
    refine h.goes hcall same_setBreaker (fun _ => .inl) ?_ rfl rfl fun _ => rfl
    cases slow <;> exact fun _ => id

lemma inv_inspect (hcall : s.calls t = .inspect node x slow) :
    Inv (act s t env (.inspect node x slow)) := by
  simp only [act]
  split
  · refine h.goes hcall same_goto (fun _ => .inl) ?_ rfl rfl fun _ => rfl
    cases slow <;> exact fun _ => id
  · refine h.checked hcall rfl ?_ (fun _ => rfl) rfl ⟨rfl, rfl⟩ rfl rfl
    rintro rfl
    rfl

lemma inv_getState {c : Nat} (hcall : s.calls t = .getState node x slow c) :
    Inv (act s t env (.getState node x slow c)) := by
  simp only [act]
  split
  · refine h.goes hcall same_goto (fun _ => .inl) ?_ rfl rfl fun _ => rfl
    cases slow <;> exact fun _ => id
  · refine h.checked hcall rfl ?_ (fun _ => rfl) rfl ⟨rfl, rfl⟩ rfl rfl
    rintro rfl
    rfl

lemma inv_register (hcall : s.calls t = .register node) : Inv (act s t env (.register node)) := by
  simp only [act]
  split
  · rename_i hfree
    split
    · rename_i x hx
      refine h.goes hcall same_goto ?_ nofun rfl rfl fun _ => rfl
      rintro _ ⟨⟩
      exact .inr ⟨node, hx⟩
    · rename_i hnone
      exact h.register hcall hfree hnone
  · exact h

lemma inv_dialSlot (hcall : s.calls t = .dialSlot node x) :
    Inv (act s t env (.dialSlot node x)) := by
  simp only [act]
  split
  · exact h.goes hcall same_goto nofun nofun rfl rfl fun _ => rfl
  · split
    · exact h
    · rename_i hfree
      refine h.setState hcall (fun _ => id) (.inl rfl) (fun _ => .inl rfl) ?_ nofun rfl (fun _ => .inl)
        (fun _ => .inl) nofun
      -- The slot was free, so no other call has it.
      rintro _ ⟨⟩
      exact ⟨rfl, rfl, .inr (by simpa using hfree)⟩

variable {addr : String} {c : Nat}

lemma inv_recordFailure {r : Record} (hcall : s.calls t = .recordFailure node x addr r) :
    Inv (act s t env (.recordFailure node x addr r)) := by
  cases r with
  | finished =>
    exact h.goes hcall same_goto (fun _ => .inl) (fun _ => id) rfl rfl fun _ => rfl
  | _ => exact h.goes hcall same_setBreaker (fun _ => .inl) (fun _ => id) rfl rfl fun _ => rfl

lemma inv_install (hcall : s.calls t = .install node x addr c) :
    Inv (act s t env (.install node x addr c)) := by
  -- Whether or not there was an old connection, the call keeps its state and its slot.
  have hphase : ∀ old, (Phase.afterInstall node x addr c old).named = some x ∧
      (Phase.afterInstall node x addr c old).slot = some x ∧
      (Phase.afterInstall node x addr c old).installed = some (x, c) ∧
      (Phase.afterInstall node x addr c old).locks = false := by
    intro old
    cases old <;> exact ⟨rfl, rfl, rfl, rfl⟩
  obtain ⟨hnamed, hslot, hinstalled, hlocks⟩ := hphase (s.state x).conn
  refine h.setState hcall ?_ (.inr rfl) (fun _ => .inr rfl) ?_ ?_ hlocks ?_ ?_ ?_
  · rw [hnamed]
    exact fun _ => id
  · intro x' hx'
    obtain rfl := Option.some.inj (hslot.symm.trans hx')
    exact ⟨rfl, h.slot t x (by rw [hcall]; rfl), .inl rfl⟩
  · intro x' c' hx'
    obtain ⟨rfl, rfl⟩ : x = x' ∧ c = c' := by simpa using hinstalled.symm.trans hx'
    exact ⟨rfl, rfl⟩
  · rintro _ ⟨⟩
    exact .inr (Phase.owns_afterInstall.mpr (.inl rfl))
  · exact fun c' hc' => .inr (Phase.owns_afterInstall.mpr (.inr hc'))
  · intro c' hc'
    exact Phase.owns_afterInstall.mpr (.inl (by simpa using hc'))

lemma inv_recheck (hcall : s.calls t = .recheck node x addr c) :
    Inv (act s t env (.recheck node x addr c)) := by
  simp only [act]
  split
  · rename_i hfree
    split
    · -- The state is registered, and the connection is still the one the call has set.
      rename_i hcurrent
      have hconn : (s.state x).conn = some c := h.installed t x c (by rw [hcall]; rfl)
      refine h.same hcall same_goto (fun _ => .inl) (fun _ => id) nofun nofun trivial ?_
      intro c' hc'
      obtain rfl : c' = c := by simpa using hc'
      exact .inr (.inr ⟨hfree, node, x, hcurrent, hconn⟩)
    · exact h.same hcall same_goto (fun _ => .inl) (fun _ => id) nofun nofun trivial
        fun _ hc' => .inr (.inl hc')
  · exact h

lemma inv_closeOld {old : Nat} (hcall : s.calls t = .closeOld node x addr c old) :
    Inv (act s t env (.closeOld node x addr c old)) := by
  refine h.same hcall same_closes (fun _ => .inl) (fun _ => id) (fun _ => id) nofun trivial ?_
  intro c' hc'
  by_cases heq : c' = old
  · exact .inl (heq ▸ closed_closes s old t _)
  · exact .inr (.inl (by simpa [heq] using hc'))

lemma inv_closeNew (hcall : s.calls t = .closeNew node x addr c) :
    Inv (act s t env (.closeNew node x addr c)) := by
  refine h.same hcall same_closes (fun _ => .inl) (fun _ => id) nofun nofun trivial ?_
  intro c' hc'
  obtain rfl : c' = c := by simpa using hc'
  exact .inl (closed_closes s c' t _)

/-! ## Steps of the calls that close connections -/

lemma inv_lockRemove (hcall : s.calls t = .lockRemove node) :
    Inv (act s t env (.lockRemove node)) := by
  simp only [act]
  split
  · rename_i hfree
    cases hx : s.clients.lookup node with
    -- `RemoveClient` has no loop, it starts with its one node.
    | some x => exact h.lock hcall hfree (fun _ => rfl) rfl ⟨hx, nofun⟩
    | none => exact h.lock hcall hfree (fun _ => rfl) rfl trivial
  · exact h

lemma inv_lockClose (hcall : s.calls t = .lockClose) : Inv (act s t env .lockClose) := by
  simp only [act]
  split
  · rename_i hfree
    -- A node that is not in the map has no state to settle.
    refine h.lock hcall hfree (fun _ => rfl) rfl fun _ m hm x c hx => ?_
    exact absurd (AList.lookup_isSome.mp (by rw [Option.isSome_iff_exists]; exact ⟨x, hx⟩)) hm
  · exact h

lemma inv_range (hcall : s.calls t = .range op pending) :
    Inv (act s t env (.range op pending)) := by
  have hprogress : s.Progress (.range op pending) := hcall ▸ h.progress t
  -- A call without a connection of its own keeps all nodes settled.
  have hkeep : ∀ {φ b m}, s.Settled b m → (s.goto t φ).Settled b m := fun hm =>
    same_goto.settled (by simp [hcall]) hm
  cases pending with
  | nil =>
    cases op with
    | close => exact h.loop hcall rfl same_goto rfl rfl fun m => hkeep (hprogress rfl m (by simp))
    | remove | refresh active => exact h.loop hcall rfl same_goto rfl rfl trivial
  | cons n pending =>
    -- The nodes that are not pending any more, without the one that is looked at.
    have hrest : ∀ φ, op = .close → ∀ m ∉ (n :: pending).erase env.next, m ≠ env.next →
        (s.goto t φ).Settled none m := fun φ hop m hm hne =>
      hkeep (hprogress hop m fun hmem => hm ((List.mem_erase_of_ne hne).mpr hmem))
    simp only [act]
    split
    · cases hx : s.clients.lookup env.next with
      | some x =>
        have hread : Inv (s.goto t (.readConn op ((n :: pending).erase env.next) env.next x)) :=
          h.loop hcall rfl same_goto rfl rfl ⟨hx, hrest _⟩
        cases op with
        | refresh active =>
          dsimp only
          split
          · exact h.loop hcall rfl same_goto rfl rfl nofun
          · exact hread
        | remove | close => exact hread
      | none =>
        dsimp only
        refine h.loop hcall rfl same_goto rfl rfl fun hop m hm => ?_
        by_cases hne : m = env.next
        · subst hne
          exact fun x c hx' => absurd (hx.symm.trans hx') nofun
        · exact hrest _ hop m hm hne
    · exact h

lemma inv_readConn (hcall : s.calls t = .readConn op pending n x) :
    Inv (act s t env (.readConn op pending n x)) := by
  obtain ⟨hx, hrest⟩ : s.Progress (.readConn op pending n x) := hcall ▸ h.progress t
  have hkeep : ∀ {φ b m}, s.Settled b m → (s.goto t φ).Settled b m := fun hm =>
    same_goto.settled (by simp [hcall]) hm
  simp only [act]
  cases hc : (s.state x).conn with
  | some c =>
    refine h.loop hcall rfl same_goto rfl rfl ⟨hkeep ?_, fun hop m hm hne => hkeep (hrest hop m hm hne)⟩
    intro x' c' hx' hc'
    obtain rfl := Option.some.inj (hx.symm.trans hx')
    exact .inl (hc.symm.trans hc')
  | none =>
    refine h.loop hcall rfl same_goto rfl (by cases op <;> rfl) (State.progress_afterClose (hkeep ?_)
      fun hop m hm hne => hkeep (hrest hop m hm hne))
    intro x' c' hx' hc'
    obtain rfl := Option.some.inj (hx.symm.trans hx')
    exact absurd (hc.symm.trans hc') nofun

lemma inv_closeConn (hcall : s.calls t = .closeConn op pending n c) :
    Inv (act s t env (.closeConn op pending n c)) := by
  obtain ⟨hn, hrest⟩ : s.Progress (.closeConn op pending n c) := hcall ▸ h.progress t
  have hkeep : ∀ {φ b m}, s.Settled b m → ((s.closes c).goto t φ).Settled b m := fun hm =>
    same_closes.settled (by simp [hcall]) hm
  refine h.loop hcall rfl same_closes rfl (by cases op <;> rfl) (State.progress_afterClose ?_
    fun hop m hm hne => hkeep (hrest hop m hm hne))
  -- The connection that was an exception is closed now.
  intro x' c' hx' hc'
  rcases hkeep (φ := .afterClose op pending n) hn x' c' hx' hc' with hgiven | hacc
  · obtain rfl := Option.some.inj hgiven
    exact .inr (.inl (closed_closes s c t _))
  · exact .inr hacc

lemma inv_delete (hcall : s.calls t = .delete op pending n) :
    Inv (act s t env (.delete op pending n)) := by
  obtain ⟨hop, hn⟩ : s.Progress (.delete op pending n) := hcall ▸ h.progress t
  refine h.takeOut hcall rfl rfl (fun hclose => absurd hclose hop) ?_ ?_
  · intro m x hx
    by_cases hm : m = n
    · rw [hm, AList.lookup_erase] at hx
      cases hx
    · rwa [AList.lookup_erase_ne hm] at hx
  · intro m x hx
    by_cases hm : m = n
    · exact .inr (hm ▸ hn)
    · exact .inl (by rwa [AList.lookup_erase_ne hm])

/-- `Close` has closed the connections of all nodes. -/
theorem inv_clear (hcall : s.calls t = .clear) : Inv (act s t env .clear) := by
  have hall : s.Progress .clear := hcall ▸ h.progress t
  refine h.takeOut hcall rfl rfl trivial ?_ fun m x _ => .inr (hall m)
  intro m x hx
  rw [AList.lookup_empty] at hx
  cases hx

end Steps

/-! ## All steps -/

lemma inv_advance (h : Inv s) (t : Nat) (env : Env) : Inv (advance s t env) := by
  unfold advance
  cases hcall : s.calls t with
  | lookup node => exact inv_lookup h env hcall
  | check node x slow c => exact inv_check h env hcall
  | inspect node x slow => exact inv_inspect h env hcall
  | getState node x slow c => exact inv_getState h env hcall
  | register node => exact inv_register h env hcall
  | dialSlot node x => exact inv_dialSlot h env hcall
  | recordFailure node x addr r => exact inv_recordFailure h env hcall
  | install node x addr c => exact inv_install h env hcall
  | closeOld node x addr c old => exact inv_closeOld h env hcall
  | recheck node x addr c => exact inv_recheck h env hcall
  | closeNew node x addr c => exact inv_closeNew h env hcall
  | lockRemove node => exact inv_lockRemove h env hcall
  | lockClose => exact inv_lockClose h env hcall
  | range op pending => exact inv_range h env hcall
  | readConn op pending n x => exact inv_readConn h env hcall
  | closeConn op pending n c => exact inv_closeConn h env hcall
  | delete op pending n => exact inv_delete h env hcall
  | clear => exact inv_clear h env hcall
  | idle | returned answer => exact h
  | takeClient node x slow =>
    refine h.checked hcall rfl ?_ (fun _ => rfl) rfl ⟨rfl, rfl⟩ rfl rfl
    rintro rfl
    rfl
  -- Whether or not the ring knows the node, the call keeps its slot.
  | nodeAddr node x =>
    simp only [act]
    split <;> exact h.goes hcall same_goto (fun _ => .inl) (fun _ => id) rfl rfl fun _ => rfl
  | dial node x addr =>
    simp only [act]
    split
    · -- Only a dial that succeeds makes a connection.
      exact h.dial hcall
    all_goals exact h.goes hcall same_goto (fun _ => .inl) (fun _ => id) rfl rfl fun _ => rfl
  | resetFailures x c =>
    exact h.goes hcall same_setBreaker (fun _ => .inl) (fun _ => id) rfl rfl fun _ => rfl
  | release x answer =>
    exact h.setState hcall nofun (.inl rfl) (fun _ => .inr rfl) nofun nofun rfl (fun _ => .inl)
      (fun _ => .inl) nofun
  | lockRefresh =>
    simp only [act]
    split
    · exact h.lock hcall ‹_› (fun _ => rfl) rfl trivial
    · exact h
  | activeNodes => exact h.loop hcall rfl same_goto rfl rfl nofun
  | unlock => exact h.unlock hcall _

lemma Inv.start (h : Inv s) (t : Nat) (hnamed : φ.named = none) (hlocks : φ.locks = false) :
    Inv (s.start t φ) := by
  unfold State.start
  split
  · rename_i hresting
    refine h.goes rfl same_goto ?_ ?_ (Phase.installed_eq_none hnamed) hlocks
      (Phase.owns_of_resting hresting)
    · exact fun _ hx => absurd (hnamed.symm.trans hx) nofun
    · exact fun _ hx => absurd ((Phase.slot_eq_none hnamed).symm.trans hx) nofun
  · exact h

lemma inv_step (h : Inv s) (e : Event) : Inv (step s e) := by
  cases e with
  | advance t env => exact inv_advance h t env
  | _ => exact h.start _ rfl rfl

lemma inv_run (config : RouterConfig) (es : List Event) : Inv (run step (.init config) es) :=
  invariant_run_of_forall (I := Inv) (fun _ e hI => inv_step hI e) (inv_init config) es

/-- A router that is not called owns its connections through the map. -/
theorem Inv.registered_of_quiet (h : Inv s) (hquiet : s.Quiet) (hc : s.IsOpen c) :
    s.Registered c := by
  refine (h.home c hc.1).resolve_right ?_
  rintro (hclosed | ⟨t, ht⟩)
  · rw [hc.2] at hclosed
    cases hclosed
  · rw [Phase.owns_of_resting (hquiet t)] at ht
    cases ht

/-- After every run of any number of calls, whatever the ring answers and however the dials end,
when no call is running every connection that was dialed and not closed is the current connection of
a registered state. -/
theorem connections_registered (config : RouterConfig) (es : List Event)
    (hquiet : (run step (.init config) es).Quiet) (c : Nat)
    (hc : (run step (.init config) es).IsOpen c) : (run step (.init config) es).Registered c :=
  (inv_run config es).registered_of_quiet hquiet hc

/-- At any time, one call at most dials a node's state, one holds the lock, and a connection that a
call has just set is still in place. -/
theorem dials_exclusive (config : RouterConfig) (es : List Event) (t : Nat) :
    let s := run step (.init config) es
    (∀ t' x, (s.calls t).slot = some x → (s.calls t').slot = some x → t' = t) ∧
      (∀ t', (s.calls t).locks = true → (s.calls t').locks = true → t' = t) ∧
      ∀ x c, (s.calls t).installed = some (x, c) → (s.state x).conn = some c := by
  intro s
  have hinv : Inv s := inv_run config es
  refine ⟨fun t' x h h' => hinv.alone t' t x h' h, fun t' h h' => ?_, hinv.installed t⟩
  exact Option.some.inj ((hinv.locks t' h').symm.trans (hinv.locks t h))

/-! ## A run -/

/-- The call that an event is about. -/
def Event.call : Event → Nat
  | .getClient t _ | .removeClient t _ | .refreshConnections t | .close t | .advance t _ => t

lemma step_calls_of_ne (s : State) (e : Event) (t : Nat) (h : t ≠ e.call) :
    (step s e).calls t = s.calls t := by
  have hgoto : ∀ (s' : State) (φ : Phase), (s'.goto e.call φ).calls t = s'.calls t := fun s' φ =>
    Function.update_of_ne h ..
  have hstart : ∀ φ, (s.start e.call φ).calls t = s.calls t := fun φ => by
    unfold State.start
    split
    · exact hgoto s φ
    · rfl
  cases e with
  | advance t' env =>
    simp only [step, advance, act]
    -- Every branch moves the call of the event, or nothing.
    repeat' split
    all_goals first | rfl | exact hgoto _ _
  | _ => exact hstart _

/-- Only the calls of a run have to be looked at. -/
theorem quiet_run (config : RouterConfig) {es : List Event}
    (h : ∀ t ∈ es.map Event.call, ((run step (.init config) es).calls t).resting = true) :
    (run step (.init config) es).Quiet :=
  forall_party_run (f := State.calls) (P := fun φ => φ.resting = true) step_calls_of_ne
    (fun _ => rfl) h

/-- A call takes some steps, with node `a` in the ring. -/
def advances (t n : Nat) : List Event :=
  List.replicate n (.advance t { allNodes := [⟨[97], "host:1", .active⟩] })

/-- A node is removed while it is dialed. The removal has seen no connection when the dial sets one.
The node is dialed again by another call. -/
def removedDuringDial : List Event :=
  .getClient 0 [97] :: advances 0 8 ++ .removeClient 1 [97] :: advances 1 2 ++ advances 0 1 ++
    advances 1 3 ++ advances 0 3 ++ .getClient 2 [97] :: advances 2 12

theorem connections_registered_removedDuringDial :
    (run step (.init defaultRouterConfig) removedDuringDial).Quiet ∧
      (run step (.init defaultRouterConfig) removedDuringDial).closed 0 = true ∧
      (run step (.init defaultRouterConfig) removedDuringDial).IsOpen 1 ∧
      (run step (.init defaultRouterConfig) removedDuringDial).Registered 1 := by
  have hquiet : (run step (.init defaultRouterConfig) removedDuringDial).Quiet :=
    quiet_run _ (by decide +kernel)
  have hopen : (run step (.init defaultRouterConfig) removedDuringDial).IsOpen 1 :=
    ⟨by decide +kernel, by decide +kernel⟩
  exact ⟨hquiet, by decide +kernel, hopen, connections_registered _ _ hquiet 1 hopen⟩

end OCache.Router
