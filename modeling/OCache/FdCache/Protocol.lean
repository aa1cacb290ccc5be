import OCache.Lib.EventSystem

/-!
# The descriptor cache

`FdCache` shares open files between readers. `Acquire` adds one to the reference count of an entry,
`Release` takes one away, and whoever takes the last one away claims the entry for closing with the
count `refsClosed`. Entries are found in a map from paths. The goroutine that puts an entry into the
map opens the file, others wait for it at the entry's `ready` channel.

A call is a goroutine of its own and moves in atomic steps: one operation on the map, on a reference
count or on the size counter, one open, one close, or the closing of a `ready` channel. A `<-ready`
has no effect and cannot be undone, so it is taken together with the step after it. A loop around
`CompareAndSwap` is one step, the one in which the swap succeeds.

`counted` is not in the source: the size counter has been raised for the entry. No step reads it.
-/

namespace OCache.FdCache

/-! ## Entries -/

/-- The count of an entry that is claimed for closing. -/
def refsClosed : Int := -1

/-- `FileEntry` -/
structure Entry where
  path : String
  refs : Int
  /-- `f` is a descriptor. -/
  opened : Bool
  /-- The `ready` channel is closed. -/
  ready : Bool
  cached : Bool
  /-- How often the descriptor was closed. -/
  closes : Nat
  /-- The size counter was raised for it. -/
  counted : Bool

/-- The entry that `Acquire` creates. -/
def Entry.new (path : String) (cached : Bool) : Entry where
  path := path
  refs := 1
  opened := false
  ready := false
  cached := cached
  closes := 0
  counted := false

/-- `tryAcquireRef` -/
def Entry.tryAcquireRef (x : Entry) : Option Entry :=
  if x.refs ≤ 0 then none else some { x with refs := x.refs + 1 }

/-- `dropRef`, and whether the caller owns the close. -/
def Entry.dropRef (x : Entry) : Entry × Bool :=
  if x.refs ≤ 0 then (x, false)
  else if 1 < x.refs then ({ x with refs := x.refs - 1 }, false)
  else ({ x with refs := refsClosed }, true)

/-- `f.Close`, if there is a descriptor -/
def Entry.close (x : Entry) : Entry := { x with closes := if x.opened then x.closes + 1 else x.closes }

/-! ## Calls -/

/-- The next step of a call. -/
inductive Phase where
  | idle
  /-- `Acquire`: look the path up. -/
  | load (path : String)
  /-- An entry was found, by `Load` or by `LoadOrStore`. -/
  | tryRef (path : String) (e : Nat)
  /-- Wait until the file is open. -/
  | wait (path : String) (e : Nat)
  | readSize (path : String)
  /-- `LoadOrStore` of a new entry. -/
  | store (path : String) (cached : Bool)
  | openFile (path : String) (e : Nat)
  /-- `close(ready)` -/
  | signal (path : String) (e : Nat)
  /-- The file is open: raise the size, or delete an entry that is not cached. -/
  | book (path : String) (e : Nat)
  /-- The file is not open: delete the entry. -/
  | discard (path : String) (e : Nat)
  /-- `Acquire` has returned the entry. -/
  | holding (path : String) (e : Nat)
  /-- `dropRef`, in `Release` and where `Acquire` fails. -/
  | drop (path : String) (e : Nat)
  /-- `closeEntry`: `CompareAndDelete`. -/
  | evict (path : String) (e : Nat)
  | uncount (path : String) (e : Nat)
  | close (path : String) (e : Nat)
  /-- `Remove`: `LoadAndDelete`. -/
  | takeOut (path : String)
  | removeUncount (path : String) (e : Nat)
  /-- `CompareAndSwap(0, refsClosed)` -/
  | removeClaim (path : String) (e : Nat)
  | removeClose (path : String) (e : Nat)
deriving DecidableEq

/-- The path and the entry that a call works on. -/
@[simp] def Phase.named : Phase → Option (String × Nat)
  | .idle | .load _ | .readSize _ | .store _ _ | .takeOut _ => none
  | .tryRef p e | .wait p e | .openFile p e | .signal p e | .book p e | .discard p e | .holding p e
  | .drop p e | .evict p e | .uncount p e | .close p e | .removeUncount p e | .removeClaim p e
  | .removeClose p e => some (p, e)

/-- The entry that a call, or the caller it has returned to, has a reference to. -/
@[simp] def Phase.holds : Phase → Option Nat
  | .wait _ e | .openFile _ e | .signal _ e | .book _ e | .discard _ e | .holding _ e | .drop _ e => some e
  | _ => none

/-- The entry that a call has claimed for closing. -/
@[simp] def Phase.closing : Phase → Option Nat
  | .evict _ e | .uncount _ e | .close _ e | .removeClose _ e => some e
  | _ => none

/-- The entry that a call has put into the map and is not done with. -/
@[simp] def Phase.opener : Phase → Option Nat
  | .openFile _ e | .signal _ e | .book _ e | .discard _ e => some e
  | _ => none

/-- No call is in progress; the caller may hold an entry. -/
def Phase.resting : Phase → Bool
  | .idle | .holding _ _ => true
  | _ => false

/-! ## The cache -/

/-- The cache, its entries by number, and its calls. -/
structure State where
  capacity : Int
  size : Int
  entries : String → Option Nat
  entry : Nat → Entry
  /-- The number of the next new entry. -/
  next : Nat
  calls : Nat → Phase

/-- `NewFdCache` -/
def State.init (capacity : Int) : State where
  capacity := capacity
  size := 0
  entries _ := none
  entry _ := .new "" false
  next := 0
  calls _ := .idle

/-- The conversion of Go's `int` to `int32`. -/
def toInt32 (n : Int) : Int := (n + 2 ^ 31) % 2 ^ 32 - 2 ^ 31

def State.atCapacity (s : State) : Bool := 0 < s.capacity ∧ toInt32 s.capacity ≤ s.size

/-- A call goes on to a phase. -/
@[simp] def State.goto (s : State) (t : Nat) (φ : Phase) : State :=
  { s with calls := Function.update s.calls t φ }

def State.setEntry (s : State) (e : Nat) (x : Entry) : State :=
  { s with entry := Function.update s.entry e x }

/-- `entries.Delete(path)` -/
def State.delete (s : State) (path : String) : State :=
  { s with entries := Function.update s.entries path none }

/-- `AddInt32(&size, n)` -/
def State.addSize (s : State) (n : Int) : State := { s with size := s.size + n }

/-- A new entry is stored under its path. -/
def State.alloc (s : State) (path : String) (cached : Bool) : State :=
  { s with
    entries := Function.update s.entries path (some s.next)
    entry := Function.update s.entry s.next (.new path cached)
    next := s.next + 1 }

section Projections

variable (s : State) (t e e' : Nat) (φ : Phase) (x : Entry) (p : String) (n : Int)

@[simp] lemma State.goto_size : (s.goto t φ).size = s.size := rfl
@[simp] lemma State.delete_entry : (s.delete p).entry = s.entry := rfl
@[simp] lemma State.addSize_entry : (s.addSize n).entry = s.entry := rfl

@[simp] lemma State.setEntry_entry_self : (s.setEntry e x).entry e = x := by
  simp [State.setEntry]

variable {e e'} in
@[simp] lemma State.setEntry_entry_of_ne (h : e' ≠ e) : (s.setEntry e x).entry e' = s.entry e' := by
  simp [State.setEntry, h]

variable {s e x} in
/-- A field that the new entry has in common with the old one. -/
theorem State.setEntry_field {α : Type} (f : Entry → α) (h : f x = f (s.entry e)) (e' : Nat) :
    f ((s.setEntry e x).entry e') = f (s.entry e') := by
  by_cases he : e' = e
  · simpa [he] using h
  · simp [he]

@[simp] lemma State.delete_entries_self : (s.delete p).entries p = none := by
  simp [State.delete]

variable {p} in
@[simp] lemma State.delete_entries_of_ne {p' : String} (h : p' ≠ p) :
    (s.delete p).entries p' = s.entries p' := by
  simp [State.delete, h]

end Projections

/-- One step of a call. `opens` says whether `OpenFile` succeeds. -/
def advance (s : State) (t : Nat) (opens : Bool) : State :=
  match s.calls t with
  | .idle | .holding _ _ => s
  | .load p =>
    match s.entries p with
    | some e => s.goto t (.tryRef p e)
    | none => s.goto t (.readSize p)
  | .tryRef p e =>
    match (s.entry e).tryAcquireRef with
    | some x => (s.setEntry e x).goto t (.wait p e)
    -- The entry is being closed: start again.
    | none => s.goto t (.load p)
  | .wait p e =>
    if (s.entry e).ready then s.goto t (if (s.entry e).opened then .holding p e else .drop p e) else s
  | .readSize p => s.goto t (.store p !s.atCapacity)
  | .store p cached =>
    match s.entries p with
    | some e => s.goto t (.tryRef p e)
    | none => (s.alloc p cached).goto t (.openFile p s.next)
  | .openFile p e =>
    -- A failed open leaves `f` nil.
    (s.setEntry e { s.entry e with opened := (s.entry e).opened || opens }).goto t (.signal p e)
  | .signal p e =>
    (s.setEntry e { s.entry e with ready := true }).goto t
      (if (s.entry e).opened then .book p e else .discard p e)
  | .book p e =>
    if (s.entry e).cached then
      ((s.setEntry e { s.entry e with counted := true }).addSize 1).goto t (.holding p e)
    else (s.delete p).goto t (.holding p e)
  -- The delete is unconditional, whatever the path leads to by now.
  | .discard p e => (s.delete p).goto t (.drop p e)
  | .drop p e =>
    (s.setEntry e (s.entry e).dropRef.1).goto t (if (s.entry e).dropRef.2 then .evict p e else .idle)
  | .evict p e =>
    if (s.entry e).ready then
      if (s.entry e).cached ∧ s.entries p = some e then (s.delete p).goto t (.uncount p e)
      else s.goto t (.close p e)
    else s
  | .uncount p e => (s.addSize (-1)).goto t (.close p e)
  | .close _ e => (s.setEntry e (s.entry e).close).goto t .idle
  | .takeOut p =>
    match s.entries p with
    | some e => (s.delete p).goto t (.removeUncount p e)
    | none => s.goto t .idle
  | .removeUncount p e =>
    if (s.entry e).ready then (s.addSize (-1)).goto t (.removeClaim p e) else s
  | .removeClaim p e =>
    if (s.entry e).refs = 0 then
      (s.setEntry e { s.entry e with refs := refsClosed }).goto t (.removeClose p e)
    else s.goto t .idle
  | .removeClose _ e => (s.setEntry e (s.entry e).close).goto t .idle

inductive Event where
  /-- A call of `Acquire` starts. -/
  | acquire (t : Nat) (path : String)
  /-- The caller that holds an entry calls `Release`. -/
  | release (t : Nat)
  /-- A call of `Remove` starts. -/
  | remove (t : Nat) (path : String)
  /-- A call takes a step. -/
  | advance (t : Nat) (opens : Bool)

def step (s : State) : Event → State
  | .acquire t path =>
    match s.calls t with
    | .idle => s.goto t (.load path)
    | _ => s
  | .release t =>
    match s.calls t with
    -- An entry can be released once, the caller does not hold it any more.
    | .holding p e => s.goto t (.drop p e)
    | _ => s
  | .remove t path =>
    match s.calls t with
    | .idle => s.goto t (.takeOut path)
    | _ => s
  | .advance t opens => advance s t opens

/-- No call is in progress. Callers may hold entries. -/
def State.Quiet (s : State) : Prop := ∀ t, (s.calls t).resting = true

end OCache.FdCache
