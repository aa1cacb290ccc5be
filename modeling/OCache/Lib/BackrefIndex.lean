import Mathlib.Data.Finset.Option
import Mathlib.Data.List.Sort
import Mathlib.Data.Prod.Lex

/-!
# Ordered indexes with back-references

An ordered index holds entries made of a time and a key, oldest first, and for each key a
back-reference to the entry that counts. A key may have other entries, left behind by writes that
did not clean up; a reader of the index goes by the back-reference, if there is one.
-/

/-- An entry of an ordered index. -/
structure TimedKey (τ κ : Type*) where
  time : τ
  key : κ
deriving DecidableEq

namespace TimedKey

variable {τ κ : Type*}

lemma toLex_injective : Function.Injective fun e : TimedKey τ κ => toLex (e.time, e.key) := by
  rintro ⟨t, k⟩ ⟨t', k'⟩ h
  simpa using h

/-- By time, entries of one time by key. -/
instance [LinearOrder τ] [LinearOrder κ] : LinearOrder (TimedKey τ κ) :=
  LinearOrder.lift' _ toLex_injective

end TimedKey

/-- Entries and back-references. -/
structure BackrefIndex (τ κ : Type*) where
  /-- The entries. -/
  entries : Finset (TimedKey τ κ)
  /-- The entry that counts for a key. -/
  backref : κ → Option (TimedKey τ κ)

namespace BackrefIndex

variable {τ κ : Type*}

def empty : BackrefIndex τ κ where
  entries := ∅
  backref _ := none

/-- A back-reference names an entry of its key that is there. -/
def Backed (i : BackrefIndex τ κ) : Prop :=
  ∀ key e, i.backref key = some e → e.key = key ∧ e ∈ i.entries

/-- The key has an entry that counts, or one and no back-reference. -/
def Covers (i : BackrefIndex τ κ) (key : κ) : Prop :=
  ∃ e ∈ i.entries, e.key = key ∧ (i.backref key = none ∨ i.backref key = some e)

/-- Back-references name entries of their key, and every entry is named. A back-reference may
dangle. -/
structure Sole (i : BackrefIndex τ κ) : Prop where
  keyed : ∀ key e, i.backref key = some e → e.key = key
  named : ∀ e ∈ i.entries, i.backref e.key = some e

/-- The back-reference of the key names an entry that is there. -/
def Listed (i : BackrefIndex τ κ) (key : κ) : Prop := ∃ e ∈ i.entries, i.backref key = some e

variable {i : BackrefIndex τ κ}

lemma sole_empty : Sole (empty : BackrefIndex τ κ) :=
  ⟨fun _ _ h => by simp [empty] at h, fun _ h => by simp [empty] at h⟩

variable {key : κ} {e : TimedKey τ κ} {entries : Finset (TimedKey τ κ)}
  {ref found : Option (TimedKey τ κ)}

/-- The only entry of a listed key is the one that its back-reference names. -/
theorem Sole.existsUnique (h : i.Sole) (hlisted : i.Listed key) :
    ∃ e, i.backref key = some e ∧ ∀ e', e' ∈ i.entries ∧ e'.key = key ↔ e' = e := by
  obtain ⟨e, he, href⟩ := hlisted
  refine ⟨e, href, fun e' => ⟨?_, ?_⟩⟩
  · rintro ⟨he', rfl⟩
    exact Option.some.inj ((h.named e' he').symm.trans href)
  · rintro rfl
    exact ⟨he, h.keyed key e' href⟩

lemma backed_empty : Backed (empty : BackrefIndex τ κ) := by
  intro key e h
  simp [empty] at h

lemma covers_of_backed (h : i.Backed) (he : i.backref key = some e) : i.Covers key :=
  ⟨e, (h key e he).2, (h key e he).1, .inr he⟩

section Order

variable [LinearOrder τ] [LinearOrder κ] (i)

/-- The entries, oldest first. Sorted by insertion, so that it evaluates on closed indexes. -/
def ordered : List (TimedKey τ κ) :=
  Quot.liftOn i.entries.val (List.insertionSort fun a b => a ≤ b) fun _ _ h =>
    ((List.perm_insertionSort _ _).trans (h.trans (List.perm_insertionSort _ _).symm)).eq_of_pairwise'
      (r := fun a b => a ≤ b) (List.pairwise_insertionSort _ _) (List.pairwise_insertionSort _ _)

lemma coe_ordered : (i.ordered : Multiset (TimedKey τ κ)) = i.entries.val := by
  rw [ordered]
  exact Quot.inductionOn i.entries.val fun l => Quot.sound (List.perm_insertionSort _ l)

variable {i}

@[simp] lemma mem_ordered {e : TimedKey τ κ} : e ∈ i.ordered ↔ e ∈ i.entries := by
  rw [← Multiset.mem_coe, coe_ordered, Finset.mem_val]

lemma nodup_ordered : i.ordered.Nodup := by
  rw [← Multiset.coe_nodup, coe_ordered]
  exact i.entries.nodup

end Order

variable [DecidableEq κ]

/-- A change of one key's entries and back-reference keeps the others backed. -/
theorem Backed.update (h : i.Backed) (hkept : ∀ e ∈ i.entries, e.key ≠ key → e ∈ entries)
    (href : ∀ e, ref = some e → e.key = key ∧ e ∈ entries) :
    Backed ⟨entries, Function.update i.backref key ref⟩ := by
  intro k e he
  by_cases hk : k = key
  · subst hk
    exact href e (by simpa using he)
  · simp only [Function.update_of_ne hk] at he
    obtain ⟨hkey, hmem⟩ := h k e he
    exact ⟨hkey, hkept e hmem (hkey ▸ hk)⟩

/-- The entry of one key changes with its back-reference. -/
theorem Sole.update (h : i.Sole) (hkeyed : ∀ e, ref = some e → e.key = key)
    (hself : ∀ e ∈ entries, e.key = key → ref = some e)
    (hother : ∀ e ∈ entries, e.key ≠ key → e ∈ i.entries) :
    Sole ⟨entries, Function.update i.backref key ref⟩ where
  keyed k e he := by
    by_cases hk : k = key
    · subst hk
      exact hkeyed e (by simpa using he)
    · exact h.keyed k e (by simpa [hk] using he)
  named e he := by
    by_cases hk : e.key = key
    · simpa [hk] using hself e he hk
    · simpa [hk] using h.named e (hother e he hk)

/-- What is listed stays listed when entries of another key change. -/
theorem Listed.update (h : i.Listed key) {k : κ} (hk : key ≠ k)
    (hkept : ∀ e ∈ i.entries, i.backref key = some e → e ∈ entries) :
    Listed ⟨entries, Function.update i.backref k ref⟩ key := by
  obtain ⟨e, he, href⟩ := h
  exact ⟨e, hkept e he href, by simpa [hk] using href⟩

variable [DecidableEq τ]

section Operations

variable (i)

/-- Add an entry that counts. An older one stays behind. -/
def put (key : κ) (t : τ) : BackrefIndex τ κ where
  entries := insert ⟨t, key⟩ i.entries
  backref := Function.update i.backref key (some ⟨t, key⟩)

/-- Replace the entry that counts. -/
def replace (key : κ) (t : τ) : BackrefIndex τ κ where
  entries := insert ⟨t, key⟩ (i.entries \ (i.backref key).toFinset)
  backref := Function.update i.backref key (some ⟨t, key⟩)

/-- Remove the entry that counts and the back-reference. -/
def remove (key : κ) : BackrefIndex τ κ where
  entries := i.entries \ (i.backref key).toFinset
  backref := Function.update i.backref key none

/-- Put an entry that counts in the place of one that was found earlier. -/
def refresh (found : Option (TimedKey τ κ)) (e : TimedKey τ κ) : BackrefIndex τ κ where
  entries := insert e (i.entries \ found.toFinset)
  backref := Function.update i.backref e.key (some e)

/-- Remove an entry that was found earlier, and the back-reference of a key. -/
def unlist (key : κ) (found : Option (TimedKey τ κ)) : BackrefIndex τ κ where
  entries := i.entries \ found.toFinset
  backref := Function.update i.backref key none

/-- Remove entries and no back-reference. -/
def discard (gone : Finset (TimedKey τ κ)) : BackrefIndex τ κ :=
  { i with entries := i.entries \ gone }

/-- Remove an entry and the back-reference of its key. -/
def evict (e : TimedKey τ κ) : BackrefIndex τ κ where
  entries := i.entries.erase e
  backref := Function.update i.backref e.key none

end Operations

/-- The entry that counts for a key belongs to that key. -/
theorem Backed.mem_sdiff (h : i.Backed) (he : e ∈ i.entries) (hkey : e.key ≠ key) :
    e ∈ i.entries \ (i.backref key).toFinset := by
  rw [Finset.mem_sdiff, Option.mem_toFinset]
  exact ⟨he, fun href => hkey (h key e href).1⟩

lemma Backed.put (h : i.Backed) (key : κ) (t : τ) : (i.put key t).Backed := by
  refine h.update (fun e he _ => Finset.mem_insert_of_mem he) ?_
  rintro e ⟨⟩
  exact ⟨rfl, Finset.mem_insert_self _ _⟩

lemma Backed.replace (h : i.Backed) (key : κ) (t : τ) : (i.replace key t).Backed := by
  refine h.update (fun e he hkey => Finset.mem_insert_of_mem (h.mem_sdiff he hkey)) ?_
  rintro e ⟨⟩
  exact ⟨rfl, Finset.mem_insert_self _ _⟩

lemma Backed.remove (h : i.Backed) (key : κ) : (i.remove key).Backed :=
  h.update (fun _ he hkey => h.mem_sdiff he hkey) (by simp)

/-- An entry that was found for one key is no entry of another. -/
theorem mem_sdiff_found (hfound : ∀ f ∈ found, f.key = key) (he : e ∈ i.entries)
    (hkey : e.key ≠ key) : e ∈ i.entries \ found.toFinset := by
  rw [Finset.mem_sdiff, Option.mem_toFinset]
  exact ⟨he, fun hmem => hkey (hfound e hmem)⟩

lemma Backed.refresh (h : i.Backed) (hfound : ∀ f ∈ found, f.key = e.key) :
    (i.refresh found e).Backed := by
  refine h.update (fun e' he' hkey => Finset.mem_insert_of_mem (mem_sdiff_found hfound he' hkey)) ?_
  rintro e' ⟨⟩
  exact ⟨rfl, Finset.mem_insert_self _ _⟩

lemma Backed.unlist (h : i.Backed) (hfound : ∀ f ∈ found, f.key = key) :
    (i.unlist key found).Backed :=
  h.update (fun _ he hkey => mem_sdiff_found hfound he hkey) (by simp)

lemma Backed.evict (h : i.Backed) (e : TimedKey τ κ) : (i.evict e).Backed := by
  refine h.update (fun e' he' hkey => Finset.mem_erase.mpr ⟨?_, he'⟩) (by simp)
  rintro rfl
  exact hkey rfl

/-- Entries that no back-reference names can go. -/
theorem Backed.discard (h : i.Backed) {gone : Finset (TimedKey τ κ)}
    (hgone : ∀ key e, i.backref key = some e → e ∉ gone) : (i.discard gone).Backed := by
  intro key e he
  obtain ⟨hkey, hmem⟩ := h key e he
  exact ⟨hkey, Finset.mem_sdiff.mpr ⟨hmem, hgone key e he⟩⟩

/-! ### Sole entries -/

section Sole

variable {key : κ}

variable {e : TimedKey τ κ}

/-- An entry of the key is the one that its back-reference names. -/
theorem Sole.not_mem_sdiff (h : i.Sole) (hkey : e.key = key) :
    e ∉ i.entries \ (i.backref key).toFinset := by
  rw [Finset.mem_sdiff, Option.mem_toFinset, not_and_not_right]
  intro he
  exact hkey ▸ h.named e he

lemma Sole.replace (h : i.Sole) (key : κ) (t : τ) : (i.replace key t).Sole := by
  refine h.update ?_ ?_ ?_
  · rintro e ⟨⟩
    rfl
  · intro e he hkey
    rcases Finset.mem_insert.mp he with rfl | he
    · rfl
    · exact absurd he (h.not_mem_sdiff hkey)
  · intro e he hkey
    rcases Finset.mem_insert.mp he with rfl | he
    · exact absurd rfl hkey
    · exact (Finset.mem_sdiff.mp he).1

lemma Sole.remove (h : i.Sole) (key : κ) : (i.remove key).Sole :=
  h.update (by simp) (fun _ he hkey => absurd he (h.not_mem_sdiff hkey))
    fun _ he _ => (Finset.mem_sdiff.mp he).1

lemma Sole.discard (h : i.Sole) (gone : Finset (TimedKey τ κ)) : (i.discard gone).Sole :=
  ⟨h.keyed, fun e he => h.named e (Finset.mem_sdiff.mp he).1⟩

/-- An entry that counts, or one of a key without a back-reference, can be evicted. -/
theorem Sole.evict (h : i.Sole) (he : i.backref e.key = none ∨ i.backref e.key = some e) :
    (i.evict e).Sole := by
  refine h.update (by simp) ?_ fun e' he' _ => Finset.mem_of_mem_erase he'
  intro e' he' hkey
  obtain ⟨hne, hmem⟩ := Finset.mem_erase.mp he'
  have href := h.named e' hmem
  rw [hkey] at href
  rcases he with hnone | hsome
  · simp [hnone] at href
  · exact absurd (Option.some.inj (href.symm.trans hsome)) hne

lemma listed_replace (i : BackrefIndex τ κ) (key : κ) (t : τ) : (i.replace key t).Listed key :=
  ⟨⟨t, key⟩, by simp [BackrefIndex.replace], by simp [BackrefIndex.replace]⟩

/-- Two keys do not share an entry. -/
theorem Sole.mem_sdiff (h : i.Sole) {k : κ} (hk : key ≠ k) (he : e ∈ i.entries)
    (href : i.backref key = some e) : e ∈ i.entries \ (i.backref k).toFinset := by
  rw [Finset.mem_sdiff, Option.mem_toFinset]
  exact ⟨he, fun hk' => hk ((h.keyed key e href).symm.trans (h.keyed k e hk'))⟩

variable (hlisted : i.Listed key)

include hlisted

lemma Listed.replace (h : i.Sole) (k : κ) (t : τ) : (i.replace k t).Listed key := by
  by_cases hk : key = k
  · subst hk
    exact listed_replace i key t
  · exact hlisted.update hk fun e he href => Finset.mem_insert_of_mem (h.mem_sdiff hk he href)

lemma Listed.remove (h : i.Sole) {k : κ} (hk : key ≠ k) : (i.remove k).Listed key :=
  hlisted.update hk fun _ he href => h.mem_sdiff hk he href

lemma Listed.discard {gone : Finset (TimedKey τ κ)}
    (hgone : ∀ e, i.backref key = some e → e ∉ gone) : (i.discard gone).Listed key := by
  obtain ⟨e, he, href⟩ := hlisted
  exact ⟨e, Finset.mem_sdiff.mpr ⟨he, hgone e href⟩, href⟩

lemma Listed.evict (h : i.Sole) (hk : key ≠ e.key) : (i.evict e).Listed key := by
  refine hlisted.update hk fun e' he' href => Finset.mem_erase.mpr ⟨?_, he'⟩
  rintro rfl
  exact hk (h.keyed key e' href).symm

end Sole

end BackrefIndex
