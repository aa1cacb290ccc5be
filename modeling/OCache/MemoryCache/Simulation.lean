import OCache.Lib.OrderMatching
import OCache.MemoryCache.Model

/-!
# The in-memory cache simulates the store

Both sides issue a new version at the same calls: where a key is absent without a fence, where a put
is admitted, and where a delete is. The versions issued together form an order matching, and all
checks of the two sides are comparisons of matched versions. A key is absent, fenced or holds a
value on both sides, and which of these it is at a clock reading is the same.
-/

namespace OCache.MemoryCache

open EventSystem OrderMatching Merge Cas

/-- Versions of the cache with those of the store. -/
abbrev Pairs := List (UInt64 × UInt64)

/-! ## The relation -/

/-- What the cache and the store have for a key. -/
inductive KeyRel (P : Pairs) (files : String → Option (List UInt8)) (entry : Option CacheEntry)
    (version : UInt64) (fence : Option UInt64) : Option ValueMessage → Prop where
  | absent (hentry : entry = none) (hfence : fence = none) : KeyRel P files entry version fence none
  | fenced {f v : UInt64} (hentry : entry = none) (hfence : fence = some f) (hversion : (f, v) ∈ P)
      (hv : v ≠ 0) : KeyRel P files entry version fence (some (tombstone v))
  | valued {row : ValueMessage} {value : List UInt8} (hentry : entry = some ⟨value, row.expiry⟩)
      (hfence : fence = none) (hversion : (version, row.version) ∈ P) (hv : row.version ≠ 0)
      (hexpiry : row.expiry = 0 ∨ tombstoneExpiry < row.expiry)
      (hvalue : valueOf files row = some value) : KeyRel P files entry version fence (some row)

/-- Two rows have no raw file in common. -/
def DistinctFiles (rows : String → Option ValueMessage) : Prop :=
  ∀ k k' r r', rows k = some r → rows k' = some r' → r.valueType = .rawFile →
    r'.valueType = .rawFile → r.rawFilePath = r'.rawFilePath → k = k'

structure Sim (m : Cache) (st : Storage) (P : Pairs) : Prop where
  matching : Matching P
  zero : (0, 0) ∈ P
  bound : ∀ p ∈ P, p.1 ≤ m.versionCounter ∧ p.2 ≤ st.lastStamp
  /-- The counter does not run ahead of the stamps, so it does not overflow before they do. -/
  counter : m.versionCounter ≤ st.lastStamp
  keys : ∀ key, KeyRel P st.files (m.data key) (m.versions key) (m.fences key) (st.rows key)
  files : DistinctFiles st.rows

lemma sim_new : Sim .new .new [(0, 0)] where
  matching := matching_singleton _
  zero := List.mem_singleton_self _
  bound p hp := by
    obtain rfl := List.mem_singleton.mp hp
    decide
  counter := by decide
  keys key := .absent rfl rfl
  files k k' r r' h := by cases h

/-- The deadline of a value does not mark a tombstone. -/
theorem ne_tombstoneExpiry {expiry : Int64} (h : expiry = 0 ∨ tombstoneExpiry < expiry) :
    expiry ≠ tombstoneExpiry := by
  rcases h with rfl | hlt
  · decide
  · exact fun heq => Int64.lt_irrefl (heq ▸ hlt)

variable {entry : Option CacheEntry} {fence : Option UInt64} {stamp e e' : UInt64}
  {key path : String} {r : ValueMessage} {a b : Answer}

variable {P P' : Pairs} {row : Option ValueMessage} {returned returned' : List UInt64} {c : Call}
  {s : Session Cache} {s' : Session Storage}

/-- Matched versions stay matched. -/
theorem KeyRel.mono (hP : P ⊆ P') {files : String → Option (List UInt8)} {version : UInt64}
    (h : KeyRel P files entry version fence row) : KeyRel P' files entry version fence row := by
  cases h with
  | absent hentry hfence => exact .absent hentry hfence
  | fenced hentry hfence hversion hv => exact .fenced hentry hfence (hP hversion) hv
  | valued hentry hfence hversion hv hexpiry hvalue =>
    exact .valued hentry hfence (hP hversion) hv hexpiry hvalue

/-- Only the file of the row matters. -/
theorem KeyRel.files {files files' : String → Option (List UInt8)} {version : UInt64}
    (h : KeyRel P files entry version fence row)
    (hfiles : ∀ r value, row = some r → r.valueType = .rawFile → files r.rawFilePath = some value →
      files' r.rawFilePath = some value) :
    KeyRel P files' entry version fence row := by
  cases h with
  | absent hentry hfence => exact .absent hentry hfence
  | fenced hentry hfence hversion hv => exact .fenced hentry hfence hversion hv
  | valued hentry hfence hversion hv hexpiry hvalue =>
    rename_i row value
    refine .valued hentry hfence hversion hv hexpiry ?_
    -- Inline values and values in segments do not depend on the files.
    unfold valueOf at hvalue ⊢
    split at hvalue
    · exact hvalue
    · rename_i htype
      exact hfiles row value rfl htype hvalue
    · exact hvalue

/-! ## Issuing versions -/

variable {m : Cache} {st : Storage} {P : Pairs}

section

variable (h : Sim m st P)

include h

section

variable (hstamp : st.lastStamp < stamp)

include hstamp

/-- The versions that both sides issue next. -/
theorem Sim.above : m.versionCounter < m.versionCounter + 1 ∧ m.versionCounter + 1 ≤ stamp := by
  have hcounter := UInt64.le_iff_toNat_le.mp h.counter
  have hlt := UInt64.lt_iff_toNat_lt.mp hstamp
  have hbound := stamp.toNat_lt
  have hadd : (m.versionCounter + 1).toNat = m.versionCounter.toNat + 1 := by
    rw [UInt64.toNat_add]
    exact Nat.mod_eq_of_lt (by simp; omega)
  rw [UInt64.lt_iff_toNat_lt, UInt64.le_iff_toNat_le, hadd]
  omega

lemma Sim.matching_issue : Matching ((m.versionCounter + 1, stamp) :: P) :=
  h.matching.cons fun q hq => ⟨UInt64.lt_of_le_of_lt (h.bound q hq).1 (h.above hstamp).1,
    UInt64.lt_of_le_of_lt (h.bound q hq).2 hstamp⟩

lemma Sim.bound_issue :
    ∀ p ∈ (m.versionCounter + 1, stamp) :: P, p.1 ≤ m.versionCounter + 1 ∧ p.2 ≤ stamp := by
  intro p hp
  rcases List.mem_cons.mp hp with rfl | hp
  · exact ⟨UInt64.le_refl _, UInt64.le_refl _⟩
  · exact ⟨UInt64.le_trans (h.bound p hp).1 (UInt64.le_of_lt (h.above hstamp).1),
      UInt64.le_trans (h.bound p hp).2 (UInt64.le_of_lt hstamp)⟩

lemma Sim.stamp_ne_zero : stamp ≠ 0 := by
  rintro rfl
  exact absurd (h.bound _ h.zero).2 (UInt64.not_le.mpr hstamp)

end

/-! ## Checks -/

/-- A key at a clock reading, as both sides see it. -/
inductive View (m : Cache) (st : Storage) (P : Pairs) (now : Int64) (key : String) : Prop where
  | live {value : List UInt8} {expiresAt : Int64} {row : ValueMessage} (hlive : m.live now key = true)
      (hentry : m.data key = some ⟨value, expiresAt⟩) (hrow : st.rows key = some row)
      (hvalue : valueOf st.files row = some value)
      (hclass : casClassify now (st.rows key) = (.live, row.version))
      (hversion : (m.effectiveVersion now key, row.version) ∈ P)
  | fenced {f v : UInt64} (hlive : m.live now key = false) (hfence : m.fences key = some f)
      (hclass : casClassify now (st.rows key) = (.fenced, v)) (hversion : (f, v) ∈ P)
  | absent (hlive : m.live now key = false) (hfence : m.fences key = none)
      (hclass : casClassify now (st.rows key) = (.absent, 0))

lemma Sim.view (now : Int64) (key : String) : View m st P now key := by
  have hkey := h.keys key
  generalize hrow : st.rows key = row at hkey
  cases hkey with
  | absent hentry hfence =>
    exact .absent (by simp [Cache.live, hentry]) hfence (by rw [hrow]; rfl)
  | fenced hentry hfence hversion hv =>
    exact .fenced (by simp [Cache.live, hentry]) hfence
      (by rw [hrow]; simp [casClassify, tombstone, hv]) hversion
  | valued hentry hfence hversion hv hexpiry hvalue =>
    rename_i row value
    have hdead := ne_tombstoneExpiry hexpiry
    -- Both sides compare the clock with the same deadline.
    have hiff : m.live now key = true ↔ ¬(0 < row.expiry ∧ row.expiry ≤ now) := by
      simp only [Cache.live, hentry, decide_eq_true_eq]
      rcases hexpiry with hzero | hlt
      · simp [hzero]
      · have hpos : 0 < row.expiry := Int64.lt_trans (by decide) hlt
        have hne : row.expiry ≠ 0 := fun heq => Int64.lt_irrefl (heq ▸ hpos)
        simp [hpos, hne, Int64.not_le]
    -- Zero is matched with zero, so a row with a version has one in the cache too.
    by_cases hlive : m.live now key = true
    · have hmversion : m.versions key ≠ 0 := by
        intro hzero
        exact hv ((h.matching.eq_iff hversion h.zero).mp hzero)
      refine .live hlive hentry hrow hvalue ?_ ?_
      · rw [hrow]
        simp [casClassify, hdead, hiff.mp hlive, effectiveRowVersion, hv]
      · simpa [Cache.effectiveVersion, hlive, hmversion] using hversion
    · refine .absent (by simpa using hlive) hfence ?_
      rw [hrow]
      simp [casClassify, hdead, not_not.mp (mt hiff.mpr hlive)]

/-- The versions that a mismatch reports, and whether there is one. -/
theorem Sim.admits (now : Int64) (key : String) (he : (e, e') ∈ P) :
    ((m.admits now key e).1 = casAdmits (casClassify now (st.rows key)).1
        (casClassify now (st.rows key)).2 e' ∧
      ((m.admits now key e).2, (casClassify now (st.rows key)).2) ∈ P) ∧
      (m.deleteAdmits now key e).1 = Cas.deleteAdmits (casClassify now (st.rows key)).1
        (casClassify now (st.rows key)).2 e' ∧
      ((m.deleteAdmits now key e).2, (casClassify now (st.rows key)).2) ∈ P := by
  -- Each check compares two matched versions, or one of them with zero.
  have hzero : e = 0 ↔ e' = 0 := h.matching.eq_iff he h.zero
  cases h.view now key with
  | live hlive hentry hrow hvalue hclass hversion =>
    have heq := h.matching.eq_iff hversion he
    simp only at heq
    simp [Cache.admits, Cache.deleteAdmits, hlive, hclass, casAdmits, Cas.deleteAdmits, hversion, heq]
  | fenced hlive hfence hclass hversion =>
    rename_i f v
    have hle : f ≤ e ↔ v ≤ e' := by
      rw [← UInt64.not_lt, ← UInt64.not_lt]
      exact not_congr (h.matching.lt_iff he hversion)
    simp [Cache.admits, Cache.deleteAdmits, hlive, hfence, hclass, casAdmits, Cas.deleteAdmits, hversion,
      hle, hzero]
  | absent hlive hfence hclass =>
    simp [Cache.admits, Cache.deleteAdmits, hlive, hfence, hclass, casAdmits, Cas.deleteAdmits, h.zero,
      hzero]

/-! ## Merges -/

/-- An operand that was admitted applies to the row. -/
theorem Sim.applies {now : Int64} {op : ValueMessage}
    (hcarried : op.casExpectedVersion = carriedVersion now (st.rows key) e)
    (hadmits : casAdmits (casClassify now (st.rows key)).1 (casClassify now (st.rows key)).2 e = true)
    (hop : op.opType = .casPut ∨ ((casClassify now (st.rows key)).1 = .absent → e = 0)) :
    applies (st.rows key) op = true := by
  have hkey := h.keys key
  generalize hrow : st.rows key = row at hkey hcarried hadmits hop
  cases hkey with
  | absent hentry hfence =>
    -- Only a delete that expects nothing applies to an absent row, a put always does.
    have hbase : baseOf none = none := rfl
    simp only [Merge.applies, hbase, decide_eq_true_eq]
    refine hop.imp_right fun hzero => ?_
    rw [hcarried]
    exact hzero rfl
  | fenced hentry hfence hversion hv =>
    rename_i f v
    -- The check let the expected version pass the fence, and the merge compares it with the same
    -- fence.
    have hclass : casClassify now (some (tombstone v)) = (.fenced, v) := by
      simp [casClassify, tombstone, hv]
    have hbase : baseOf (some (tombstone v)) = some (tombstone v) := by
      simp [baseOf, tombstone, tombstoneExpiry]
    rw [hclass] at hadmits
    have hexpected : op.casExpectedVersion = e := by simp [hcarried, carriedVersion, hclass]
    have hle : e = 0 ∨ v ≤ e := by simpa [casAdmits] using hadmits
    have hmatch : casMatches (tombstone v) e = true := by
      simp only [casMatches, tombstone, if_true, fenceAdmits]
      exact decide_eq_true hle
    simp only [Merge.applies, hbase, hexpected, hmatch]
  | valued hentry hfence hversion hv hexpiry hvalue =>
    rename_i r value
    have hdead := ne_tombstoneExpiry hexpiry
    have hbase : baseOf (some r) = some r := by
      refine if_neg fun heq => hv ?_
      rw [Option.some.inj heq]
    have hversion' : effectiveRowVersion (some r) = r.version := by
      simp [effectiveRowVersion, hdead, hv]
    -- An expired row is expected at its own version, a live one has the expected version.
    have hexpected : op.casExpectedVersion = r.version := by
      by_cases hexpired : 0 < r.expiry ∧ r.expiry ≤ now
      · have hclass : casClassify now (some r) = (.absent, 0) := by
          simp [casClassify, hdead, hexpired]
        simp [hcarried, carriedVersion, hclass, hdead, hversion']
      · have hclass : casClassify now (some r) = (.live, r.version) := by
          simp [casClassify, hdead, hexpired, hversion']
        have heq : r.version = e := by simpa [hclass, casAdmits] using hadmits
        simp [hcarried, carriedVersion, hclass, heq]
    simp [Merge.applies, hbase, casMatches, hdead, hversion', hexpected]

/-! ## Files -/

/-- The raw file of a row exists. -/
theorem Sim.file (hrow : st.rows key = some r) (htype : r.valueType = .rawFile) :
    ∃ value, st.files r.rawFilePath = some value := by
  have hkey := h.keys key
  rw [hrow] at hkey
  cases hkey with
  | fenced => cases htype
  | valued hentry hfence hversion hv hexpiry hvalue =>
    rename_i value
    exact ⟨value, by simpa [valueOf, htype] using hvalue⟩

end

/-- Deleting the file of a replaced row leaves the files of other rows. -/
theorem reclaim_of_ne {files : String → Option (List UInt8)} {prev : Option ValueMessage}
    (h : ∀ r, prev = some r → r.valueType = .rawFile → r.rawFilePath ≠ path) :
    reclaim files prev path = files path := by
  unfold reclaim
  split
  · rename_i row
    split
    · rename_i hraw
      exact Function.update_of_ne (h row rfl hraw.1).symm none files
    · rfl
  · rfl

section

variable (h : Sim m st P)

include h

/-- The rows of the other keys keep their files, if the file of one key is replaced. -/
theorem Sim.reclaim_other {key' : String} (hne : key' ≠ key) (hrow : st.rows key' = some r)
    (htype : r.valueType = .rawFile) (files : String → Option (List UInt8)) :
    reclaim files (st.rows key) r.rawFilePath = files r.rawFilePath :=
  reclaim_of_ne fun r' hrow' htype' hpath =>
    hne (h.files key' key r r' hrow hrow' htype htype' hpath.symm)

/-! ## Calls -/

/-- The same answer with matched versions. -/
inductive Related (P : Pairs) : Answer → Answer → Prop where
  | found (value : List UInt8) {v v' : UInt64} (h : (v, v') ∈ P) :
      Related P (.found value v) (.found value v')
  | absent {v v' : UInt64} (h : (v, v') ∈ P) : Related P (.absent v) (.absent v')
  | stored {v v' : UInt64} (h : (v, v') ∈ P) : Related P (.stored v) (.stored v')
  | deleted : Related P .deleted .deleted
  | mismatch {v v' : UInt64} (h : (v, v') ∈ P) : Related P (.mismatch v) (.mismatch v')

/-- What a call does to related states: versions may be added to the matching. -/
def Keeps (P : Pairs) (r : Cache × Answer) (r' : Storage × Answer) : Prop :=
  ∃ P', P ⊆ P' ∧ Sim r.1 r'.1 P' ∧ Related P' r.2 r'.2

lemma Keeps.same (hab : Related P a b) : Keeps P (m, a) (st, b) := ⟨P, List.Subset.refl P, h, hab⟩

lemma sim_getWithVersion (now : Int64) (key : String) (hstamp : st.lastStamp < stamp) :
    Keeps P (m.getWithVersion now key) (st.getWithVersion now key stamp) := by
  cases h.view now key with
  | live hlive hentry hrow hvalue hclass hversion =>
    rename_i value _ _
    have hfound : (st.rows key).bind (valueOf st.files) = some value := by
      rw [hrow]
      exact hvalue
    simp only [Cache.getWithVersion, Storage.getWithVersion, hlive, if_true, hentry, hclass, hfound]
    exact .same h (.found _ hversion)
  | fenced hlive hfence hclass hversion =>
    simp only [Cache.getWithVersion, Storage.getWithVersion, hlive, Cache.absenceToken, hfence, hclass]
    exact .same h (.absent hversion)
  | absent hlive hfence hclass =>
    -- Both sides issue a version for the observation.
    simp only [Cache.getWithVersion, Storage.getWithVersion, hlive, Cache.absenceToken, hfence, hclass]
    refine ⟨(m.versionCounter + 1, stamp) :: P, List.subset_cons_self _ _, ?_, .absent List.mem_cons_self⟩
    exact
      { matching := h.matching_issue hstamp
        zero := List.mem_cons_of_mem _ h.zero
        bound := h.bound_issue hstamp
        counter := (h.above hstamp).2
        keys := fun key => (h.keys key).mono (List.subset_cons_self _ _)
        files := h.files }

/-- Both sides replace what they have for a key, under new versions. -/
theorem Sim.replace (hstamp : st.lastStamp < stamp) {version : UInt64} {row : ValueMessage}
    {files : String → Option (List UInt8)}
    (hkey : KeyRel ((m.versionCounter + 1, stamp) :: P) files entry version fence (some row))
    (hfiles : ∀ key' ≠ key, ∀ r value, st.rows key' = some r → r.valueType = .rawFile →
      st.files r.rawFilePath = some value → files r.rawFilePath = some value)
    (hnew : ∀ key' r, st.rows key' = some r → r.valueType = .rawFile → row.valueType = .rawFile →
      r.rawFilePath ≠ row.rawFilePath) :
    Sim
      { data := Function.update m.data key entry
        versions := Function.update m.versions key version
        fences := Function.update m.fences key fence
        versionCounter := m.versionCounter + 1 }
      { rows := Function.update st.rows key (some row)
        files := files
        lastStamp := stamp }
      ((m.versionCounter + 1, stamp) :: P) where
  matching := h.matching_issue hstamp
  zero := List.mem_cons_of_mem _ h.zero
  bound := h.bound_issue hstamp
  counter := (h.above hstamp).2
  -- The other keys see a longer matching and other files.
  keys key' := by
    by_cases hne : key' = key
    · subst hne
      simpa using hkey
    · simp only [Function.update_of_ne hne]
      exact ((h.keys key').mono (List.subset_cons_self _ _)).files (hfiles key' hne)
  files := by
    -- Old rows have different files, and the file of the new row is a new one.
    intro k k' r r' hk hk' htype htype' hpath
    by_cases hkey₁ : k = key
    · by_cases hkey₂ : k' = key
      · rw [hkey₁, hkey₂]
      · subst hkey₁
        simp only [Function.update_self, Option.some.injEq] at hk
        simp only [Function.update_of_ne hkey₂] at hk'
        subst hk
        exact absurd hpath.symm (hnew k' r' hk' htype' htype)
    · by_cases hkey₂ : k' = key
      · subst hkey₂
        simp only [Function.update_self, Option.some.injEq] at hk'
        simp only [Function.update_of_ne hkey₁] at hk
        subst hk'
        exact absurd hpath (hnew k r hk htype htype')
      · simp only [Function.update_of_ne hkey₁] at hk
        simp only [Function.update_of_ne hkey₂] at hk'
        exact h.files k k' r r' hk hk' htype htype' hpath

lemma sim_deleteIfVersion (now : Int64) (key : String) (hstamp : st.lastStamp < stamp)
    (he : (e, e') ∈ P) :
    Keeps P (m.deleteIfVersion now key e) (st.deleteIfVersion now key stamp e') := by
  obtain ⟨hsame, hcurrent⟩ := (h.admits now key he).2
  by_cases hadmits : Cas.deleteAdmits (casClassify now (st.rows key)).1
      (casClassify now (st.rows key)).2 e' = true
  · -- The delete leaves a tombstone with its stamp.
    have hcas : casAdmits (casClassify now (st.rows key)).1 (casClassify now (st.rows key)).2 e' = true ∧
        ((casClassify now (st.rows key)).1 = .absent → e' = 0) := by
      revert hadmits
      unfold Cas.deleteAdmits
      split
      · rename_i hstate
        intro hzero
        rw [hstate]
        exact ⟨rfl, fun _ => by simpa using hzero⟩
      · rename_i hstate
        exact fun hcas => ⟨hcas, fun habsent => absurd habsent hstate⟩
    have hmerged : st.merged key (casDeleteOperand stamp (carriedVersion now (st.rows key) e')) =
        tombstone stamp := by
      rw [Storage.merged, mergeRow_cas (by simp [isCas]),
        if_pos (h.applies (casDeleteOperand_casExpectedVersion _ _) hcas.1 (.inr hcas.2))]
      exact casResult_of_casDelete rfl
    have hversion : (tombstone stamp).version = stamp := rfl
    simp only [Cache.deleteIfVersion, Storage.deleteIfVersion, hsame, hadmits, if_true, hmerged,
      hversion]
    refine ⟨_, List.subset_cons_self _ _, h.replace hstamp ?_ ?_ ?_, .deleted⟩
    · exact .fenced rfl rfl List.mem_cons_self (h.stamp_ne_zero hstamp)
    · intro key' hne r value hrow htype hvalue
      rw [h.reclaim_other hne hrow htype, hvalue]
    · exact fun _ _ _ _ htype => by cases htype
  · simp only [Cache.deleteIfVersion, Storage.deleteIfVersion, hsame, hadmits]
    exact .same h (.mismatch hcurrent)

/-- A file that is written for one key is not the file of a row. -/
theorem Sim.path_ne (hpath : st.files path = none) (hrow : st.rows key = some r)
    (htype : r.valueType = .rawFile) : r.rawFilePath ≠ path := by
  rintro rfl
  obtain ⟨value, hvalue⟩ := h.file hrow htype
  exact absurd (hpath.symm.trans hvalue) nofun

end

variable (cfg : Store.Config)

lemma sim_putIfVersion (h : Sim m st P) (now : Int64) (key : String) (hstamp : st.lastStamp < stamp)
    (he : (e, e') ∈ P) (value : List UInt8) {deadline : Int64}
    (hdeadline : deadline = 0 ∨ tombstoneExpiry < deadline) (hpath : st.files path = none)
    (checksum : UInt32) :
    Keeps P (m.putIfVersion now key value deadline e)
      (st.putIfVersion now key stamp cfg value deadline e' path checksum) := by
  obtain ⟨hsame, hcurrent⟩ := (h.admits now key he).1
  by_cases hadmits : casAdmits (casClassify now (st.rows key)).1
      (casClassify now (st.rows key)).2 e' = true
  · -- The put leaves its operand as the row.
    have hmerged : ∀ payload, st.merged key
        (casPutOperand payload deadline stamp (carriedVersion now (st.rows key) e')) =
          adopt (casPutOperand payload deadline stamp (carriedVersion now (st.rows key) e')) := by
      intro payload
      rw [Storage.merged, mergeRow_cas (by simp [isCas]), if_pos
        (h.applies (casPutOperand_casExpectedVersion _ _ _ _) hadmits (.inl (casPutOperand_opType ..)))]
      simp [casResult]
    have hversion : ∀ payload, (adopt (casPutOperand payload deadline stamp
        (carriedVersion now (st.rows key) e'))).version = stamp := by
      intro payload
      simp [adopt]
    simp only [Cache.putIfVersion, Storage.putIfVersion, hsame, hadmits, if_true, hmerged, hversion]
    by_cases hsmall : value.length ≤ cfg.inlineThreshold
    · have hpayload : cfg.payload value path checksum = .inline value := if_pos hsmall
      simp only [hpayload]
      refine ⟨_, List.subset_cons_self _ _, h.replace hstamp ?_ ?_ ?_, .stored List.mem_cons_self⟩
      · exact .valued rfl rfl List.mem_cons_self (h.stamp_ne_zero hstamp) hdeadline rfl
      · intro key' hne r value' hrow htype hvalue'
        rw [h.reclaim_other hne hrow htype]
        exact hvalue'
      · exact fun _ _ _ _ htype => by cases htype
    · have hpayload : cfg.payload value path checksum =
          .rawFile path (Int64.ofNat value.length) checksum := if_neg hsmall
      simp only [hpayload]
      refine ⟨_, List.subset_cons_self _ _, h.replace hstamp ?_ ?_ ?_, .stored List.mem_cons_self⟩
      · -- The replaced file is another one, so the new file is still there.
        refine .valued rfl rfl List.mem_cons_self (h.stamp_ne_zero hstamp) hdeadline ?_
        refine (reclaim_of_ne fun r hrow htype => h.path_ne hpath hrow htype).trans ?_
        exact Function.update_self path (some value) st.files
      · intro key' hne r value' hrow htype hvalue'
        rw [h.reclaim_other hne hrow htype]
        exact (Function.update_of_ne (h.path_ne hpath hrow htype) _ _).trans hvalue'
      · exact fun key' r hrow htype _ => h.path_ne hpath hrow htype
  · simp only [Cache.putIfVersion, Storage.putIfVersion, hsame, hadmits]
    exact .same h (.mismatch hcurrent)

/-! ## Sequences -/

/-- What both sides have returned is matched. -/
theorem resolve_mem (h : (0, 0) ∈ P)
    (hreturned : List.Forall₂ (fun v v' => (v, v') ∈ P) returned returned') (expected : Expected) :
    (expected.resolve returned, expected.resolve returned') ∈ P := by
  cases expected with
  | zero => exact h
  | returned i =>
    simp only [Expected.resolve]
    induction hreturned generalizing i with
    | nil => simpa using h
    | cons hv _ ih =>
      cases i with
      | zero => simpa using hv
      | succ i => simpa using ih i

/-- A call on both sides. -/
theorem sim_onCache (h : Sim m st P)
    (hreturned : List.Forall₂ (fun v v' => (v, v') ∈ P) returned returned')
    (hgranted : c.granted st = true) :
    Keeps P (c.onCache m returned) (c.onStorage cfg st returned') := by
  simp only [Call.granted, Bool.and_eq_true, decide_eq_true_eq] at hgranted
  obtain ⟨hstamp, hrequest⟩ := hgranted
  unfold Call.onCache Call.onStorage
  cases hreq : c.request with
  | get => exact sim_getWithVersion h c.now c.key hstamp
  | put value deadline expected =>
    simp only [hreq, decide_eq_true_eq] at hrequest
    exact sim_putIfVersion cfg h c.now c.key hstamp (resolve_mem h.zero hreturned expected) value
      hrequest.1 hrequest.2.1 c.checksum
  | delete expected =>
    exact sim_deleteIfVersion h c.now c.key hstamp (resolve_mem h.zero hreturned expected)

/-- Two sessions with related states and related answers so far. -/
structure Sessions (s : Session Cache) (s' : Session Storage) (P : Pairs) : Prop where
  sim : Sim s.state s'.state P
  returned : List.Forall₂ (fun v v' => (v, v') ∈ P) s.returned s'.returned
  answers : List.Forall₂ (Related P) s.answers s'.answers

lemma Related.mono (hP : P ⊆ P') (h : Related P a b) : Related P' a b := by
  cases h with
  | found value h => exact .found value (hP h)
  | absent h => exact .absent (hP h)
  | stored h => exact .stored (hP h)
  | deleted => exact .deleted
  | mismatch h => exact .mismatch (hP h)

lemma Related.version (h : Related P a b) :
    List.Forall₂ (fun v v' => (v, v') ∈ P) a.version.toList b.version.toList := by
  cases h with
  | found value h | absent h | stored h => exact .cons h .nil
  | deleted => exact .nil
  | mismatch h => exact .cons h .nil

lemma Related.map_eq (hP : Matching P) (h : Related P a b) : a.map (translate P) = b := by
  cases h with
  | found value h => exact congrArg (Answer.found value) (hP.translate_eq h)
  | absent h => exact congrArg Answer.absent (hP.translate_eq h)
  | stored h => exact congrArg Answer.stored (hP.translate_eq h)
  | deleted => rfl
  | mismatch h => exact congrArg Answer.mismatch (hP.translate_eq h)

lemma Sessions.step (h : Sessions s s' P) (hgranted : c.granted s'.state = true) :
    ∃ P', Sessions (cacheStep s c) (storageStep cfg s' c) P' := by
  obtain ⟨P', hP, hsim, hanswer⟩ := sim_onCache cfg h.sim h.returned hgranted
  refine ⟨P', hsim, ?_, ?_⟩
  · exact List.rel_append (h.returned.imp fun _ _ hv => hP hv) hanswer.version
  · exact List.rel_append (h.answers.imp fun _ _ ha => ha.mono hP) (.cons hanswer .nil)

lemma sessions_run (h : Sessions s s' P) {cs : List Call}
    (hok : RunOk (storageStep cfg) (fun s c => c.granted s.state = true) s' cs) :
    ∃ P', Sessions (run cacheStep s cs) (run (storageStep cfg) s' cs) P' := by
  induction cs generalizing s s' P with
  | nil => exact ⟨P, h⟩
  | cons c cs ih =>
    obtain ⟨P', hP'⟩ := h.step cfg hok.1
    exact ih hP' hok.2

/-- The empty cache and the empty store. -/
def Session.cache : Session Cache := ⟨.new, [], []⟩

def Session.storage : Session Storage := ⟨.new, [], []⟩

/-- For every sequence of calls, the in-memory cache and the store give the same answers and the
same values. Versions are translated by a function that maps zero to zero and is an order
isomorphism between the versions that the two sides have returned. -/
theorem cache_simulates_storage (cfg : Store.Config) (cs : List Call)
    (h : RunOk (storageStep cfg) (fun s c => c.granted s.state = true) .storage cs) :
    ∃ f : UInt64 → UInt64, f 0 = 0 ∧
      Set.BijOn f {v | v = 0 ∨ v ∈ (run cacheStep .cache cs).returned}
        {v | v = 0 ∨ v ∈ (run (storageStep cfg) .storage cs).returned} ∧
      (∀ v w, (v = 0 ∨ v ∈ (run cacheStep .cache cs).returned) →
        (w = 0 ∨ w ∈ (run cacheStep .cache cs).returned) → (v < w ↔ f v < f w)) ∧
      (run (storageStep cfg) .storage cs).answers = (run cacheStep .cache cs).answers.map (Answer.map f) := by
  have hstart : Sessions .cache .storage [(0, 0)] := ⟨sim_new, .nil, .nil⟩
  obtain ⟨P, hP⟩ := sessions_run cfg hstart h
  generalize run cacheStep .cache cs = s at hP
  generalize run (storageStep cfg) .storage cs = s' at hP
  have hmatching := hP.sim.matching
  have hzero : translate P 0 = 0 := hmatching.translate_eq hP.sim.zero
  have hreturned : s.returned.map (translate P) = s'.returned := by
    rw [← List.forall₂_eq_eq_eq, List.forall₂_map_left_iff]
    exact hP.returned.imp fun _ _ hv => hmatching.translate_eq hv
  -- Every version of the cache has its partner in the matching.
  have hpair : ∀ v, (v = 0 ∨ v ∈ s.returned) → (v, translate P v) ∈ P := by
    rintro v (rfl | hv)
    · rw [hzero]
      exact hP.sim.zero
    · obtain ⟨i, hi, rfl⟩ := List.getElem_of_mem hv
      obtain ⟨hlen, hget⟩ := List.forall₂_iff_get.mp hP.returned
      have hmem := hget i hi (hlen ▸ hi)
      have htranslate : translate P s.returned[i] = _ := hmatching.translate_eq hmem
      rw [htranslate]
      exact hmem
  refine ⟨translate P, hzero, ⟨?_, ?_, ?_⟩, ?_, ?_⟩
  · rintro v (rfl | hv)
    · exact .inl hzero
    · exact .inr (hreturned ▸ List.mem_map_of_mem hv)
  · exact fun v hv w hw heq => (hmatching.eq_iff (hpair v hv) (hpair w hw)).mpr heq
  · rintro w (rfl | hw)
    · exact ⟨0, .inl rfl, hzero⟩
    · rw [← hreturned] at hw
      obtain ⟨v, hv, rfl⟩ := List.mem_map.mp hw
      exact ⟨v, .inr hv, rfl⟩
  · exact fun v w hv hw => hmatching.lt_iff (hpair v hv) (hpair w hw)
  · symm
    rw [← List.forall₂_eq_eq_eq, List.forall₂_map_left_iff]
    exact hP.answers.imp fun _ _ ha => ha.map_eq hmatching

/-- A value is stored in a raw file and expires. The absent key is deleted, a put with an older
token loses and one with the token of the last read wins. A delete of another key loses. -/
def expiringRun : List Call :=
  [⟨"k", .get, 10, 100, "", 0⟩,
    ⟨"k", .put [1, 2, 3] 20 (.returned 0), 11, 200, "f", 0⟩,
    ⟨"k", .get, 12, 300, "", 0⟩,
    ⟨"k", .get, 20, 301, "", 0⟩,
    ⟨"k", .delete .zero, 21, 400, "", 0⟩,
    ⟨"k", .put [4] 0 (.returned 0), 22, 500, "g", 0⟩,
    ⟨"k", .put [4] 0 (.returned 4), 23, 501, "g", 0⟩,
    ⟨"j", .delete (.returned 1), 24, 600, "", 0⟩]

theorem cache_simulates_storage_expiringRun :
    (run cacheStep .cache expiringRun).answers =
        [.absent 2, .stored 3, .found [1, 2, 3] 3, .absent 4, .deleted, .mismatch 5, .stored 6,
          .mismatch 0] ∧
      ∃ f : UInt64 → UInt64, f 0 = 0 ∧
        (run (storageStep ⟨2, 10⟩) .storage expiringRun).answers =
          (run cacheStep .cache expiringRun).answers.map (Answer.map f) := by
  obtain ⟨f, hzero, -, -, hanswers⟩ :=
    cache_simulates_storage ⟨2, 10⟩ expiringRun (by decide +kernel)
  exact ⟨by decide +kernel, f, hzero, hanswers⟩

end OCache.MemoryCache
