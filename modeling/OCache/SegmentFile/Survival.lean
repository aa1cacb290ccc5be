import OCache.SegmentFile.Operations

/-!
# Written entries survive failures and restarts

The file of a segment is the row of entries that were written, followed by bytes in which the
iterator finds no entry. Two things can break this. A rollback or a `Finalize` that fails leaves the
cursor, the size or a footer where the next entry does not expect them, and nothing stops the
process from writing it; and the bytes such a failure leaves behind may read as an entry: a header
whose value was not copied, or a footer whose value count has a one where a header has its version.
-/

namespace OCache.SegmentFile

open DiskFile EventSystem

/-! ## The property -/

/-- The iterator yields exactly the entries whose `WriteEntry` returned success, in the order they
were written and at the offsets that were returned, and their values read back. -/
structure Survives (s : State) : Prop where
  yielded : (iterate s.bytes).map (fun e => (e.key, e.offset, e.valueLength)) =
    s.log.map fun w => (w.key, w.offset, w.value.length)
  values : ∀ w ∈ s.log, readEntry s.bytes w.key w.offset w.value.length = some w.value

/-- A failing `Finalize` leaves no footer that reads as a header: the footer was not written as far
as the version of a header goes, it is no header, or the iterator does not look at it because the
file ends there. -/
def footerHarmless (bytes : List UInt8) (seg : Segment) (faults : FinalizeFaults) : Bool :=
  (faults.footer.isNone && !faults.truncate) || faults.footer.any (· < valueHeaderSize) ||
    !(readValueHeaderAt seg.footer 0).isOk || bytes.length ≤ seg.size + segmentFooterSize

/-- An open segment is written only if no rollback and no `Finalize` of the process has failed. A
rollback's `Truncate` fails only if the write it undoes stopped inside the fixed part of the header,
and a failing `Finalize` leaves no footer that reads as a header. -/
def keeps (s : State) : Event → Bool
  | .writeEntry _ faults => s.seg.all fun seg => seg.file.isNone ||
      (!s.torn && (!faults.truncate || faults.header.any (· < valueHeaderSize)))
  | .finalize faults => s.seg.all fun seg => seg.file.isNone ||
      (!s.torn && footerHarmless s.bytes seg faults)
  | .restart _ _ => true

/-! ## The invariant -/

/-- An open segment that can be written: cursor and size are at the end of the entries, and behind
them is nothing but what was preallocated. -/
structure Settled (bytes : List UInt8) (log : List Written) (seg : Segment) : Prop where
  file : seg.file = some (encodeAll log).length
  size : seg.size = (encodeAll log).length
  tail : ∃ tail, bytes = encodeAll log ++ tail ∧ ∀ x ∈ tail, x = 0

/-- The file is the entries and unread bytes; an open segment is settled until a rollback or a
`Finalize` fails. -/
structure Inv (s : State) : Prop where
  placed : Placed 0 s.log
  contents : ∃ tail, s.bytes = encodeAll s.log ++ tail ∧ Unread tail
  settled : ∀ seg, s.seg = some seg → seg.file ≠ none → s.torn = false → Settled s.bytes s.log seg

variable {s : State} {log : List Written} {seg : Segment} {tail : List UInt8}
  {faults : FinalizeFaults}

lemma Inv.survives (h : Inv s) : Survives s := by
  obtain ⟨tail, hbytes, htail⟩ := h.contents
  constructor
  · rw [hbytes, iterate_encode h.placed htail, List.map_map]
    rfl
  · intro w hw
    rw [hbytes, readEntry_encodeAll h.placed hw]

lemma inv_init (segmentSize : Nat) : Inv (init segmentSize) where
  placed := trivial
  contents := ⟨_, rfl, unread_of_zero fun _ hx => List.eq_of_mem_replicate hx⟩
  settled := by
    rintro seg hseg - -
    cases hseg
    exact ⟨rfl, rfl, _, rfl, fun _ hx => List.eq_of_mem_replicate hx⟩

section Constructors

variable {bytes : List UInt8} {log : List Written} {seg : Segment}

lemma inv_of_settled (hplaced : Placed 0 log) (h : Settled bytes log seg) (torn : Bool) :
    Inv ⟨bytes, some seg, log, torn⟩ where
  placed := hplaced
  contents := by
    obtain ⟨tail, hbytes, htail⟩ := h.tail
    exact ⟨tail, hbytes, unread_of_zero htail⟩
  settled := by
    rintro seg' hseg - -
    cases hseg
    exact h

/-- After a failure, and for a closed segment, only the contents of the file matter. -/
theorem inv_of_unread {oseg : Option Segment} {torn : Bool} {tail : List UInt8}
    (hplaced : Placed 0 log) (htail : Unread tail)
    (h : ∀ seg, oseg = some seg → seg.file = none ∨ torn = true) :
    Inv ⟨encodeAll log ++ tail, oseg, log, torn⟩ where
  placed := hplaced
  contents := ⟨tail, rfl, htail⟩
  settled := by
    rintro seg hseg hfile htorn
    obtain hnone | htrue := h seg hseg
    · exact absurd hnone hfile
    · rw [htrue] at htorn
      cases htorn

end Constructors

/-! ## `WriteEntry` -/

/-- The header a call writes. -/
def Call.header (c : Call) : List UInt8 :=
  buildValueHeader c.key c.vm.valueLength c.vm.checksum currentValueHeaderVersion

/-- What `WriteEntry` can do to a settled segment whose entries are `used`. -/
inductive WriteOutcome (s : Segment) (used tail : List UInt8) (c : Call) (faults : WriteFaults) :
    Outcome (Except WriteError Nat) → Prop where
  | refused : WriteOutcome s used tail c faults ⟨.error .invalidValueType, s, used ++ tail⟩
  | wrote (seg : Segment) (hlength : (c.source.data.length : Int) = c.vm.valueLength.toInt)
      (hsize : seg.size = used.length + (c.header ++ c.source.data).length)
      (hfile : seg.file = some seg.size) :
      WriteOutcome s used tail c faults ⟨.ok used.length, seg,
        used ++ (c.header ++ c.source.data ++ tail.drop (c.header ++ c.source.data).length)⟩
  | undone (seg : Segment) (e : WriteError) (he : rollbackFailed (.error e) = false)
      (hsize : seg.size = used.length) (hfile : seg.file = some used.length) :
      WriteOutcome s used tail c faults ⟨.error e, seg, used⟩
  | seekFailed (seg : Segment) :
      WriteOutcome s used tail c faults ⟨.error .rollbackSeek, seg, used⟩
  | truncateFailed (seg : Segment) (written : List UInt8) (hfault : faults.truncate = true)
      (hwritten : ∀ n, faults.header = some n → written = c.header.take n) :
      WriteOutcome s used tail c faults ⟨.error .rollbackTruncate, seg,
        used ++ (written ++ tail.drop written.length)⟩

section WriteEntry

variable {s : Segment} {used tail : List UInt8} {c : Call} {faults : WriteFaults}

lemma writeOutcome_fail {f : DiskFile} {e : WriteError} {written : List UInt8}
    (hsize : s.size = used.length) (he : rollbackFailed (.error e) = false)
    (hf : f.bytes = used ++ (written ++ tail.drop written.length))
    (hwritten : ∀ n, faults.header = some n → written = c.header.take n) :
    WriteOutcome s used tail c faults (s.fail faults f e) := by
  have htruncate : (f.truncate used.length).bytes = used := by
    obtain ⟨bytes, cursor⟩ := f
    subst hf
    exact bytes_truncate_append _ _ _
  rw [Segment.fail, rollback, hsize]
  by_cases hfault : faults.truncate = true
  · rw [if_pos hfault]
    simp only [hf]
    exact .truncateFailed _ _ hfault hwritten
  · rw [if_neg hfault]
    by_cases hseek : faults.seek = true
    · rw [if_pos hseek]
      simp only [htruncate]
      exact .seekFailed _
    · rw [if_neg hseek]
      simp only [seek, htruncate]
      exact .undone _ e he rfl rfl

lemma writeEntry_outcome (hsize : s.size = used.length) (hfile : s.file = some used.length) :
    WriteOutcome s used tail c faults (s.writeEntry (used ++ tail) c faults) := by
  rw [Segment.writeEntry]
  by_cases htype : c.vm.valueType ≠ .rawFile ∧ c.vm.valueType ≠ .segment
  · rw [if_pos htype]
    exact .refused
  rw [if_neg htype, hfile]
  cases hheader : faults.header with
  | some n =>
    refine writeOutcome_fail hsize rfl (bytes_put_append used tail _) ?_
    rintro m hm
    rw [hheader] at hm
    cases hm
    rfl
  | none =>
    -- From here on the whole header is in the file.
    have hnone : ∀ (written : List UInt8) (n : Nat), faults.header = some n →
        written = c.header.take n := by
      intro written n hn
      rw [hheader] at hn
      cases hn
    have hbytes : ∀ b, (put (put ⟨used ++ tail, used.length⟩ c.header) b).bytes =
        used ++ (c.header ++ b ++ tail.drop (c.header ++ b).length) := by
      intro b
      rw [put_put_append, List.length_append]
    cases hvalue : faults.value with
    | some n => exact writeOutcome_fail hsize rfl (hbytes _) (hnone _)
    | none =>
      cases hfails : c.source.fails with
      | true =>
        simp only [DiskFile.write, copyBuffer, hfails, Bool.not_true, Bool.and_false]
        exact writeOutcome_fail hsize rfl (hbytes _) (hnone _)
      | false =>
        simp only [DiskFile.write, copyBuffer, hfails, Bool.not_false, Bool.and_true]
        split
        · exact writeOutcome_fail hsize rfl (hbytes _) (hnone _)
        · next hlength =>
          have hcopied : (c.source.data.length : Int) = c.vm.valueLength.toInt := by
            simpa using hlength
          rw [← Call.header, hbytes, hsize]
          refine .wrote _ hcopied ?_ ?_
          · rw [← hcopied, List.length_append, Call.header, length_buildValueHeader]
            simp
          · rw [← hcopied, cursor_put, cursor_put, Call.header, length_buildValueHeader]
            simp [Nat.add_assoc]

end WriteEntry

/-- The bytes a successful call appends are those of the entry it is recorded as. -/
theorem encode_written (c : Call) (offset : Nat)
    (h : (c.source.data.length : Int) = c.vm.valueLength.toInt) :
    (c.written offset h).encode = c.header ++ c.source.data := by
  have hlength : Int64.ofNat c.source.data.length = c.vm.valueLength := by
    rw [← Int64.ofInt_toInt c.vm.valueLength, ← h, Int64.ofInt_eq_ofNat]
  rw [Written.encode, Call.header, ← hlength]
  rfl

lemma inv_of_writeOutcome {c : Call} {faults : WriteFaults} {o : Outcome (Except WriteError Nat)}
    (hplaced : Placed 0 log) (hsettled : Settled (encodeAll log ++ tail) log seg)
    (hzero : ∀ x ∈ tail, x = 0)
    (hkeeps : faults.truncate = true → ∃ n, faults.header = some n ∧ n < valueHeaderSize)
    (h : WriteOutcome seg (encodeAll log) tail c faults o) :
    Inv ⟨o.bytes, some o.seg, log ++ c.record o.result, rollbackFailed o.result⟩ := by
  have hdrop : ∀ n, ∀ x ∈ tail.drop n, x = 0 := fun n x hx => hzero x (List.mem_of_mem_drop hx)
  cases h with
  | refused =>
    rw [Call.record, List.append_nil]
    exact inv_of_settled hplaced hsettled _
  | wrote seg' hlength hsize hfile =>
    rw [Call.record, dif_pos hlength]
    have hencode := encode_written c (encodeAll log).length hlength
    have hall : encodeAll (log ++ [c.written (encodeAll log).length hlength]) =
        encodeAll log ++ (c.header ++ c.source.data) := by
      rw [encodeAll_append, encodeAll_cons, hencode, encodeAll_nil, List.append_nil]
    have hend : seg'.size =
        (encodeAll (log ++ [c.written (encodeAll log).length hlength])).length := by
      rw [hsize, hall]
      simp only [List.length_append]
    have hplaced' : Placed 0 (log ++ [c.written (encodeAll log).length hlength]) := by
      refine placed_append.mpr ⟨hplaced, ?_⟩
      rw [Nat.zero_add]
      exact ⟨rfl, trivial⟩
    refine inv_of_settled hplaced' ⟨?_, hend, _, ?_, hdrop (c.header ++ c.source.data).length⟩ _
    · rw [hfile, hend]
    · rw [hall, List.append_assoc (encodeAll log)]
  | undone seg' e he hsize hfile =>
    rw [Call.record, List.append_nil]
    exact inv_of_settled hplaced ⟨hfile, hsize, [], by simp⟩ _
  | seekFailed seg' =>
    rw [Call.record, List.append_nil, ← List.append_nil (encodeAll log)]
    exact inv_of_unread hplaced (.inl (by simp)) fun _ _ => .inr rfl
  | truncateFailed seg' written hfault hwritten =>
    -- The write stopped before it reached the low byte of the version.
    obtain ⟨n, hheader, hn⟩ := hkeeps hfault
    rw [Call.record, List.append_nil]
    refine inv_of_unread hplaced ?_ fun _ _ => .inr rfl
    rw [hwritten n hheader]
    exact unread_take_append hn (hdrop _)

/-- A closed segment is not written. -/
theorem writeEntry_of_closed (hfile : seg.file = none) (bytes : List UInt8) (c : Call)
    (faults : WriteFaults) :
    ∃ e, rollbackFailed (.error e) = false ∧
      seg.writeEntry bytes c faults = ⟨.error e, seg, bytes⟩ := by
  rw [Segment.writeEntry]
  split
  · exact ⟨.invalidValueType, rfl, rfl⟩
  · rw [hfile]
    exact ⟨.segmentClosed, rfl, rfl⟩

lemma inv_writeEntry (h : Inv s) {c : Call} {faults : WriteFaults}
    (hok : keeps s (.writeEntry c faults) = true) : Inv (step s (.writeEntry c faults)) := by
  obtain ⟨bytes, oseg, log, torn⟩ := s
  cases oseg with
  | none => exact h
  | some seg =>
    cases hfile : seg.file with
    | none =>
      obtain ⟨e, he, hclosed⟩ := writeEntry_of_closed hfile bytes c faults
      rw [step]
      simp only [hclosed, he, Call.record, List.append_nil, Bool.or_false]
      exact h
    | some cursor =>
      simp only [keeps, Option.all_some, hfile, Option.isNone_some, Bool.false_or, Bool.and_eq_true,
        Bool.not_eq_true', Bool.or_eq_true] at hok
      obtain ⟨htorn, hkeeps⟩ := hok
      subst htorn
      have hsettled := h.settled seg rfl (by simp [hfile]) rfl
      obtain ⟨tail, hbytes, hzero⟩ := hsettled.tail
      simp only at hbytes
      subst hbytes
      refine inv_of_writeOutcome h.placed hsettled hzero ?_
        (writeEntry_outcome hsettled.size hsettled.file)
      intro hfault
      rw [hfault] at hkeeps
      simpa [Option.any_eq_true] using hkeeps

/-! ## `Finalize` -/

/-- What `footerHarmless` is for: as much of the footer as stays in the middle of the file is not
read. -/
theorem unread_of_footerHarmless {used : List UInt8} (hsize : seg.size = used.length)
    (hzero : ∀ x ∈ tail, x = 0) (h : footerHarmless (used ++ tail) seg faults = true) {n : Nat}
    (hn : faults.footer = some n ∨
      faults.footer = none ∧ faults.truncate = true ∧ n = segmentFooterSize) :
    Unread (seg.footer.take n ++ tail.drop (seg.footer.take n).length) := by
  refine unread_take_footer (length_buildSegmentFooter _ _ _) hzero ?_
  simp only [footerHarmless, Bool.or_eq_true, Bool.and_eq_true, Option.isNone_iff_eq_none,
    Bool.not_eq_true', Option.any_eq_true, decide_eq_true_eq] at h
  obtain ((⟨hnone, htruncate⟩ | ⟨m, hm, hlt⟩) | hheader) | hlength := h
  · obtain hsome | ⟨-, hfault, -⟩ := hn
    · simp [hnone] at hsome
    · simp [htruncate] at hfault
  · obtain hsome | ⟨hnone, -, -⟩ := hn
    · rw [hm] at hsome
      cases hsome
      exact .inl hlt
    · simp [hnone] at hm
  · cases hread : readValueHeaderAt seg.footer 0 with
    | error e => exact .inr (.inl ⟨e, rfl⟩)
    | ok header => simp [hread, Except.isOk, Except.toBool] at hheader
  · refine .inr (.inr ?_)
    rw [List.length_append, hsize] at hlength
    omega

/-- `Finalize` of a settled segment leaves the entries and bytes that are not read. -/
theorem finalize_settled {o : Outcome (Except FinalizeError Unit)}
    (hsettled : Settled (encodeAll log ++ tail) log seg) (hzero : ∀ x ∈ tail, x = 0)
    (hharmless : footerHarmless (encodeAll log ++ tail) seg faults = true)
    (ho : seg.finalize (encodeAll log ++ tail) faults = o) :
    ∃ rest, o.bytes = encodeAll log ++ rest ∧ Unread rest ∧
      (o.seg.file = none ∨ o.result.isOk = false) := by
  have hfooter : seg.footer.length = segmentFooterSize := length_buildSegmentFooter _ _ _
  have hunread := @unread_of_footerHarmless _ _ _ _ hsettled.size hzero hharmless
  -- Cut off behind the footer, the file has no more than a footer behind its entries.
  have htruncate : (truncate (put ⟨encodeAll log ++ tail, (encodeAll log).length⟩ seg.footer)
      (seg.size + seg.footer.length)).bytes = encodeAll log ++ seg.footer := by
    have hput := bytes_put_append (encodeAll log) tail seg.footer
    rw [← List.append_assoc] at hput
    rw [hsettled.size, ← List.length_append, truncate, hput, List.take_left]
    simp
  rw [Segment.finalize, hsettled.file] at ho
  cases hfault : faults.footer with
  | some n =>
    rw [hfault] at ho
    subst ho
    exact ⟨_, bytes_put_append _ _ _, hunread (.inl hfault), .inr rfl⟩
  | none =>
    rw [hfault] at ho
    simp only [DiskFile.write] at ho
    split at ho
    · next hfails =>
      subst ho
      have hrest := hunread (.inr ⟨hfault, hfails, rfl⟩)
      rw [← hfooter, List.take_length] at hrest
      exact ⟨_, bytes_put_append (encodeAll log) tail seg.footer, hrest, .inr rfl⟩
    · split at ho
      · subst ho
        exact ⟨_, htruncate, .inl hfooter.le, .inr rfl⟩
      · subst ho
        exact ⟨_, htruncate, .inl hfooter.le, .inl rfl⟩

lemma inv_finalize (h : Inv s) (hok : keeps s (.finalize faults) = true) :
    Inv (step s (.finalize faults)) := by
  obtain ⟨bytes, oseg, log, torn⟩ := s
  cases oseg with
  | none => exact h
  | some seg =>
    cases hfile : seg.file with
    | none =>
      simp only [step, Segment.finalize, hfile, Except.isOk, Except.toBool, Bool.not_true,
        Bool.or_false]
      exact h
    | some cursor =>
      simp only [keeps, Option.all_some, hfile, Option.isNone_some, Bool.false_or, Bool.and_eq_true,
        Bool.not_eq_true'] at hok
      obtain ⟨htorn, hharmless⟩ := hok
      subst htorn
      have hsettled := h.settled seg rfl (by simp [hfile]) rfl
      obtain ⟨tail, hbytes, hzero⟩ := hsettled.tail
      simp only at hbytes
      subst hbytes
      obtain ⟨rest, hrest, hunread, hclosed⟩ := finalize_settled hsettled hzero hharmless rfl
      simp only [step, hrest, Bool.false_or]
      refine inv_of_unread h.placed hunread ?_
      rintro seg' hseg
      cases hseg
      simpa using hclosed

/-! ## Restarts -/

lemma scanOpen_encode (tail : List UInt8) (h : Unread tail) :
    ∀ (ws : List Written) (used : List UInt8) (fuel : Nat) (entries : UInt32) (dataBytes : Int64),
      Placed used.length ws → ws.length < fuel →
        (scanOpen (used ++ (encodeAll ws ++ tail)) fuel used.length entries dataBytes).1 =
          used.length + (encodeAll ws).length
  | [], used, fuel + 1, entries, dataBytes, _, _ => by
    obtain ⟨e, he⟩ := next_of_unread used h
    simp [scanOpen, he]
  | w :: ws, used, fuel + 1, entries, dataBytes, hplaced, hfuel => by
    obtain ⟨hoffset, hrest⟩ := hplaced
    have hnext := next_encode used (encodeAll ws ++ tail) w hoffset
    have hrest' : Placed (used ++ w.encode).length ws := by rwa [List.length_append]
    have hvalue := readAt_encode used (encodeAll ws ++ tail) w
    have hsize : w.value.length ≠ 0 := by
      have := w.two_le_length
      omega
    have hkey := w.key_ne_nil
    have hfits : ¬(used ++ (w.encode ++ (encodeAll ws ++ tail))).length <
        used.length + (w.info.headerSize + w.info.valueLength) := by
      simp [Written.info]
    -- The checksum was not computed or is that of the value.
    have hsum : ¬(w.info.checksum ≠ 0 ∧
        crc32 (readAt (used ++ (w.encode ++ (encodeAll ws ++ tail)))
          (used.length + w.info.headerSize) w.info.valueLength) ≠ w.info.checksum) := by
      show ¬(w.checksum ≠ 0 ∧ crc32 (readAt _ (used.length + calculateValueHeaderSize w.key)
        w.value.length) ≠ w.checksum)
      rw [hvalue]
      obtain hzero | hcrc := w.checksum_ok
      · exact fun hne => hne.1 hzero
      · exact fun hne => hne.2 hcrc.symm
    have ih := scanOpen_encode tail h ws (used ++ w.encode) fuel (entries + 1)
      (dataBytes + .ofNat w.value.length) hrest' (Nat.lt_of_succ_lt_succ hfuel)
    rw [List.append_assoc, List.length_append] at ih
    rw [encodeAll_cons, List.append_assoc, scanOpen, hnext]
    simp only
    rw [if_neg (by simp [Written.info, hsize, hkey]), if_neg hfits, if_neg hsum]
    rw [show w.info.valueLength = w.value.length from rfl, ih, List.length_append]
    omega

/-- What loading leaves of a file of entries: the entries and an unread rest, and a segment that is
closed or settled, if the process started. -/
structure Loaded (log : List Written) (r : Option Segment × List UInt8) : Prop where
  contents : ∃ rest, r.2 = encodeAll log ++ rest ∧ Unread rest
  settled : ∀ seg, r.1 = some seg → seg.file ≠ none → Settled r.2 log seg

lemma loaded_of_closed {oseg : Option Segment} {rest : List UInt8} (hrest : Unread rest)
    (h : ∀ seg, oseg = some seg → seg.file = none) : Loaded log (oseg, encodeAll log ++ rest) where
  contents := ⟨rest, rfl, hrest⟩
  settled := fun seg hseg hfile => absurd (h seg hseg) hfile

lemma loaded_of_settled (h : Settled (encodeAll log) log seg) :
    Loaded log (some seg, encodeAll log) where
  contents := ⟨[], (List.append_nil _).symm, .inl (by simp)⟩
  settled := by
    rintro seg' hseg -
    cases hseg
    exact h

/-- `validateOpenSegment` cuts the file off behind the entries, or fails. -/
theorem validateOpenSegment_encode (hplaced : Placed 0 log) (htail : Unread tail)
    (faults : LoadFaults) :
    (∃ rest, Unread rest ∧
      validateOpenSegment (encodeAll log ++ tail) faults = (none, encodeAll log ++ rest)) ∨
    ∃ seg, Settled (encodeAll log) log seg ∧
      validateOpenSegment (encodeAll log ++ tail) faults = (some seg, encodeAll log) := by
  have hfuel : log.length < (encodeAll log ++ tail).length + 1 := by
    have := length_le_encodeAll log
    rw [List.length_append]
    omega
  have hscan := scanOpen_encode tail htail log [] _ 0 0 hplaced hfuel
  simp only [List.nil_append, List.length_nil, Nat.zero_add] at hscan
  have htruncate := bytes_truncate_append (encodeAll log) tail 0
  rw [validateOpenSegment]
  generalize scanOpen (encodeAll log ++ tail) ((encodeAll log ++ tail).length + 1) 0 0 0 = scanned
    at hscan
  obtain ⟨lastValidPos, entries, dataBytes⟩ := scanned
  simp only at hscan
  subst hscan
  simp only [htruncate]
  split_ifs
  · exact .inl ⟨tail, htail, rfl⟩
  · exact .inl ⟨tail, htail, rfl⟩
  · exact .inl ⟨[], .inl (by simp), by simp⟩
  · exact .inr ⟨_, ⟨rfl, rfl, [], by simp⟩, rfl⟩

/-- Loading finalizes a segment that was just cut off: behind its entries there is no more than a
footer, whatever fails. -/
theorem loaded_finalize (h : Settled (encodeAll log) log seg) (faults : FinalizeFaults) :
    Loaded log (match seg.finalize (encodeAll log) faults with
      | ⟨.ok _, seg, bytes⟩ => (some seg, bytes)
      | ⟨.error _, _, bytes⟩ => (none, bytes)) := by
  have hharmless : footerHarmless (encodeAll log ++ []) seg faults = true := by
    simp [footerHarmless, h.size]
  have hsettled : Settled (encodeAll log ++ []) log seg := by rwa [List.append_nil]
  obtain ⟨rest, hbytes, hrest, hclosed⟩ := finalize_settled hsettled (by simp) hharmless rfl
  rw [List.append_nil] at hbytes hclosed
  generalize seg.finalize (encodeAll log) faults = o at hbytes hclosed
  obtain ⟨result, seg', bytes⟩ := o
  simp only at hbytes hclosed
  subst hbytes
  cases result with
  | error e => exact loaded_of_closed hrest (by simp)
  | ok u =>
    refine loaded_of_closed hrest ?_
    rintro seg hseg
    cases hseg
    simpa [Except.isOk, Except.toBool] using hclosed

lemma loadSegment_encode (hplaced : Placed 0 log) (htail : Unread tail) (older : Bool)
    (faults : LoadFaults) : Loaded log (loadSegment (encodeAll log ++ tail) older faults) := by
  unfold loadSegment
  split
  · -- The file ends in a footer, or in a value that looks like one: it is closed as it is.
    refine loaded_of_closed htail ?_
    rintro seg hseg
    cases hseg
    rfl
  · obtain ⟨rest, hrest, hvalidate⟩ | ⟨seg, hsettled, hvalidate⟩ :=
      validateOpenSegment_encode hplaced htail faults
    · simp only [hvalidate]
      exact loaded_of_closed hrest (by simp)
    · simp only [hvalidate]
      cases older with
      | false => exact loaded_of_settled hsettled
      | true => exact loaded_finalize hsettled faults.finalize

lemma inv_restart (h : Inv s) (older : Bool) (faults : LoadFaults) :
    Inv (step s (.restart older faults)) := by
  obtain ⟨bytes, oseg, log, torn⟩ := s
  obtain ⟨tail, hbytes, htail⟩ := h.contents
  simp only at hbytes
  subst hbytes
  have hloaded := loadSegment_encode h.placed htail older faults
  exact ⟨h.placed, hloaded.contents, fun seg hseg hfile _ => hloaded.settled seg hseg hfile⟩

/-! ## Runs -/

lemma inv_step {e : Event} (h : Inv s) (hok : keeps s e = true) : Inv (step s e) := by
  cases e with
  | writeEntry c faults => exact inv_writeEntry h hok
  | finalize faults => exact inv_finalize h hok
  | restart older faults => exact inv_restart h older faults

/-- In every run in which no open segment is written after a rollback or a `Finalize` has failed in
the process, and a failure leaves no bytes that read as a header, the entries survive. -/
theorem survives_of_keeps (segmentSize : Nat) (es : List Event)
    (h : RunOk step (fun s e => keeps s e = true) (init segmentSize) es) :
    Survives (run step (init segmentSize) es) := by
  have hinv : Inv (run step (init segmentSize) es) :=
    invariant_run (I := Inv) (fun _ _ hI hok => inv_step hI hok) (inv_init segmentSize) h
  exact hinv.survives

/-- Two values of two bytes, without checksums. -/
def callA : Call where
  key := [97]
  source := { data := [1, 2] }
  vm := { valueType := .rawFile, valueLength := 2 }

def callB : Call where
  key := [98]
  source := { data := [3, 4] }
  vm := { valueType := .rawFile, valueLength := 2 }

/-- `Finalize` fails in its `Sync`, and the next entry is written behind the footer. -/
def writeBehindFooter : List Event :=
  [.writeEntry callA {}, .finalize { sync := true }, .writeEntry callB {}]

/-- `Finalize` fails after three bytes of the footer, and the next entry is written behind them. -/
def writeBehindPart : List Event :=
  [.writeEntry callA {}, .finalize { footer := some 3 }, .writeEntry callB {}]

/-- The `Seek` of a rollback fails, and the next entry is written behind a hole. -/
def writeBehindHole : List Event :=
  [.writeEntry callA { value := some 1, seek := true }, .writeEntry callB {}]

/-- The `Truncate` of a rollback fails, and a restart takes what is left for an entry. -/
def reloadPart : List Event :=
  [.writeEntry callA { value := some 1, truncate := true }, .restart false {}]

/-- A failed write, a failed `Finalize` and a restart that finalizes the segment. -/
def failuresRun : List Event :=
  [.writeEntry callA {}, .writeEntry callB { header := some 5 }, .writeEntry callB {},
    .finalize { footer := some 4 }, .restart false {}, .writeEntry callA {},
    .finalize { sync := true }, .restart true {}]

/-- Entries are lost behind a footer, behind a part of one and behind a hole, and a write that
failed is yielded after a restart. -/
theorem failed_finalize_loses_entry :
    ¬Survives (run step (init 64) writeBehindFooter) ∧
      ¬Survives (run step (init 64) writeBehindPart) ∧
        ¬Survives (run step (init 64) writeBehindHole) ∧
          ¬Survives (run step (init 64) reloadPart) := by
  refine ⟨fun h => ?_, fun h => ?_, fun h => ?_, fun h => ?_⟩
  all_goals exact absurd h.yielded (by decide +kernel)

theorem survives_of_keeps_failuresRun :
    RunOk step (fun s e => keeps s e = true) (init 64) failuresRun ∧
      Survives (run step (init 64) failuresRun) := by
  have hok : RunOk step (fun s e => keeps s e = true) (init 64) failuresRun := by decide +kernel
  exact ⟨hok, survives_of_keeps 64 failuresRun hok⟩

end OCache.SegmentFile
