import Mathlib

/-!
# Files that are written through a cursor

A file is its bytes. A descriptor adds the position at which the next write lands; writing behind
the end of the file fills the gap with zeros. A write may fail after some of its bytes, and any
other call may fail and do nothing.
-/

/-- The bytes of a file and the cursor of an open descriptor. -/
structure DiskFile where
  /-- The contents of the file. -/
  bytes : List UInt8
  /-- Where the next write lands. -/
  cursor : Nat
deriving DecidableEq

namespace DiskFile

/-- The bytes of the file with `b` written over them from a position on. -/
def overwrite (bytes : List UInt8) (pos : Nat) (b : List UInt8) : List UInt8 :=
  if b = [] then bytes
  else bytes.take pos ++ List.replicate (pos - bytes.length) 0 ++ b ++ bytes.drop (pos + b.length)

variable (f : DiskFile)

/-- Write at the cursor and move it. -/
def put (b : List UInt8) : DiskFile where
  bytes := overwrite f.bytes f.cursor b
  cursor := f.cursor + b.length

/-- Write at the cursor. With a fault the write fails after that many bytes. -/
def write (b : List UInt8) : Option Nat → DiskFile × Bool
  | none => (f.put b, true)
  | some n => (f.put (b.take n), false)

/-- Set the length of the file. The cursor stays. -/
def truncate (n : Nat) : DiskFile where
  bytes := f.bytes.take n ++ List.replicate (n - f.bytes.length) 0
  cursor := f.cursor

/-- Move the cursor. -/
def seek (pos : Nat) : DiskFile := { f with cursor := pos }

/-- Up to `n` bytes from a position on. -/
def readAt (bytes : List UInt8) (pos n : Nat) : List UInt8 := (bytes.drop pos).take n

@[simp] lemma cursor_put (b : List UInt8) : (f.put b).cursor = f.cursor + b.length := rfl

lemma overwrite_append (used tail b : List UInt8) :
    overwrite (used ++ tail) used.length b = used ++ (b ++ tail.drop b.length) := by
  rw [overwrite]
  split
  · next h => simp [h]
  · simp [List.drop_append]

lemma bytes_put_append (used tail b : List UInt8) :
    (put ⟨used ++ tail, used.length⟩ b).bytes = used ++ (b ++ tail.drop b.length) :=
  overwrite_append used tail b

lemma bytes_truncate_append (used tail : List UInt8) (cursor : Nat) :
    (truncate ⟨used ++ tail, cursor⟩ used.length).bytes = used := by
  simp [truncate]

/-- Two writes in a row are one. -/
theorem put_put_append (used tail a b : List UInt8) :
    (put (put ⟨used ++ tail, used.length⟩ a) b).bytes =
      used ++ (a ++ b ++ tail.drop (a.length + b.length)) := by
  have hcursor : used.length + a.length = (used ++ a).length := by simp
  have hfirst : put ⟨used ++ tail, used.length⟩ a =
      ⟨(used ++ a) ++ tail.drop a.length, (used ++ a).length⟩ := by
    rw [← hcursor, List.append_assoc, ← bytes_put_append]
    rfl
  rw [hfirst, bytes_put_append]
  simp [List.drop_drop]

@[simp] lemma readAt_append (used rest : List UInt8) (n : Nat) :
    readAt (used ++ rest) used.length n = rest.take n := by
  simp [readAt]

lemma readAt_append_add (used rest : List UInt8) (k n : Nat) :
    readAt (used ++ rest) (used.length + k) n = readAt rest k n := by
  rw [readAt, ← List.drop_drop, List.drop_left, readAt]

end DiskFile
