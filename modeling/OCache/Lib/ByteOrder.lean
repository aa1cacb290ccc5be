import Mathlib.Data.List.Lex
import Mathlib.Data.UInt

/-!
# Byte order

Keys of an ordered store are compared byte by byte. A key that embeds a fixed number of bytes in
front of others sorts by those bytes first.
-/

namespace ByteOrder

instance lawfulBEq_bytes : LawfulBEq (List UInt8) := inferInstance

variable {α : Type*} [LT α] {a b : List α}

lemma append_lt_append_left (front : List α) (h : a < b) : front ++ a < front ++ b :=
  List.Lex.append_left _ h front

lemma append_lt_append_left_iff [Std.Irrefl (α := α) (· < ·)] {front : List α} :
    front ++ a < front ++ b ↔ a < b := by
  induction front with
  | nil => rfl
  | cons x front ih => simp [ih]

/-- Of two fronts of one length the smaller decides, whatever follows. -/
theorem append_lt_append_of_lt (h : a < b) (hlen : a.length = b.length) (x y : List α) :
    a ++ x < b ++ y := by
  induction h with
  | nil => simp at hlen
  | rel hlt => exact .rel hlt
  | cons _ ih => exact .cons (ih (by simpa using hlen))

end ByteOrder
