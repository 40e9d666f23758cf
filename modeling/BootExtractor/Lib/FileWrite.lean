import Mathlib.Data.List.Infix
import BootExtractor.Lib.Bytes

/-!
# Writes into a file

A write replaces the bytes at its offset and extends the file where it ends behind it; a
gap in front of it reads as zeroes. A file that holds a prefix of some data still does
after a write of the data's own bytes that leaves no gap.
-/

namespace Bytes

/-- `pwrite`: the bytes of a file after a write. -/
def writeAt (b : Bytes) (off : Nat) (piece : Bytes) : Bytes :=
  b.take off ++ List.replicate (off - b.length) 0 ++ piece ++ b.drop (off + piece.length)

/-- A piece that is written inside of a file, or at its end, replaces what is there. -/
theorem writeAt_eq {b : Bytes} {off : Nat} (piece : Bytes) (h : off ≤ b.length) :
    writeAt b off piece = b.take off ++ (piece ++ b.drop (off + piece.length)) := by
  rw [writeAt, Nat.sub_eq_zero_of_le h, List.replicate_zero, List.append_nil, List.append_assoc]

/-- A file grows by what is written behind its end. -/
theorem length_writeAt {b : Bytes} {off : Nat} (piece : Bytes) (h : off ≤ b.length) :
    (writeAt b off piece).length = max b.length (off + piece.length) := by
  rw [writeAt_eq piece h, List.length_append, List.length_append, List.length_take,
    List.length_drop]
  omega

/-- Data that continues in a file where it is written stays a prefix. -/
theorem writeAt_prefix {data b piece rest : Bytes} {off : Nat} (hb : b <+: data)
    (hoff : off ≤ b.length) (hdata : data.drop off = piece ++ rest) :
    writeAt b off piece <+: data := by
  have htake : b.take off = data.take off := by
    obtain ⟨t, rfl⟩ := hb
    rw [List.take_append_of_le_length hoff]
  have hsplit : data = data.take off ++ (piece ++ rest) := by
    rw [← hdata, List.take_append_drop]
  have hrest : b.drop (off + piece.length) <+: rest := by
    have hdrop : data.drop (off + piece.length) = rest := by
      rw [← List.drop_drop, hdata, List.drop_left]
    rw [← hdrop]
    exact hb.drop _
  rw [writeAt_eq piece hoff, htake]
  conv_rhs => rw [hsplit]
  exact (List.prefix_append_right_inj _).mpr ((List.prefix_append_right_inj _).mpr hrest)

end Bytes
