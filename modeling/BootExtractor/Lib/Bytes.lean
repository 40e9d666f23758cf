import Mathlib.Data.List.TakeDrop
import Mathlib.Algebra.Order.Group.Nat

/-!
# Byte strings

Contiguous parts of a list and the numbers stored in them. A part is named by
its offset and its length; neighbouring parts join, and a part of a part is a
part. Numbers are read in either byte order.
-/

/-- A byte string. -/
abbrev Bytes := List UInt8

namespace Bytes

universe u

variable {α : Type u}

/-- The part of `len` items at `off`, or what there is of it. -/
def slice (b : List α) (off len : Nat) : List α := (b.drop off).take len

/-- The part of `len` items at `off`, if all of it is there. -/
def get? (b : List α) (off len : Nat) : Option (List α) :=
  if off + len ≤ b.length then some (slice b off len) else none

/-- A slice of no length is empty. -/
@[simp] theorem slice_zero_length (b : List α) (off : Nat) : slice b off 0 = [] := rfl

/-- A slice from the start is the front. -/
@[simp] theorem slice_zero_offset (b : List α) (len : Nat) : slice b 0 len = b.take len := rfl

/-- A slice is as long as it was asked for, or ends with the bytes. -/
theorem length_slice (b : List α) (off len : Nat) :
    (slice b off len).length = min len (b.length - off) := by
  simp only [slice, List.length_take, List.length_drop]

/-- A part inside the list has its full length. -/
theorem length_slice_of_le {b : List α} {off len : Nat} (h : off + len ≤ b.length) :
    (slice b off len).length = len := by
  rw [length_slice]
  omega

/-- The items of a slice are those behind its offset. -/
theorem getElem?_slice (b : List α) (off len i : Nat) :
    (slice b off len)[i]? = if i < len then b[off + i]? else none := by
  simp only [slice, List.getElem?_take, List.getElem?_drop]

/-- Neighbouring parts join. -/
theorem slice_add (b : List α) (off m n : Nat) :
    slice b off (m + n) = slice b off m ++ slice b (off + m) n := by
  simp only [slice, List.take_add, List.drop_drop]

/-- A part of a part is a part of the whole. -/
theorem slice_slice {b : List α} {off len o n : Nat} (h : o + n ≤ len) :
    slice (slice b off len) o n = slice b (off + o) n := by
  simp only [slice, List.drop_take, List.take_take, List.drop_drop]
  rw [Nat.min_eq_left (by omega)]

/-- Dropping in front only moves the offset. -/
theorem slice_drop (b : List α) (k off len : Nat) :
    slice (b.drop k) off len = slice b (k + off) len := by
  simp only [slice, List.drop_drop]

/-- Pieces of one width make up that width times their number. -/
theorem length_flatMap_const {β : Type u} {f : β → List α} {w : Nat} (hf : ∀ x, (f x).length = w)
    (xs : List β) : (xs.flatMap f).length = xs.length * w := by
  induction xs with
  | nil => rw [List.flatMap_nil, List.length_nil, List.length_nil, Nat.zero_mul]
  | cons x xs ih =>
    rw [List.flatMap_cons, List.length_append, hf, ih, List.length_cons, Nat.succ_mul,
      Nat.add_comm]

/-- The parts of equal length that a list is put together from. -/
theorem slice_flatMap {β : Type u} {f : β → List α} {w : Nat} (hf : ∀ x, (f x).length = w)
    {xs : List β} {i : Nat} (hi : i < xs.length) : slice (xs.flatMap f) (i * w) w = f xs[i] := by
  induction xs generalizing i with
  | nil => exact absurd hi (Nat.not_lt_zero i)
  | cons x xs ih =>
    cases i with
    | zero =>
      rw [Nat.zero_mul, slice_zero_offset, List.flatMap_cons]
      exact List.take_left' (hf x)
    | succ i =>
      have hdrop : ((x :: xs).flatMap f).drop w = xs.flatMap f := by
        rw [List.flatMap_cons]
        exact List.drop_left' (hf x)
      rw [Nat.succ_mul, Nat.add_comm, ← slice_drop, hdrop, ih (Nat.lt_of_succ_lt_succ hi)]
      rfl

/-- A range is there exactly if it is inside. -/
theorem get?_eq_some_iff {b c : List α} {off len : Nat} :
    get? b off len = some c ↔ off + len ≤ b.length ∧ slice b off len = c := by
  unfold get?
  split <;> simp_all

/-- Reading from a prefix: the same bytes, as far as the prefix goes. -/
theorem get?_take (b : List α) (n off len : Nat) :
    get? (b.take n) off len = if off + len ≤ n then get? b off len else none := by
  have hslice : off + len ≤ n → slice (b.take n) off len = slice b off len := by
    intro h
    have hpart : slice (slice b 0 n) off len = slice b (0 + off) len := slice_slice h
    rwa [slice_zero_offset, Nat.zero_add] at hpart
  unfold get?
  rw [List.length_take]
  split
  · rename_i hle
    rw [if_pos (by omega), if_pos (by omega), hslice (by omega)]
  · rename_i hle
    split
    · rw [if_neg (by omega)]
    · rfl

/-- Number stored least significant byte first. -/
def le : Bytes → Nat
  | [] => 0
  | b :: rest => b.toNat + 256 * le rest

/-- Number stored most significant byte first. -/
def be (b : Bytes) : Nat := le b.reverse

/-- The `width` bytes of a number, least significant byte first. -/
def toLe : Nat → Nat → Bytes
  | 0, _ => []
  | width + 1, n => UInt8.ofNat (n % 256) :: toLe width (n / 256)

/-- A number is stored in as many bytes as asked for. -/
@[simp] theorem length_toLe (width n : Nat) : (toLe width n).length = width := by
  induction width generalizing n with
  | zero => rfl
  | succ width ih => simp only [toLe, List.length_cons, ih]

/-- Reading back a number that fits its width. -/
theorem le_toLe {width n : Nat} (h : n < 256 ^ width) : le (toLe width n) = n := by
  induction width generalizing n with
  | zero =>
    have : n = 0 := by simpa using h
    simp [toLe, le, this]
  | succ width ih =>
    have hq : n / 256 < 256 ^ width := by
      rw [Nat.div_lt_iff_lt_mul (by decide)]
      simpa only [Nat.pow_succ] using h
    simp only [toLe, le, ih hq, UInt8.toNat_ofNat']
    omega

/-- A number of `width` bytes is bounded by the width. -/
theorem le_lt (b : Bytes) : le b < 256 ^ b.length := by
  induction b with
  | nil => simp [le]
  | cons x rest ih =>
    have hx : x.toNat < 256 := UInt8.toNat_lt x
    simp only [le, List.length_cons, Nat.pow_succ]
    omega

/-- The `width` bytes of a number, most significant byte first. -/
def toBe (width n : Nat) : Bytes := (toLe width n).reverse

/-- A number is stored in as many bytes as asked for. -/
@[simp] theorem length_toBe (width n : Nat) : (toBe width n).length = width := by
  rw [toBe, List.length_reverse, length_toLe]

/-- A number that fits is read back. -/
theorem be_toBe {width n : Nat} (h : n < 256 ^ width) : be (toBe width n) = n := by
  rw [be, toBe, List.reverse_reverse, le_toLe h]

/-- Number stored little-endian in the part of `len` bytes at `off`, if it is there. -/
def leAt (b : Bytes) (off len : Nat) : Option Nat := (get? b off len).map le

/-- All of `c` stands in `b` at `off`. -/
def At (b : Bytes) (off : Nat) (c : Bytes) : Prop := get? b off c.length = some c

instance (b : Bytes) (off : Nat) (c : Bytes) : Decidable (At b off c) :=
  inferInstanceAs (Decidable (_ = _))

/-- A number stands where its bytes stand. -/
theorem At.leAt {b : Bytes} {off width n : Nat} (h : At b off (toLe width n))
    (hn : n < 256 ^ width) : leAt b off width = some n := by
  have hget : get? b off width = some (toLe width n) := by
    have h' := h
    rwa [At, length_toLe] at h'
  rw [Bytes.leAt, hget, Option.map_some, le_toLe hn]

/-- Bytes that stand at a place are the slice there. -/
theorem At.slice {b : Bytes} {off : Nat} {c : Bytes} (h : At b off c) :
    slice b off c.length = c := (get?_eq_some_iff.mp h).2

/-- Bytes that stand at a place are inside. -/
theorem At.le_length {b : Bytes} {off : Nat} {c : Bytes} (h : At b off c) :
    off + c.length ≤ b.length := (get?_eq_some_iff.mp h).1

end Bytes
