import BootExtractor.Error
import BootExtractor.Lib.Bytes

/-!
# Byte-addressed devices

The bounds check all readers share, and devices as the layers above the disk image
see them: a size and a partial read whose successes have the requested length.
-/

namespace BootExtractor

/-- `u64::checked_add`. -/
def checkedAdd (a b : Nat) : Option Nat := if a + b < 2 ^ 64 then some (a + b) else none

/-- `ReadAt::check_bounds`: the request must end inside a device of the given size. -/
def checkBounds (size offset len : Nat) : Except Error Unit :=
  match checkedAdd offset len with
  | none => .error (.outOfBounds offset len size)
  | some end_ => if end_ > size then .error (.outOfBounds offset len size) else .ok ()

/-- A request that passes ends inside the device. -/
theorem checkBounds_ok {size offset len : Nat} (h : checkBounds size offset len = .ok ()) :
    offset + len ≤ size := by
  unfold checkBounds checkedAdd at h
  split at h
  · cases h
  · rename_i end_ he
    split at he
    · cases he
      split at h
      · cases h
      · omega
    · cases he

/-- On a device whose size is a machine integer, exactly the requests that end
inside it pass. -/
theorem checkBounds_eq {size offset len : Nat} (hs : size < 2 ^ 64) :
    checkBounds size offset len =
      if offset + len ≤ size then .ok () else .error (.outOfBounds offset len size) := by
  unfold checkBounds checkedAdd
  by_cases h : offset + len ≤ size
  · have h64 : offset + len < 2 ^ 64 := by omega
    rw [if_pos h64, if_pos h]
    exact if_neg (by omega)
  · rw [if_neg h]
    by_cases h64 : offset + len < 2 ^ 64
    · rw [if_pos h64]
      exact if_pos (by omega)
    · rw [if_neg h64]

/-- Addition of `u64`, as the release build does it. -/
def wrappingAdd (a b : Nat) : Nat := (a + b) % 2 ^ 64

/-- Multiplication of `u64`, as the release build does it. -/
def wrappingMul (a b : Nat) : Nat := (a * b) % 2 ^ 64

/-- `ReadAt`: a size, and reads that give exactly what was asked for or fail. -/
structure Device where
  size : Nat
  readAt : Nat → Nat → Except Error Bytes
  size_lt : size < 2 ^ 64
  length_readAt : ∀ offset len b, readAt offset len = .ok b → b.length = len

/-- `ReadAt::check_bounds(..).is_ok()`. -/
def Device.inBounds (d : Device) (offset len : Nat) : Bool :=
  (checkBounds d.size offset len) matches .ok _

/-- The read of a `Slice`. -/
def Device.sliceRead (parent : Device) (start len : Nat) (offset n : Nat) : Except Error Bytes :=
  match checkBounds len offset n with
  | .error e => .error e
  | .ok _ => parent.readAt (wrappingAdd start offset) n

/-- `Slice`: a window of `len` bytes from `start` on over a parent device. -/
def Device.slice (parent : Device) (start len : Nat) (hlen : len < 2 ^ 64) : Device where
  size := len
  readAt := parent.sliceRead start len
  size_lt := hlen
  length_readAt offset n b h := by
    unfold Device.sliceRead at h
    split at h
    · cases h
    · exact parent.length_readAt _ _ _ h

end BootExtractor
