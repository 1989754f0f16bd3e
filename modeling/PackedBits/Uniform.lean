import PackedBits.Bits

/-!
# Vectors of one bit repeated

A vector whose bits are all the same needs no storage: its length and the bit
say everything, and counts and scans have closed forms. It can be read and not
changed.
-/

namespace PackedBits

/-- The vector of `length` bits that are all `value`. -/
structure Uniform where
  /-- The number of bits. -/
  length : Nat
  /-- The value of every bit. -/
  value : Bool
  deriving Repr, DecidableEq

namespace Uniform

/-- The vector of no bits. -/
def empty : Uniform := ⟨0, false⟩

/-- The vector of one zero. -/
def zero : Uniform := ⟨1, false⟩

/-- The vector of one one. -/
def one : Uniform := ⟨1, true⟩

/-- The bit at `i`. -/
def bit (v : Uniform) (i : Nat) : Answer Bool := do
  checkIndex i v.length
  return v.value

/-- The bits from `lo` up to `hi`. -/
def window (v : Uniform) (lo hi : Nat) : Answer Word := do
  checkWindow lo hi v.length
  return if v.value then Word.mask (hi - lo) else 0#64

/-- The number of ones. -/
def countOnes (v : Uniform) : Answer Nat := return if v.value then v.length else 0

/-- The lowest position from `i` on that holds `b`: `i` itself or none. -/
def next (v : Uniform) (b : Bool) (i : Nat) : Answer (Option Nat) :=
  return if v.value = b ∧ i < v.length then some i else none

/-- The highest position below `i` that holds `b`: the last one or none. -/
def previous (v : Uniform) (b : Bool) (i : Nat) : Answer (Option Nat) :=
  let stop := min i v.length
  return if v.value = b ∧ 0 < stop then some (stop - 1) else none

/-- A copy of the vector, which is the vector, as it never changes. -/
def copy (v : Uniform) : Uniform := v

/-- The text of a vector for a person. -/
def describe (v : Uniform) : String :=
  let n := v.length
  let b := v.value
  s!"ConstantBitVector \x7b len: {n}, bit: {b} \x7d"

instance : Bits Uniform where
  length := length
  bit := bit
  window := window
  countOnes := countOnes
  next := next
  previous := previous

end Uniform

end PackedBits
