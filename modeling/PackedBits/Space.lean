import PackedBits.Store

/-!
# Space in memory

What values take in memory, in bytes and in the units of 1024 bytes and its
powers: single values, growable lists of them and lists of fixed size.
-/

namespace PackedBits

/-- A type of values that take a fixed space. -/
inductive Scalar where
  /-- A truth value. -/
  | truth
  /-- A whole number of a number of bits. -/
  | integer (bits : Nat)
  /-- A binary fraction of a number of bits. -/
  | fraction (bits : Nat)
  deriving DecidableEq, Repr

/-- The bytes of a value. -/
def Scalar.bytes : Scalar → Nat
  | .truth => 1
  | .integer bits => bits / 8
  | .fraction bits => bits / 8

/-- The bytes of the two numbers that describe a list of fixed size: where it is
and how many items it holds. -/
def sliceHeaderBytes : Nat := 16

/-- The bytes of a growable list with room for `capacity` values. -/
def Scalar.listBytes (s : Scalar) (capacity : Nat) : Nat := listHeaderBytes + s.bytes * capacity

/-- The bytes of a list of exactly `length` values. -/
def Scalar.sliceBytes (s : Scalar) (length : Nat) : Nat := sliceHeaderBytes + s.bytes * length

/-- A number of bytes in units of `1024 ^ power` bytes. -/
def inUnits (bytes power : Nat) : Float :=
  (UInt64.ofNat bytes).toFloat / (UInt64.ofNat (1 <<< (10 * power))).toFloat

end PackedBits
