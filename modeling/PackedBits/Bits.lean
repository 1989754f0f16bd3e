import PackedBits.Source

/-!
# Vectors of bits that can be read

A type is a vector of bits once it has a length and a bit at each position
below it. Windows, counts and scans follow from those two, and a type that can
answer them faster gives its own. `Bits.source` is the vector as a reader sees
it, for the operations that take two vectors of different types.
-/

namespace PackedBits

/-- A vector of bits that can be read. -/
class Bits (V : Type) where
  /-- The number of bits. -/
  length : V → Nat
  /-- The bit at a position below the length. -/
  bit : V → Nat → Answer Bool
  /-- The bits from one position up to another, at most 64 of them, the first
  at place 0. -/
  window : V → Nat → Nat → Answer Word := fun v => Source.gather (length v) (bit v)
  /-- The number of ones. -/
  countOnes : V → Answer Nat := fun v => Source.countOnes ⟨length v, bit v, window v⟩
  /-- The lowest position from a given one on that holds a bit. -/
  next : V → Bool → Nat → Answer (Option Nat) :=
    fun v => Source.next ⟨length v, bit v, window v⟩
  /-- The highest position below a given one that holds a bit. -/
  previous : V → Bool → Nat → Answer (Option Nat) :=
    fun v => Source.previous ⟨length v, bit v, window v⟩

instance : Bits Source where
  length s := s.length
  bit s := s.bit
  window s := s.window

namespace Bits

variable {V : Type} [Bits V]

/-- A vector as a reader sees it. -/
def source (v : V) : Source where
  length := length v
  bit := bit v
  window := window v

/-- Whether there are no bits. -/
def isEmpty (v : V) : Bool := length v == 0

/-- The bit at `i`, if `i` is below the length. -/
def bit? (v : V) (i : Nat) : Answer (Option Bool) :=
  if i < length v then return some (← bit v i) else return none

/-- The bits from `lo` up to `hi`, if that is a window. -/
def window? (v : V) (lo hi : Nat) : Answer (Option Word) :=
  if lo ≤ hi ∧ hi ≤ length v ∧ hi - lo ≤ 64 then return some (← window v lo hi)
  else return none

/-- The number of zeros. -/
def countZeros (v : V) : Answer Nat := do minus (length v) (← countOnes v)

/-- The lowest position that holds `b`. -/
def first (v : V) (b : Bool) : Answer (Option Nat) := next v b 0

/-- The highest position that holds `b`. -/
def last (v : V) (b : Bool) : Answer (Option Nat) := previous v b (length v)

/-- All the bits, from position 0. -/
def toArray (v : V) : Answer (Array Bool) :=
  foldUp 0 (length v) #[] fun bits i => return bits.push (← bit v i)

/-- The text of bits: a digit for each. -/
def digits (bits : Array Bool) : String :=
  bits.foldl (fun text b => text.push (if b then '1' else '0')) ""

@[simp] theorem bit_source (v : V) : (source v).bit = bit v := rfl

@[simp] theorem window_source (v : V) : (source v).window = window v := rfl

end Bits

end PackedBits
