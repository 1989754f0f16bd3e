import PackedBits.Bits.Resizable
import PackedBits.Part
import PackedBits.Walk

/-!
# The positions of the ones as a set

A vector of bits is a set of positions: those that hold a one, as far as they
lie within the bounds of the set. To add a position is to set its bit, to take
it away is to clear it, and the order of the set is the order of positions. A
set whose upper bound is `maxPosition` is unbounded: a position added past the
end of the vector lengthens it.
-/

namespace PackedBits

/-- The positions of a vector from `lower` up to `upper` that hold a one. -/
structure PositionSet (V : Type) where
  /-- The vector behind. -/
  backing : V
  /-- The lowest position admitted. -/
  lower : Nat
  /-- The position past the highest one admitted. -/
  upper : Nat
  deriving Repr, DecidableEq

namespace PositionSet

variable {V : Type}

/-- All the positions of the ones of `v`. -/
def of (v : V) : PositionSet V := ⟨v, 0, maxPosition⟩

/-- The bounds common to a set and to the positions from `lo` up to `hi`. -/
def bounds (s : PositionSet V) (lo hi : Nat) : Nat × Nat :=
  let upper := min hi s.upper
  (min (max lo s.lower) upper, upper)

/-- The positions of a set from `lo` up to `hi`. -/
def between (s : PositionSet V) (lo hi : Nat) : PositionSet V :=
  ⟨s.backing, (s.bounds lo hi).1, (s.bounds lo hi).2⟩

/-- The positions of a set below `hi`. -/
def below (s : PositionSet V) (hi : Nat) : PositionSet V := s.between 0 hi

/-- The positions of a set from `lo` on. -/
def startingAt (s : PositionSet V) (lo : Nat) : PositionSet V := s.between lo maxPosition

/-! ## Reading -/

section

variable [Bits V]

/-- The end of the positions that are admitted and in the vector. -/
def reach (s : PositionSet V) : Nat := min s.upper (Bits.length s.backing)

/-- A position is admitted and in the vector. -/
def admits (s : PositionSet V) (i : Nat) : Bool := decide (s.lower ≤ i ∧ i < s.reach)

/-- Whether `i` is in the set. -/
def contains (s : PositionSet V) (i : Nat) : Answer Bool :=
  if s.admits i then Bits.bit s.backing i else return false

/-- The number of positions in the set. -/
def size (s : PositionSet V) : Answer Nat := do
  if s.reach ≤ s.lower then return 0
  Bits.countOnes (← Part.of s.backing s.lower s.reach)

/-- The lowest position in the set. -/
def first (s : PositionSet V) : Answer (Option Nat) :=
  return (← Bits.next s.backing true s.lower).filter (· < s.reach)

/-- The highest position in the set. -/
def last (s : PositionSet V) : Answer (Option Nat) :=
  return (← Bits.previous s.backing true s.reach).filter (s.lower ≤ ·)

/-- Whether no position is in the set. -/
def isEmpty (s : PositionSet V) : Answer Bool := return (← s.first).isNone

/-- The walk over the positions in the set from `lo` on. -/
def walkFrom (s : PositionSet V) (lo : Nat) : Walk :=
  Walk.between s.backing (max lo s.lower) s.reach

/-- The walk over the positions in the set. -/
def walk (s : PositionSet V) : Walk := Walk.between s.backing s.lower s.reach

/-- The next position of a walk from the front. -/
def next (s : PositionSet V) : Edit Walk (Option Nat) := Walk.nextHolding s.backing true

/-- The next position of a walk from the back. -/
def nextBack (s : PositionSet V) : Edit Walk (Option Nat) := Walk.nextBackHolding s.backing true

/-- The positions in the set, in increasing order. -/
def toArray (s : PositionSet V) : Answer (Array Nat) := Walk.toArray s.next s.walk

/-- The text of a set for a person. -/
def describe (s : PositionSet V) : Answer String := do
  let list := ", ".intercalate ((← s.toArray).toList.map Nat.repr)
  return "\x7b" ++ list ++ "\x7d"

end

/-! ## Editing -/

/-- Edits a vector as the set of its ones. -/
def within {α : Type} (edit : Edit (PositionSet V) α) : Edit V α := fun v =>
  match edit (of v) with
  | .ok a ⟨v, _, _⟩ => .ok a v
  | .error failure ⟨v, _, _⟩ => .error failure v

/-- Edits the positions of a set from `lo` up to `hi` as a set of their
own. -/
def withinBounds {α : Type} (lo hi : Nat) (edit : Edit (PositionSet V) α) :
    Edit (PositionSet V) α := fun s =>
  let (lo, hi) := s.bounds lo hi
  let ⟨backing, lower, upper⟩ := s
  match edit ⟨backing, lo, hi⟩ with
  | .ok a ⟨backing, _, _⟩ => .ok a ⟨backing, lower, upper⟩
  | .error failure ⟨backing, _, _⟩ => .error failure ⟨backing, lower, upper⟩

/-- Edits the vector behind. -/
@[inline] def onBacking {α : Type} (edit : Edit V α) : Edit (PositionSet V) α := fun
  | ⟨backing, lower, upper⟩ =>
    match edit backing with
    | .ok a backing => .ok a ⟨backing, lower, upper⟩
    | .error failure backing => .error failure ⟨backing, lower, upper⟩

/-- Takes `i` out of the set and tells whether it was in it. -/
def remove [MutableBits V] (i : Nat) : Edit (PositionSet V) Bool := do
  let admitted ← Edit.view fun s => s.admits i
  if admitted then onBacking (MutableBits.set i false) else return false

/-- Takes every position out of the set. -/
def clear [MutableBits V] : Edit (PositionSet V) Unit := do
  let (lower, reach) ← Edit.view fun s => (s.lower, s.reach)
  if lower < reach then onBacking (MutableBits.fillRange lower reach false)

/-- Puts `i` into the set and tells whether it was not in it. -/
def insert [ResizableBits V] (memory : Allocator) (i : Nat) : Edit (PositionSet V) Bool := do
  Edit.inspect fun s => require (s.lower ≤ i ∧ i < s.upper) (.outOfView i s.lower s.upper)
  let n ← Edit.view fun s => Bits.length s.backing
  if n ≤ i then onBacking (ResizableBits.setLength memory (i + 1))
  return !(← onBacking (MutableBits.set i true))

/-- Puts positions into the set. -/
def extend [ResizableBits V] (memory : Allocator) (positions : List Nat) :
    Edit (PositionSet V) Unit :=
  positions.forM fun i => discard (insert memory i)

end PositionSet

end PackedBits
