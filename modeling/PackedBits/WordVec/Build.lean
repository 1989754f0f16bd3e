import PackedBits.Store.Flat
import PackedBits.WordVec.Resizable

/-!
# Building vectors of words

Vectors of one bit repeated, of listed bits and of listed positions, and copies
of any vector or of a part of one.
-/

namespace PackedBits

namespace WordVec

variable {S : Type} [WordStore S]

/-! ## Extending -/

/-- Puts bits at the end, with room for all of them made first. -/
def extendBits (memory : Allocator) (bits : List Bool) : Edit (WordVec S) Unit := do
  let n ← Edit.view length
  ensureCapacity memory (← plus n bits.length)
  bits.forM (push memory)

/-- Sets the bit at a position, and grows to hold it. -/
def includePosition (memory : Allocator) (i : Nat) : Edit (WordVec S) Unit := do
  let n ← Edit.view length
  if n ≤ i then setLength memory (← plus i 1)
  discard (set i true)

/-- Sets the bits at positions, and grows to hold them. -/
def extendPositions (memory : Allocator) (positions : List Nat) : Edit (WordVec S) Unit :=
  positions.forM (includePosition memory)

/-! ## Constructors -/

/-- No bits, with room for `n` of them. -/
def withCapacity (memory : Allocator) (n : Nat) : Answer (WordVec S) :=
  (ensureCapacity memory n).build empty

/-- The vector of `n` zeros. -/
def zeros (memory : Allocator) (n : Nat) : Answer (WordVec S) := do
  (setLength memory n).build (← withCapacity memory n)

/-- The vector of `n` ones. -/
def ones (memory : Allocator) (n : Nat) : Answer (WordVec S) := do
  let whole : Edit (WordVec S) Unit := do
    onStore (WordStore.fill 0 (wordsFor n) (BitVec.allOnes 64))
    clearTail
  whole.build (← zeros memory n)

/-- The vector of the listed bits. -/
def ofBits (memory : Allocator) (bits : List Bool) : Answer (WordVec S) :=
  (extendBits memory bits).build empty

/-- The shortest vector with ones at exactly the listed positions. -/
def ofPositions (memory : Allocator) (positions : List Nat) : Answer (WordVec S) :=
  (extendPositions memory positions).build empty

end WordVec

/-! ## Copies -/

namespace Source

/-- A copy of the bits in words. -/
def copy (memory : Allocator) (s : Source) : Answer (WordVec Flat) := do
  (WordVec.append memory s).build (← WordVec.withCapacity memory s.length)

/-- A copy of the bits from `lo` up to `hi` in words. -/
def copyRange (memory : Allocator) (s : Source) (lo hi : Nat) : Answer (WordVec Flat) := do
  checkRange lo hi s.length
  let appendAll : Edit (WordVec Flat) Unit := visitWindows lo hi fun lo hi => do
    checkWindowEnd lo
    WordVec.appendBits memory (← s.window lo hi) (hi - lo)
  appendAll.build (← WordVec.withCapacity memory (hi - lo))

end Source

end PackedBits
