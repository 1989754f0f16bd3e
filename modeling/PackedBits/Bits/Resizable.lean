import PackedBits.Allocator
import PackedBits.Bits.Mutable

/-!
# Vectors of bits that can grow and shrink

A vector that can set its length, insert a bit and remove one can do all the
rest with those. Whatever may need memory takes the allocator to ask; that
includes shrinking through a view, which puts back the bits after the view.
-/

namespace PackedBits

/-- A vector of bits that can grow and shrink. -/
class ResizableBits (V : Type) extends MutableBits V where
  /-- Sets the length; bits beyond the old length are zeros. -/
  setLength : Allocator → Nat → Edit V Unit
  /-- Inserts a bit at a position and moves the bits from there on up. -/
  insert : Allocator → Nat → Bool → Edit V Unit
  /-- Removes the bit at a position, moves the bits after it down, and gives
  it. -/
  remove : Nat → Edit V Bool
  /-- Puts a bit at the end. -/
  push (memory : Allocator) (b : Bool) : Edit V Unit := do
    insert memory (← Edit.view length) b
  /-- Puts the lowest bits of a word at the end, 64 of them at most. -/
  appendBits (memory : Allocator) (w : Word) (count : Nat) : Edit V Unit := do
    let n ← Edit.view length
    require (count ≤ 64) (.spanTooWide n (n + count))
    visitUp 0 count fun i => push memory (w.getLsbD i)
  /-- Puts all the bits of another vector at the end. -/
  append (memory : Allocator) (other : Source) : Edit V Unit :=
    visitWindows 0 other.length fun lo hi => do
      appendBits memory (← other.window lo hi) (hi - lo)

namespace ResizableBits

variable {V : Type} [ResizableBits V]

/-- Removes the last bit and gives it, if there is one. -/
def pop : Edit V (Option Bool) := do
  let n ← Edit.view Bits.length
  if n = 0 then return none
  return some (← remove (n - 1))

/-- Removes every bit. -/
def clear (memory : Allocator) : Edit V Unit := setLength memory 0

/-- Has the bits of another vector and no other. -/
def replace (memory : Allocator) (other : Source) : Edit V Unit := do
  clear memory
  append memory other

end ResizableBits

end PackedBits
