import PackedBits.Bits
import PackedBits.Edit

/-!
# Vectors of bits that can be changed in place

A change in place keeps the length. A type that can set one bit can do all the
rest a bit at a time; a type that keeps bits in words gives its own. Every
operation checks its arguments before it changes a bit.
-/

namespace PackedBits

/-- A way to combine two bits. -/
inductive Connective where
  /-- One where both are one. -/
  | both
  /-- One where either is one. -/
  | either
  /-- One where exactly one of them is one. -/
  | differ
  deriving DecidableEq, Repr

/-- Combines two words place by place. -/
def Connective.onWords : Connective → Word → Word → Word
  | .both, a, b => a &&& b
  | .either, a, b => a ||| b
  | .differ, a, b => a ^^^ b

/-- A vector of bits that can be changed in place. -/
class MutableBits (V : Type) extends Bits V where
  /-- Sets the bit at a position and gives what it was. -/
  set : Nat → Bool → Edit V Bool
  /-- Writes a value into the field of a number of bits at a position. -/
  setBits (lo width : Nat) (value : Word) : Edit V Unit := do
    Edit.inspect fun v => checkWindow lo (lo + width) (length v)
    checkValue value width
    visitUp 0 width fun i => discard (set (lo + i) (value.getLsbD i))
  /-- Sets every bit from one position up to another. -/
  fillRange (lo hi : Nat) (b : Bool) : Edit V Unit := do
    Edit.inspect fun v => checkRange lo hi (length v)
    visitUp lo (hi - lo) fun i => discard (set i b)
  /-- Flips every bit from one position up to another. -/
  flipRange (lo hi : Nat) : Edit V Unit := do
    Edit.inspect fun v => checkRange lo hi (length v)
    visitUp lo (hi - lo) fun i => do
      let old ← Edit.inspect (bit · i)
      discard (set i (!old))
  /-- Combines each bit with the bit of another vector at the same position, as
  far as both reach. -/
  combine (op : Connective) (other : Source) : Edit V Unit := do
    let n ← Edit.view length
    visitUp 0 (min n other.length) fun i => do
      match op, ← other.bit i with
      | .both, false => discard (set i false)
      | .either, true => discard (set i true)
      | .differ, true =>
        let old ← Edit.inspect (bit · i)
        discard (set i (!old))
      | _, _ => pure ()

namespace MutableBits

variable {V : Type} [MutableBits V]

/-- Clears the bit at `i` and gives what it was. -/
def clearBit (i : Nat) : Edit V Bool := set i false

/-- Flips the bit at `i` and gives what it was. -/
def flip (i : Nat) : Edit V Bool := do
  let old ← Edit.inspect (Bits.bit · i)
  discard (set i (!old))
  return old

/-- Sets every bit. -/
def fill (b : Bool) : Edit V Unit := do fillRange 0 (← Edit.view Bits.length) b

/-- Flips every bit. -/
def flipAll : Edit V Unit := do
  let n ← Edit.view (Bits.length : V → Nat)
  flipRange 0 n

end MutableBits

end PackedBits
