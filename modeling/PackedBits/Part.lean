import PackedBits.WordVec.Build

/-!
# A part of a vector as a vector

The bits of a vector from one position up to another are a vector of their own,
numbered from zero. Reads and changes in place go to the same bits of the
vector behind. Insertions and removals move what comes after the part, and the
end of the part with it; a change of length takes off the bits after the part
and puts them back behind the new end.
-/

namespace PackedBits

/-- The bits of a vector from `start` up to `stop`. -/
structure Part (V : Type) where
  /-- The vector behind. -/
  backing : V
  /-- The position of the first bit. -/
  start : Nat
  /-- The position past the last bit. -/
  stop : Nat
  deriving Repr, DecidableEq

namespace Part

variable {V : Type}

/-! ## Reading -/

section

variable [Bits V]

/-- The bits of `v` from `lo` up to `hi`. -/
def of (v : V) (lo hi : Nat) : Answer (Part V) := do
  checkRange lo hi (Bits.length v)
  return ⟨v, lo, hi⟩

/-- The bits of `v` from `lo` on. -/
def ofFrom (v : V) (lo : Nat) : Answer (Part V) := of v lo (Bits.length v)

/-- The number of bits. -/
def length (p : Part V) : Nat := p.stop - p.start

/-- The bits from `lo` up to `hi` of a part, as a part of the vector behind
it. -/
def narrow (p : Part V) (lo hi : Nat) : Answer (Part V) := do
  checkRange lo hi p.length
  return ⟨p.backing, p.start + lo, p.start + hi⟩

/-- The bit at `i`. -/
def bit (p : Part V) (i : Nat) : Answer Bool := do
  checkIndex i p.length
  Bits.bit p.backing (p.start + i)

/-- The bits from `lo` up to `hi`. -/
def window (p : Part V) (lo hi : Nat) : Answer Word := do
  checkWindow lo hi p.length
  Bits.window p.backing (p.start + lo) (p.start + hi)

/-- A position of the vector behind, as a position of the part if it lies in
it. -/
def localPosition (p : Part V) (position : Option Nat) : Option Nat :=
  (position.filter fun i => decide (p.start ≤ i ∧ i < p.stop)).map (· - p.start)

/-- The lowest position from `i` on that holds `b`. -/
def next (p : Part V) (b : Bool) (i : Nat) : Answer (Option Nat) :=
  if p.length ≤ i then return none
  else return p.localPosition (← Bits.next p.backing b (p.start + i))

/-- The highest position below `i` that holds `b`. -/
def previous (p : Part V) (b : Bool) (i : Nat) : Answer (Option Nat) :=
  return p.localPosition (← Bits.previous p.backing b (p.start + min i p.length))

instance : Bits (Part V) where
  length := length
  bit := bit
  window := window
  next := next
  previous := previous

/-- The text of a part for a person: its bounds and its bits. -/
def describe (p : Part V) : Answer String := do
  let lo := p.start
  let hi := p.stop
  let bits := Bits.digits (← Bits.toArray p)
  let quoted := "\"" ++ bits ++ "\""
  return s!"SubBitVector \x7b from: {lo}, to: {hi}, bits: {quoted} \x7d"

/-- Edits the bits of a vector from `lo` up to `hi` as a vector of their
own. -/
def within {α : Type} (lo hi : Nat) (edit : Edit (Part V) α) : Edit V α := fun v =>
  match checkRange lo hi (Bits.length v) with
  | .error failure => .error failure v
  | .ok _ =>
    match edit ⟨v, lo, hi⟩ with
    | .ok a ⟨v, _, _⟩ => .ok a v
    | .error failure ⟨v, _, _⟩ => .error failure v

end

/-! ## Changing in place -/

/-- Edits the vector behind. -/
@[inline] def onBacking {α : Type} (edit : Edit V α) : Edit (Part V) α := fun
  | ⟨backing, start, stop⟩ =>
    match edit backing with
    | .ok a backing => .ok a ⟨backing, start, stop⟩
    | .error failure backing => .error failure ⟨backing, start, stop⟩

/-- Edits the vector behind, given where the part starts in it. -/
@[inline] def onBackingFrom {α : Type} (edit : Nat → Edit V α) : Edit (Part V) α := fun
  | ⟨backing, start, stop⟩ => onBacking (edit start) ⟨backing, start, stop⟩

section

variable [MutableBits V]

/-- Sets the bit at `i` and gives what it was. -/
def set (i : Nat) (b : Bool) : Edit (Part V) Bool := do
  Edit.inspect fun p => checkIndex i p.length
  onBackingFrom fun start => MutableBits.set (start + i) b

/-- Writes `value` into the field of `width` bits at `lo`. -/
def setBits (lo width : Nat) (value : Word) : Edit (Part V) Unit := do
  Edit.inspect fun p => checkWindow lo (lo + width) p.length
  onBackingFrom fun start => MutableBits.setBits (start + lo) width value

/-- Sets every bit from `lo` up to `hi`. -/
def fillRange (lo hi : Nat) (b : Bool) : Edit (Part V) Unit := do
  Edit.inspect fun p => checkRange lo hi p.length
  onBackingFrom fun start => MutableBits.fillRange (start + lo) (start + hi) b

/-- Flips every bit from `lo` up to `hi`. -/
def flipRange (lo hi : Nat) : Edit (Part V) Unit := do
  Edit.inspect fun p => checkRange lo hi p.length
  onBackingFrom fun start => MutableBits.flipRange (start + lo) (start + hi)

/-- Combines each bit with the bit of `other` at the same position, as far as
both reach. -/
def combine (op : Connective) (other : Source) : Edit (Part V) Unit := do
  let n ← Edit.view fun p => min p.length other.length
  visitWindows 0 n fun lo hi => do
    let mine ← Edit.inspect (window · lo hi)
    setBits lo (hi - lo) (op.onWords mine (← other.window lo hi))

instance : MutableBits (Part V) where
  set := set
  setBits := setBits
  fillRange := fillRange
  flipRange := flipRange
  combine := combine

end

/-! ## Growing and shrinking -/

section

variable [ResizableBits V]

/-- Ends the part where the vector behind ends. -/
def reachEnd : Edit (Part V) Unit :=
  modify fun ⟨backing, start, _⟩ =>
    let stop := Bits.length backing
    ⟨backing, start, stop⟩

/-- Runs an edit of the vector behind that moves its end, with the bits after
the part taken off before and put back after. The part then ends where the
edit left the end. -/
def editEnd (memory : Allocator) (edit : Edit V Unit) : Edit (Part V) Unit := do
  let (stop, n) ← Edit.view fun p => (p.stop, Bits.length p.backing)
  if stop = n then
    onBacking edit
    reachEnd
  else
    let tail ← Edit.inspect fun p => (Bits.source p.backing).copyRange memory stop n
    onBacking (ResizableBits.setLength memory stop)
    onBacking edit
    reachEnd
    onBacking (ResizableBits.append memory (Bits.source tail))

/-- Has the length `n`; bits beyond the old length are zeros. -/
def setLength (memory : Allocator) (n : Nat) : Edit (Part V) Unit := do
  let start ← Edit.view Part.start
  editEnd memory (ResizableBits.setLength memory (← plus start n))

/-- Inserts a bit at `i` and moves the bits from there on up. -/
def insert (memory : Allocator) (i : Nat) (b : Bool) : Edit (Part V) Unit := do
  Edit.inspect fun p => checkInsertIndex i p.length
  onBackingFrom fun start => ResizableBits.insert memory (start + i) b
  modify fun ⟨backing, start, stop⟩ => ⟨backing, start, stop + 1⟩

/-- Removes the bit at `i`, moves the bits after it down, and gives it. -/
def remove (i : Nat) : Edit (Part V) Bool := do
  Edit.inspect fun p => checkIndex i p.length
  let old ← onBackingFrom fun start => ResizableBits.remove (start + i)
  modify fun ⟨backing, start, stop⟩ => ⟨backing, start, stop - 1⟩
  return old

/-- Puts the `count` lowest bits of `w` at the end. -/
def appendBits (memory : Allocator) (w : Word) (count : Nat) : Edit (Part V) Unit := do
  let n ← Edit.view Part.length
  require (count ≤ 64) (.spanTooWide n (n + count))
  editEnd memory (ResizableBits.appendBits memory w count)

instance : ResizableBits (Part V) where
  setLength := setLength
  insert := insert
  remove := remove
  appendBits := appendBits

end

end Part

end PackedBits
