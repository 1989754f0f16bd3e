import PackedBits.Bits.Resizable
import PackedBits.Walk

/-!
# A vector as a list of numbers of one width

Number `i` of width `w` lies in the bits from `i * w` up to `(i + 1) * w`, the
first bit the least significant. Bits at the end that make no whole number are
left out of account, and dropped when a number is added.
-/

namespace PackedBits

/-- A vector as a list of numbers of `width` bits. -/
structure FieldList (V : Type) where
  /-- The vector behind. -/
  backing : V
  /-- The number of bits of each number. -/
  width : Nat
  deriving Repr, DecidableEq

namespace FieldList

variable {V : Type}

/-- A width is 1 to 64. -/
def checkWidth (width : Nat) : Answer Unit :=
  require (0 < width ∧ width ≤ 64) (.invalidWidth width)

/-- The numbers of `width` bits in `v`. -/
def of (v : V) (width : Nat) : Answer (FieldList V) := do
  checkWidth width
  return ⟨v, width⟩

/-! ## Reading -/

section

variable [Bits V]

/-- The number of numbers. -/
def size (l : FieldList V) : Nat := Bits.length l.backing / l.width

/-- Whether there are no numbers. -/
def isEmpty (l : FieldList V) : Bool := l.size == 0

/-- The bits that number `i` takes. -/
def field (l : FieldList V) (i : Nat) : Answer Word :=
  Bits.window l.backing (i * l.width) (i * l.width + l.width)

/-- Number `i`, if there is one. -/
def get? (l : FieldList V) (i : Nat) : Answer (Option Word) := do
  if i < l.size then return some (← l.field i) else return none

/-- The walk over the numbers. -/
def walk (l : FieldList V) : Walk := Walk.upTo l.size

/-- All the numbers, from the first. -/
def toArray (l : FieldList V) : Answer (Array Word) := Walk.toArray (Walk.next l.field) l.walk

/-- The text of a list for a person. -/
def describe (l : FieldList V) : Answer String := do
  let list := ", ".intercalate ((← l.toArray).toList.map fun x => x.toNat.repr)
  return "[" ++ list ++ "]"

end

/-! ## Editing -/

/-- Edits a vector as a list of numbers of `width` bits. -/
def within {α : Type} (width : Nat) (edit : Edit (FieldList V) α) : Edit V α := fun v =>
  match checkWidth width with
  | .error failure => .error failure v
  | .ok _ =>
    match edit ⟨v, width⟩ with
    | .ok a ⟨v, _⟩ => .ok a v
    | .error failure ⟨v, _⟩ => .error failure v

/-- Edits the vector behind. -/
@[inline] def onBacking {α : Type} (edit : Edit V α) : Edit (FieldList V) α := fun
  | ⟨backing, width⟩ =>
    match edit backing with
    | .ok a backing => .ok a ⟨backing, width⟩
    | .error failure backing => .error failure ⟨backing, width⟩

/-- Replaces number `i` and gives what it was. -/
def set [MutableBits V] (i : Nat) (value : Word) : Edit (FieldList V) Word := do
  Edit.inspect fun l => checkIndex i l.size
  let width ← Edit.view FieldList.width
  checkValue value width
  let old ← Edit.inspect fun l => l.field i
  onBacking (MutableBits.setBits (i * width) width value)
  return old

/-- Has as many bits as `n` numbers of `width` bits, if they can be counted. -/
def setFields [ResizableBits V] (memory : Allocator) (n width : Nat) : Edit V Unit := do
  ResizableBits.setLength memory (← times n width)

/-- Has `n` numbers, and no bits after them. -/
def resize [ResizableBits V] (memory : Allocator) (n : Nat) : Edit (FieldList V) Unit := do
  let width ← Edit.view FieldList.width
  onBacking (setFields memory n width)

/-- Puts a number at the end. -/
def push [ResizableBits V] (memory : Allocator) (value : Word) : Edit (FieldList V) Unit := do
  let (width, n) ← Edit.view fun l => (l.width, l.size)
  checkValue value width
  resize memory n
  onBacking (ResizableBits.appendBits memory value width)

/-- Takes the last number off the end and gives it, if there is one. -/
def pop [ResizableBits V] (memory : Allocator) : Edit (FieldList V) (Option Word) := do
  let n ← Edit.view FieldList.size
  if n = 0 then return none
  let last ← Edit.inspect fun l => l.field (n - 1)
  resize memory (n - 1)
  return some last

/-- Puts numbers at the end. -/
def extend [ResizableBits V] (memory : Allocator) (values : List Word) :
    Edit (FieldList V) Unit :=
  values.forM (push memory)

end FieldList

end PackedBits
