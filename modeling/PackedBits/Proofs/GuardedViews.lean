import PackedBits.Proofs.PositionSetLaw
import PackedBits.Proofs.StoreGuard

/-!
# Views under guard

The length of a part is a difference, so whatever asks for a length asks for it under
guard: `GuardedBits` is the class of vectors that give theirs so, and all of their own
operations with every step under guard. On it stand, once more, the operations that the
classes build, those of a part and those of the two other views.
-/

namespace PackedBits

/-- Vectors with the steps of their operations under guard. -/
class GuardedBits (V : Type) extends ResizableBits V where
  /-- The length, as a difference under guard. -/
  measure : V → Answer Nat

/-! ## What the classes build -/

namespace GuardedBits

variable {V : Type} [GuardedBits V]

/-- A vector as a reader sees it. -/
def source (v : V) : Answer Source := do
  let n ← measure v
  return ⟨n, Bits.bit v, Bits.window v⟩

def window? (v : V) (lo hi : Nat) : Answer (Option Word) := do
  let n ← measure v
  if lo ≤ hi ∧ hi ≤ n then
    if (← minus hi lo) ≤ 64 then return some (← Bits.window v lo hi)
  return none

def countZeros (v : V) : Answer Nat := do minus (← measure v) (← Bits.countOnes v)

def last (v : V) (b : Bool) : Answer (Option Nat) := do Bits.previous v b (← measure v)

def fill (b : Bool) : Edit V Unit := do MutableBits.fillRange 0 (← Edit.inspect measure) b

def flipAll : Edit V Unit := do MutableBits.flipRange 0 (← Edit.inspect measure)

def pop : Edit V (Option Bool) := do
  let n ← Edit.inspect measure
  if n = 0 then return none
  return some (← ResizableBits.remove (← minus n 1))

end GuardedBits

/-! ## Walks -/

/-- The answer of an edit of `v` and what it leaves of `v`. -/
def Edit.ask {V α : Type} (edit : Edit V α) (v : V) : Answer (α × V) :=
  match edit v with
  | .ok a w => .ok (a, w)
  | .error failure _ => .error failure

namespace Walk

variable {V α : Type}

def guardedNextBack (read : Nat → Answer α) : Edit Walk (Option α) := fun w =>
  if w.back ≤ w.front then .ok none w
  else
    match minus w.back 1 with
    | .error failure => .error failure w
    | .ok i =>
      match read i with
      | .ok a => .ok (some a) ⟨w.front, i⟩
      | .error failure => .error failure ⟨w.front, i⟩

theorem guardedNextBack_eq : guardedNextBack (α := α) = nextBack := by
  funext read w
  by_cases hdone : w.back ≤ w.front
  · simp only [guardedNextBack, nextBack, if_pos hdone]
  · have hminus : minus w.back 1 = .ok (w.back - 1) := minus_of_le (by omega)
    cases hread : read (w.back - 1) <;>
      simp only [guardedNextBack, nextBack, if_neg hdone, hminus, hread]

def guardedRemaining (w : Walk) : Answer Nat := minus w.back w.front

def guardedBetween [GuardedBits V] (v : V) (lo hi : Nat) : Answer Walk := do
  let n ← GuardedBits.measure v
  return ⟨lo, min hi n⟩

/-- What a walk over the first `n` positions reads, and the number of positions that are
then left. -/
def visit (read : Nat → Answer α) (ends : List End) (n : Nat) :
    Answer (List (Option α) × Nat) := do
  let taken ← (steps (next read) (nextBack read) ends).ask (upTo n)
  return (taken.1, taken.2.remaining)

def guardedVisit (read : Nat → Answer α) (ends : List End) (n : Nat) :
    Answer (List (Option α) × Nat) := do
  let taken ← (steps (next read) (guardedNextBack read) ends).ask (upTo n)
  return (taken.1, ← guardedRemaining taken.2)

/-- The positions that hold `b` which a walk gives. -/
def visitHolding [Bits V] (v : V) (b : Bool) (ends : List End) (w : Walk) :
    Answer (List (Option Nat)) := do
  let taken ← (steps (nextHolding v b) (nextBackHolding v b) ends).ask w
  return taken.1

end Walk

/-! ## Vectors in words -/

namespace WordVec

variable {S : Type} [WordStore S]

/-- The length of a vector in words is kept and not found. -/
@[reducible] def guardedBits : GuardedBits (WordVec S) where
  toResizableBits := guarded
  measure v := .ok v.length

end WordVec

namespace WordVec.Guarded

variable {S : Type} [WordStore S]

def extendBits (memory : Allocator) (bits : List Bool) : Edit (WordVec S) Unit := do
  let n ← Edit.view length
  ensureCapacity memory (← plus n bits.length)
  bits.forM (push memory)

def includePosition (memory : Allocator) (i : Nat) : Edit (WordVec S) Unit := do
  let n ← Edit.view length
  if n ≤ i then setLength memory (← plus i 1)
  discard (set i true)

def extendPositions (memory : Allocator) (positions : List Nat) : Edit (WordVec S) Unit :=
  positions.forM (includePosition memory)

end WordVec.Guarded

/-! ## Copies -/

namespace Source

/-- A copy is made in a store under guard. -/
def guardedCopy (memory : Allocator) (s : Source) : Answer (WordVec Flat) := do
  let v ← @WordVec.withCapacity Flat .guarded memory s.length
  (@WordVec.Guarded.append Flat .guarded memory s).build v

def guardedCopyRange (memory : Allocator) (s : Source) (lo hi : Nat) :
    Answer (WordVec Flat) := do
  checkRange lo hi s.length
  let appendAll : Edit (WordVec Flat) Unit := visitWindows lo hi fun lo hi => do
    checkWindowEnd lo
    @WordVec.Guarded.appendBits Flat .guarded memory (← s.window lo hi) (← minus hi lo)
  let v ← @WordVec.withCapacity Flat .guarded memory (← minus hi lo)
  appendAll.build v

end Source

/-! ## Parts -/

namespace Part

namespace Guarded

variable {V : Type} [GuardedBits V]

def length (p : Part V) : Answer Nat := minus p.stop p.start

def of (v : V) (lo hi : Nat) : Answer (Part V) := do
  checkRange lo hi (← GuardedBits.measure v)
  return ⟨v, lo, hi⟩

def narrow (p : Part V) (lo hi : Nat) : Answer (Part V) := do
  checkRange lo hi (← length p)
  return ⟨p.backing, p.start + lo, p.start + hi⟩

def bit (p : Part V) (i : Nat) : Answer Bool := do
  checkIndex i (← length p)
  Bits.bit p.backing (p.start + i)

def window (p : Part V) (lo hi : Nat) : Answer Word := do
  guardedCheckWindow lo hi (← length p)
  Bits.window p.backing (p.start + lo) (p.start + hi)

def localPosition (p : Part V) (position : Option Nat) : Answer (Option Nat) :=
  match position.filter fun i => decide (p.start ≤ i ∧ i < p.stop) with
  | none => return none
  | some i => return some (← minus i p.start)

def next (p : Part V) (b : Bool) (i : Nat) : Answer (Option Nat) := do
  if (← length p) ≤ i then return none
  else localPosition p (← Bits.next p.backing b (p.start + i))

def previous (p : Part V) (b : Bool) (i : Nat) : Answer (Option Nat) := do
  let n ← length p
  localPosition p (← Bits.previous p.backing b (p.start + min i n))

def countOnes (p : Part V) : Answer Nat := do
  Source.countOnes ⟨← length p, bit p, window p⟩

/-! ### Changing in place -/

def set (i : Nat) (b : Bool) : Edit (Part V) Bool := do
  Edit.inspect fun p => do checkIndex i (← length p)
  onBackingFrom fun start => MutableBits.set (start + i) b

def setBits (lo width : Nat) (value : Word) : Edit (Part V) Unit := do
  Edit.inspect fun p => do guardedCheckWindow lo (lo + width) (← length p)
  onBackingFrom fun start => MutableBits.setBits (start + lo) width value

def fillRange (lo hi : Nat) (b : Bool) : Edit (Part V) Unit := do
  Edit.inspect fun p => do checkRange lo hi (← length p)
  onBackingFrom fun start => MutableBits.fillRange (start + lo) (start + hi) b

def flipRange (lo hi : Nat) : Edit (Part V) Unit := do
  Edit.inspect fun p => do checkRange lo hi (← length p)
  onBackingFrom fun start => MutableBits.flipRange (start + lo) (start + hi)

def combine (op : Connective) (other : Source) : Edit (Part V) Unit := do
  let n ← Edit.inspect fun p => do return min (← length p) other.length
  visitWindows 0 n fun lo hi => do
    let mine ← Edit.inspect (window · lo hi)
    setBits lo (← minus hi lo) (op.onWords mine (← other.window lo hi))

/-! ### Growing and shrinking -/

def reachEnd : Edit (Part V) Unit := do
  let stop ← Edit.inspect fun p => GuardedBits.measure p.backing
  modify fun p => ⟨p.backing, p.start, stop⟩

def editEnd (memory : Allocator) (edit : Edit V Unit) : Edit (Part V) Unit := do
  let stop ← Edit.view Part.stop
  let n ← Edit.inspect fun p => GuardedBits.measure p.backing
  if stop = n then
    onBacking edit
    reachEnd
  else
    let tail ← Edit.inspect fun p => do
      (← GuardedBits.source p.backing).guardedCopyRange memory stop n
    onBacking (ResizableBits.setLength memory stop)
    onBacking edit
    reachEnd
    let other ← @GuardedBits.source _ (@WordVec.guardedBits Flat .guarded) tail
    onBacking (ResizableBits.append memory other)

def setLength (memory : Allocator) (n : Nat) : Edit (Part V) Unit := do
  let start ← Edit.view Part.start
  editEnd memory (ResizableBits.setLength memory (← plus start n))

def insert (memory : Allocator) (i : Nat) (b : Bool) : Edit (Part V) Unit := do
  Edit.inspect fun p => do checkInsertIndex i (← length p)
  onBackingFrom fun start => ResizableBits.insert memory (start + i) b
  modify fun p => ⟨p.backing, p.start, p.stop + 1⟩

def remove (i : Nat) : Edit (Part V) Bool := do
  Edit.inspect fun p => do checkIndex i (← length p)
  let old ← onBackingFrom fun start => ResizableBits.remove (start + i)
  let stop ← Edit.inspect fun p => minus p.stop 1
  modify fun p => ⟨p.backing, p.start, stop⟩
  return old

def push (memory : Allocator) (b : Bool) : Edit (Part V) Unit := do
  insert memory (← Edit.inspect length) b

def appendBits (memory : Allocator) (w : Word) (count : Nat) : Edit (Part V) Unit := do
  let n ← Edit.inspect length
  require (count ≤ 64) (.spanTooWide n (n + count))
  editEnd memory (ResizableBits.appendBits memory w count)

def append (memory : Allocator) (other : Source) : Edit (Part V) Unit :=
  visitWindows 0 other.length fun lo hi => do
    appendBits memory (← other.window lo hi) (← minus hi lo)

end Guarded

/-- Parts with every difference under guard, over vectors under guard. -/
@[reducible] def guardedBits {V : Type} [GuardedBits V] : GuardedBits (Part V) where
  length p := p.stop - p.start
  measure := Guarded.length
  bit := Guarded.bit
  window := Guarded.window
  countOnes := Guarded.countOnes
  next := Guarded.next
  previous := Guarded.previous
  set := Guarded.set
  setBits := Guarded.setBits
  fillRange := Guarded.fillRange
  flipRange := Guarded.flipRange
  combine := Guarded.combine
  setLength := Guarded.setLength
  insert := Guarded.insert
  remove := Guarded.remove
  push := Guarded.push
  appendBits := Guarded.appendBits
  append := Guarded.append

end Part

/-! ## Sets of positions -/

namespace PositionSet.Guarded

variable {V : Type} [GuardedBits V]

def reach (s : PositionSet V) : Answer Nat :=
  return min s.upper (← GuardedBits.measure s.backing)

def admits (s : PositionSet V) (i : Nat) : Answer Bool := do
  let reach ← reach s
  return decide (s.lower ≤ i ∧ i < reach)

def contains (s : PositionSet V) (i : Nat) : Answer Bool := do
  if ← admits s i then Bits.bit s.backing i else return false

def size (s : PositionSet V) : Answer Nat := do
  let reach ← reach s
  if reach ≤ s.lower then return 0
  Part.Guarded.countOnes (← Part.Guarded.of s.backing s.lower reach)

def first (s : PositionSet V) : Answer (Option Nat) := do
  let reach ← reach s
  return (← Bits.next s.backing true s.lower).filter (· < reach)

def last (s : PositionSet V) : Answer (Option Nat) := do
  let reach ← reach s
  return (← Bits.previous s.backing true reach).filter (s.lower ≤ ·)

def isEmpty (s : PositionSet V) : Answer Bool := return (← first s).isNone

def walkFrom (s : PositionSet V) (lo : Nat) : Answer Walk := do
  let reach ← reach s
  Walk.guardedBetween s.backing (max lo s.lower) reach

def remove (i : Nat) : Edit (PositionSet V) Bool := do
  let admitted ← Edit.inspect (admits · i)
  if admitted then onBacking (MutableBits.set i false) else return false

def clear : Edit (PositionSet V) Unit := do
  let lower ← Edit.view PositionSet.lower
  let reach ← Edit.inspect reach
  if lower < reach then onBacking (MutableBits.fillRange lower reach false)

def insert (memory : Allocator) (i : Nat) : Edit (PositionSet V) Bool := do
  Edit.inspect fun s => require (s.lower ≤ i ∧ i < s.upper) (.outOfView i s.lower s.upper)
  let n ← Edit.inspect fun s => GuardedBits.measure s.backing
  if n ≤ i then onBacking (ResizableBits.setLength memory (i + 1))
  return !(← onBacking (MutableBits.set i true))

def extend (memory : Allocator) (positions : List Nat) : Edit (PositionSet V) Unit :=
  positions.forM fun i => discard (insert memory i)

end PositionSet.Guarded

/-! ## Lists of numbers -/

namespace FieldList.Guarded

variable {V : Type} [GuardedBits V]

def size (l : FieldList V) : Answer Nat := return (← GuardedBits.measure l.backing) / l.width

def get? (l : FieldList V) (i : Nat) : Answer (Option Word) := do
  if i < (← size l) then return some (← l.field i) else return none

def set (i : Nat) (value : Word) : Edit (FieldList V) Word := do
  Edit.inspect fun l => do checkIndex i (← size l)
  let width ← Edit.view FieldList.width
  Word.guardedCheckValue value width
  let old ← Edit.inspect fun l => l.field i
  onBacking (MutableBits.setBits (i * width) width value)
  return old

def push (memory : Allocator) (value : Word) : Edit (FieldList V) Unit := do
  let width ← Edit.view FieldList.width
  let n ← Edit.inspect size
  Word.guardedCheckValue value width
  resize memory n
  onBacking (ResizableBits.appendBits memory value width)

def pop (memory : Allocator) : Edit (FieldList V) (Option Word) := do
  let n ← Edit.inspect size
  if n = 0 then return none
  let last ← minus n 1
  let number ← Edit.inspect fun l => l.field last
  resize memory last
  return some number

def extend (memory : Allocator) (values : List Word) : Edit (FieldList V) Unit :=
  values.forM (push memory)

end FieldList.Guarded

end PackedBits
