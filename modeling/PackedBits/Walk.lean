import PackedBits.Bits
import PackedBits.Edit

/-!
# Walks from both ends

A walk visits the positions between its two ends, each step taking one from the
front or from the back, until the ends meet; after that every step gives
nothing. A walk over all positions reads something at each of them; a walk over
the positions that hold a bit moves its ends by the scans of the vector, so its
cost goes with what it finds and not with what it passes over.
-/

namespace PackedBits

/-- The positions from `front` up to `back` are still to be visited. -/
structure Walk where
  /-- The first position to visit from the front. -/
  front : Nat
  /-- The position past the first one to visit from the back. -/
  back : Nat
  deriving Repr, DecidableEq

namespace Walk

variable {V α : Type}

/-- The walk over the first `n` positions. -/
def upTo (n : Nat) : Walk := ⟨0, n⟩

/-- The walk over the positions of a vector from `lo` up to `hi`. -/
def between [Bits V] (v : V) (lo hi : Nat) : Walk := ⟨lo, min hi (Bits.length v)⟩

/-- The number of positions still to be visited. -/
def remaining (w : Walk) : Nat := w.back - w.front

/-! ## All positions -/

/-- Reads at the next position from the front. -/
def next (read : Nat → Answer α) : Edit Walk (Option α) := fun ⟨front, back⟩ =>
  if back ≤ front then .ok none ⟨front, back⟩
  else
    match read front with
    | .ok a => .ok (some a) ⟨front + 1, back⟩
    | .error failure => .error failure ⟨front + 1, back⟩

/-- Reads at the next position from the back. -/
def nextBack (read : Nat → Answer α) : Edit Walk (Option α) := fun ⟨front, back⟩ =>
  if back ≤ front then .ok none ⟨front, back⟩
  else
    match read (back - 1) with
    | .ok a => .ok (some a) ⟨front, back - 1⟩
    | .error failure => .error failure ⟨front, back - 1⟩

/-! ## Positions that hold a bit -/

/-- The next position from the front that holds `b`. -/
def nextHolding [Bits V] (v : V) (b : Bool) : Edit Walk (Option Nat) := fun ⟨front, back⟩ =>
  if back ≤ front then .ok none ⟨front, back⟩
  else
    match Bits.next v b front with
    | .error failure => .error failure ⟨front, back⟩
    | .ok none => .ok none ⟨back, back⟩
    | .ok (some i) => if i < back then .ok (some i) ⟨i + 1, back⟩ else .ok none ⟨back, back⟩

/-- The next position from the back that holds `b`. -/
def nextBackHolding [Bits V] (v : V) (b : Bool) : Edit Walk (Option Nat) := fun ⟨front, back⟩ =>
  if back ≤ front then .ok none ⟨front, back⟩
  else
    match Bits.previous v b back with
    | .error failure => .error failure ⟨front, back⟩
    | .ok none => .ok none ⟨front, front⟩
    | .ok (some i) => if front ≤ i then .ok (some i) ⟨front, i⟩ else .ok none ⟨front, front⟩

/-! ## Whole walks -/

/-- What `step` gives until it gives nothing, at most `fuel` times, after
`found`. -/
def collect (step : Edit Walk (Option α)) (fuel : Nat) (found : Array α) (w : Walk) :
    Answer (Array α) :=
  match fuel with
  | 0 => .ok found
  | fuel + 1 =>
    match step w with
    | .error failure _ => .error failure
    | .ok none _ => .ok found
    | .ok (some a) w => collect step fuel (found.push a) w

/-- All that a walk gives from the front. A step that gives something leaves
fewer positions, so as many steps as there are positions are enough. -/
def toArray (step : Edit Walk (Option α)) (w : Walk) : Answer (Array α) :=
  collect step w.remaining #[] w

/-- The positions of `v` from `lo` up to `hi` that hold `b`, in increasing
order. -/
def positions [Bits V] (v : V) (b : Bool) (lo hi : Nat) : Answer (Array Nat) :=
  toArray (nextHolding v b) (between v lo hi)

end Walk

/-! ## Walks that keep their vector -/

/-- A vector of which `taken` bits have been asked for. -/
structure OwnedWalk (V : Type) where
  /-- The vector that is walked. -/
  vector : V
  /-- The number of steps so far. -/
  taken : Nat

namespace OwnedWalk

variable {V : Type} [Bits V]

/-- The walk that is at the start of `v`. -/
def of (v : V) : OwnedWalk V := ⟨v, 0⟩

/-- The next bit. -/
def next : Edit (OwnedWalk V) (Option Bool) := fun ⟨vector, taken⟩ =>
  match Bits.bit? vector taken with
  | .ok b => .ok b ⟨vector, taken + 1⟩
  | .error failure => .error failure ⟨vector, taken + 1⟩

/-- The number of bits still to come. -/
def remaining (w : OwnedWalk V) : Nat := Bits.length w.vector - w.taken

end OwnedWalk

end PackedBits
