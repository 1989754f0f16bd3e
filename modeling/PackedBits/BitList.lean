import PackedBits.Bits.Resizable

/-!
# Vectors kept bit by bit

A `BitList` keeps each bit on its own, in a byte, and offers only what a vector owes:
reading and setting one bit, setting the length, inserting and removing. All
else it takes from those, so it is the plain reading of every operation. It asks for
memory like any list, and is refused it past the most bytes that a list can have.
-/

namespace PackedBits

/-- Bits kept one by one. -/
structure BitList where
  /-- The bits, from position 0. -/
  bits : Array Bool
  /-- There are no more of them than bytes in the longest list. -/
  fits : bits.size ≤ maxBytes
  deriving Repr, DecidableEq

namespace BitList

/-- The listed bits, if a list can have as many. -/
def ofArray (bits : Array Bool) : Answer BitList :=
  if fits : bits.size ≤ maxBytes then .ok { bits, fits } else .error .allocation

/-- The bit at `i`. -/
def bit (v : BitList) (i : Nat) : Answer Bool :=
  match v.bits[i]? with
  | some b => .ok b
  | none => .error (.indexOutOfBounds i v.bits.size)

/-- Sets the bit at `i` and gives what it was. -/
def set (i : Nat) (b : Bool) : Edit BitList Bool := fun ⟨bits, fits⟩ =>
  match bits[i]? with
  | some old => .ok old ⟨bits.setIfInBounds i b, by rwa [Array.size_setIfInBounds]⟩
  | none => .error (.indexOutOfBounds i bits.size) ⟨bits, fits⟩

/-- The first `n` bits, with zeros behind them where there are fewer. -/
def cutOrPad (bits : Array Bool) (n : Nat) : Array Bool :=
  bits.shrink n ++ Array.replicate (n - bits.size) false

theorem size_cutOrPad (bits : Array Bool) (n : Nat) : (cutOrPad bits n).size = n := by
  rw [cutOrPad, Array.size_append, Array.size_shrink, Array.size_replicate]
  omega

/-- Has the length `n`; bits beyond the old length are zeros. -/
def setLength (n : Nat) : Edit BitList Unit := fun ⟨bits, fits⟩ =>
  if h : n ≤ maxBytes then .ok () ⟨cutOrPad bits n, (size_cutOrPad bits n).symm ▸ h⟩
  else .error .allocation ⟨bits, fits⟩

theorem size_insertIdxIfInBounds_le (bits : Array Bool) (i : Nat) (b : Bool) :
    (bits.insertIdxIfInBounds i b).size ≤ bits.size + 1 := by
  unfold Array.insertIdxIfInBounds
  split
  · exact Nat.le_of_eq (Array.size_insertIdx ..)
  · exact Nat.le_succ _

/-- Inserts a bit at `i` and moves the bits from there on up. -/
def insert (i : Nat) (b : Bool) : Edit BitList Unit := fun ⟨bits, fits⟩ =>
  if i ≤ bits.size then
    if h : bits.size < maxBytes then
      .ok () ⟨bits.insertIdxIfInBounds i b,
        Nat.le_trans (size_insertIdxIfInBounds_le bits i b) h⟩
    else .error .allocation ⟨bits, fits⟩
  else .error (.indexOutOfBounds i bits.size) ⟨bits, fits⟩

theorem size_eraseIdxIfInBounds_le (bits : Array Bool) (i : Nat) :
    (bits.eraseIdxIfInBounds i).size ≤ bits.size := by
  unfold Array.eraseIdxIfInBounds
  split
  · rw [Array.size_eraseIdx]
    exact Nat.sub_le _ _
  · exact Nat.le_refl _

/-- Removes the bit at `i`, moves the bits after it down, and gives it. -/
def remove (i : Nat) : Edit BitList Bool := fun ⟨bits, fits⟩ =>
  match bits[i]? with
  | some old => .ok old ⟨bits.eraseIdxIfInBounds i,
      Nat.le_trans (size_eraseIdxIfInBounds_le bits i) fits⟩
  | none => .error (.indexOutOfBounds i bits.size) ⟨bits, fits⟩

instance : ResizableBits BitList where
  length v := v.bits.size
  bit := bit
  set := set
  setLength _ := setLength
  insert _ := insert
  remove := remove

end BitList

end PackedBits
