import PackedBits.Source

/-!
# Comparing sources

Two sequences of bits are compared a window at a time. The first window in
which they differ decides, and in it the lowest place at which they differ; a
sequence that runs out first is the smaller one.
-/

namespace PackedBits

namespace Source

/-- The first window in which two sources differ below `n`: where it begins and
the two words. -/
def firstDifference (a b : Source) (n : Nat) : Answer (Option (Nat × Word × Word)) :=
  searchWindows 0 n fun lo hi => do
    let left ← a.window lo hi
    let right ← b.window lo hi
    return if left = right then none else some (lo, left, right)

/-- The length of the longest common prefix. -/
def commonPrefix (a b : Source) : Answer Nat := do
  let n := min a.length b.length
  match ← firstDifference a b n with
  | none => return n
  | some (lo, left, right) => return lo + (left ^^^ right).lowest?.getD 0

/-- Whether `a` is a prefix of `b`. -/
def isPrefixOf (a b : Source) : Answer Bool := do
  if a.length ≤ b.length then return (← commonPrefix a b) == a.length
  else return false

/-- Whether `a` is a prefix of `b` and shorter. -/
def isProperPrefixOf (a b : Source) : Answer Bool :=
  if a.length < b.length then isPrefixOf a b else return false

/-- The lexicographic order with zero below one; a proper prefix comes
first. -/
def compare (a b : Source) : Answer Ordering := do
  match ← firstDifference a b (min a.length b.length) with
  | none => return Ord.compare a.length b.length
  | some (_, left, right) => return if left.zeroFirst right then .lt else .gt

/-- Whether the bits from `lo` up to `hi` are the same. -/
def equalOn (a b : Source) (lo hi : Nat) : Answer Bool := do
  checkRange lo hi a.length
  checkRange lo hi b.length
  let differs ← searchWindows lo hi fun lo hi => do
    let left ← a.window lo hi
    let right ← b.window lo hi
    return if left = right then none else some ()
  return differs.isNone

/-- Whether the lengths and the bits are the same. -/
def equal (a b : Source) : Answer Bool :=
  if a.length = b.length then equalOn a b 0 a.length else return false

/-- Puts `v` in front of the first item that does not come before it. -/
def insertInOrder {V : Type} (source : V → Source) (v : V) : List V → Answer (List V)
  | [] => return [v]
  | head :: rest => do
    match ← compare (source head) (source v) with
    | .lt => return head :: (← insertInOrder source v rest)
    | _ => return v :: head :: rest

/-- The items in the order of their bits. -/
def sorted {V : Type} (source : V → Source) : List V → Answer (List V)
  | [] => return []
  | v :: rest => do insertInOrder source v (← sorted source rest)

end Source

end PackedBits
