import PackedBits.Check
import PackedBits.Traverse

/-!
# Sample inputs

Sequences to try a vector on, each fixed by a seed, and the complement of an
increasing sequence of positions, which lists the zeros of the vector whose
ones the sequence lists. The numbers come from a generator that is handed in.
-/

namespace PackedBits

/-- A generator of random numbers. -/
structure Generator where
  /-- So many words that a seed fixes. -/
  words : Word → Nat → List Word
  /-- So many bits that a seed fixes. -/
  bits : Word → Nat → List Bool
  /-- Distinct numbers that a seed fixes: those below a bound, so many of them. -/
  distinct : Word → (bound : Nat) → (count : Nat) → List Nat

namespace Sample

variable (random : Generator)

/-- `n` words that `seed` fixes. -/
def words (n : Nat) (seed : Word) : List Word := random.words seed n

/-- `n` bits that `seed` fixes. -/
def bits (n : Nat) (seed : Word) : List Bool := random.bits seed n

/-- The seed that the numbers of an increasing sequence come from. -/
def seedOf (n bound : Nat) : Word := BitVec.ofNat 64 n ^^^ BitVec.ofNat 64 bound

/-- `n` numbers below `bound` in increasing order. -/
def increasing (n bound : Nat) : Answer (List Nat) := do
  require (n ≤ bound) (.tooFewValues n bound)
  return (random.distinct (seedOf n bound) bound n).mergeSort

/-- No more numbers are asked for than there are, and those that the generator gives are
put in increasing order. -/
theorem increasing_eq_ok {n bound : Nat} {values : List Nat}
    (h : increasing random n bound = .ok values) :
    n ≤ bound ∧ values.Perm (random.distinct (seedOf n bound) bound n) ∧
      ((random.distinct (seedOf n bound) bound n).Nodup → values.Pairwise (· < ·)) := by
  by_cases hn : n ≤ bound
  · rw [increasing, require_eq_ok_iff.mpr hn] at h
    cases h
    have hperm := List.mergeSort_perm (random.distinct (seedOf n bound) bound n) (· ≤ ·)
    refine ⟨hn, hperm, fun hnodup => ?_⟩
    have hsorted : ((random.distinct (seedOf n bound) bound n).mergeSort (· ≤ ·)).Pairwise
        fun a b => decide (a ≤ b) = true :=
      List.pairwise_mergeSort (fun a b c => by simpa using Nat.le_trans)
        (fun a b => by simpa using Nat.le_total a b) _
    exact (hsorted.and (hperm.nodup_iff.mpr hnodup)).imp fun ⟨hle, hne⟩ =>
      Nat.lt_of_le_of_ne (of_decide_eq_true hle) hne
  · rw [increasing, require_eq_error_iff.mpr ⟨hn, rfl⟩] at h
    cases h

end Sample

/-! ## Complements -/

/-- One step through the positions below the last one: a position at the head
of what is left of the sequence is passed over and any other is kept. -/
def complementStep : Array Nat × List Nat → Nat → Array Nat × List Nat
  | (kept, []), i => (kept.push i, [])
  | (kept, head :: rest), i =>
    if head = i then (kept, rest) else (kept.push i, head :: rest)

/-- The positions up to the last of an increasing sequence that are not in it;
none for the sequence of no positions. How many there are is worked out first, which is
refused if the last position is the largest there is, or if the sequence has more
positions than there are up to its last. -/
def complement (positions : List Nat) : Answer (Array Nat) :=
  match positions.getLast? with
  | none => .ok #[]
  | some last => do
    let _ ← minus (← plus last 1) positions.length
    let (kept, _) ← foldUp 0 last (#[], positions) fun state i =>
      return complementStep state i
    return kept

end PackedBits
