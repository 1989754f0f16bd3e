/-!
# Machine words and the placement of bits in them

A bit vector keeps the bit at position `n` in word `wordOf n`, at place
`bitOf n` of that word, where place 0 is the least significant. This module
holds that arithmetic, the masks that cut a word, and the lowest and highest
place of a word that holds a one. The lemmas say which bits a mask has and
that a position is recovered from its word and its place.
-/

namespace PackedBits

/-- A machine word of 64 bits; place 0 is the least significant. -/
abbrev Word := BitVec 64

/-- Eight bits, the unit of the stream format. -/
abbrev Byte := BitVec 8

/-- The highest place of a word. -/
def topPlace : Nat := 63

/-- The largest position that a machine word can count. -/
def maxPosition : Nat := 1 <<< 64 - 1

/-- The most bytes that a list in memory can have: their number is one with a sign. -/
def maxBytes : Nat := 1 <<< 63 - 1

/-! ## Positions, words and places -/

/-- The number of words that hold `n` bits. -/
def wordsFor (n : Nat) : Nat := n / 64 + if n % 64 = 0 then 0 else 1

/-- The word that holds the bit at position `n`. -/
def wordOf (n : Nat) : Nat := n / 64

/-- The place of the bit at position `n` inside its word. -/
def bitOf (n : Nat) : Nat := n % 64

theorem bitOf_lt (n : Nat) : bitOf n < 64 := Nat.mod_lt n (by decide)

/-- A position is recovered from its word and its place. -/
theorem wordOf_bitOf (n : Nat) : 64 * wordOf n + bitOf n = n :=
  Nat.div_add_mod n 64

@[simp] theorem wordsFor_zero : wordsFor 0 = 0 := rfl

/-- The words for `n` bits hold at least `n` bits. -/
theorem le_wordsFor (n : Nat) : n ≤ 64 * wordsFor n := by
  simp only [wordsFor]
  split <;> omega

/-- No word too many: all but the last of the words for `n` bits are full. -/
theorem wordsFor_le (n : Nat) : 64 * wordsFor n < n + 64 := by
  simp only [wordsFor]
  split <;> omega

/-- A bit below `n` lies in one of the words for `n` bits. -/
theorem wordOf_lt_wordsFor {i n : Nat} (h : i < n) : wordOf i < wordsFor n := by
  have := le_wordsFor n
  simp only [wordOf]
  omega

/-- The highest place of `v` that holds a one; 0 where none does. -/
def highestPlace {n : Nat} (v : BitVec n) : Nat :=
  if v = 0#n then 0 else n - 1 - v.clz.toNat

/-! ## Words -/

namespace Word

/-- The word whose `len` lowest bits are ones; all 64 of them from 64 on. -/
def mask (len : Nat) : Word :=
  if 64 ≤ len then BitVec.allOnes 64 else 1#64 <<< len - 1#64

/-- The lowest place that holds a one. -/
def lowest? (w : Word) : Option Nat :=
  if w = 0#64 then none else some w.ctz.toNat

/-- The highest place that holds a one. -/
def highest? (w : Word) : Option Nat :=
  if w = 0#64 then none else some (highestPlace w)

/-- The number of ones. -/
def ones (w : Word) : Nat := w.cpop.toNat

/-- Whether the lowest place at which two words differ holds a zero in the
first of them; `false` for equal words. -/
def zeroFirst (a b : Word) : Bool :=
  match lowest? (a ^^^ b) with
  | none => false
  | some place => !a.getLsbD place

/-- Overwrites the places of `w` that `field` marks with zeros or ones. -/
def paint (field : Word) (bit : Bool) (w : Word) : Word :=
  if bit then w ||| field else w &&& ~~~field

/-- The sixteen lower-case hexadecimal digits of a word. -/
def hex (w : Word) : String := w.toHex

/-- A place below `len` is in the mask of `len` bits, and no other is. -/
theorem getLsbD_mask (len i : Nat) :
    (mask len).getLsbD i = (decide (i < 64) && decide (i < len)) := by
  simp only [mask]
  split
  · rename_i h
    rw [BitVec.getLsbD_allOnes]
    by_cases hi : i < 64
    · simp [hi, show i < len from Nat.lt_of_lt_of_le hi h]
    · simp [hi]
  · rename_i h
    have hlen : len < 64 := Nat.lt_of_not_le h
    have hpow : 2 ^ len < 2 ^ 64 := Nat.pow_lt_pow_right (by decide) hlen
    have htoNat : (1#64 <<< len - 1#64).toNat = 2 ^ len - 1 := by
      have hone : (1#64 <<< len).toNat = 2 ^ len := by
        rw [BitVec.toNat_shiftLeft, BitVec.toNat_ofNat, Nat.shiftLeft_eq,
          Nat.mod_eq_of_lt (by decide : 1 < 2 ^ 64), Nat.one_mul, Nat.mod_eq_of_lt hpow]
      have hle : 1#64 ≤ 1#64 <<< len := by
        rw [BitVec.le_def, hone]
        exact Nat.two_pow_pos len
      rw [BitVec.toNat_sub_of_le hle, hone]
      rfl
    rw [BitVec.getLsbD, htoNat, Nat.testBit_two_pow_sub_one]
    by_cases hi : i < len
    · simp [hi, show i < 64 by omega]
    · simp [hi]

/-- The lowest place holds a one and every lower place a zero. -/
theorem lowest?_eq_some {w : Word} {place : Nat} (h : lowest? w = some place) :
    w.getLsbD place = true ∧ ∀ i < place, w.getLsbD i = false := by
  unfold lowest? at h
  split at h
  · cases h
  · rename_i hne
    cases h
    exact ⟨BitVec.getLsbD_true_ctz_of_ne_zero hne,
      fun i hi => BitVec.getLsbD_false_of_lt_ctz hi⟩

end Word

end PackedBits
