import PackedBits.Bits
import PackedBits.Edit
import PackedBits.Store

/-!
# Vectors of bits kept in words

A `WordVec` keeps its bits in the words of a store, position `i` at place
`bitOf i` of word `wordOf i`. In a vector in good order the store holds exactly
the words that the length needs, and the places of the last word past the
length are zeros; every operation keeps it so, which is why a count or a scan
may take whole words. `WordVec.tidy` is that condition.
-/

namespace PackedBits

/-- Bits kept in the words of a store. -/
structure WordVec (S : Type) where
  /-- The store of the words. -/
  store : S
  /-- The number of bits. -/
  length : Nat
  deriving Repr, DecidableEq

namespace WordVec

variable {S : Type} [WordStore S]

/-- The store of `v` holds the words that its length needs and no other, and no
one past the length. -/
def tidy (v : WordVec S) : Prop :=
  WordStore.size v.store = wordsFor v.length ∧
    ∀ i, i < wordsFor v.length → ∃ w, WordStore.word v.store i = .ok w ∧
      ∀ place, v.length ≤ 64 * i + place → w.getLsbD place = false

/-- The vector of no bits. -/
def empty : WordVec S := ⟨WordStore.empty, 0⟩

/-! ## Words -/

/-- The number of words that the bits take. -/
def wordCount (v : WordVec S) : Nat := wordsFor v.length

/-- The word at `i`. -/
def word (v : WordVec S) (i : Nat) : Answer Word := do
  checkIndex i v.wordCount
  WordStore.word v.store i

/-- All the words that the bits take. -/
def words (v : WordVec S) : Answer (Array Word) :=
  foldUp 0 v.wordCount #[] fun words i => return words.push (← v.word i)

/-! ## Reading -/

/-- The bit at `i`. -/
def bit (v : WordVec S) (i : Nat) : Answer Bool := do
  checkIndex i v.length
  return (← WordStore.word v.store (wordOf i)).getLsbD (bitOf i)

/-- The bits from `lo` up to `hi`, from one word or two neighbours. -/
def window (v : WordVec S) (lo hi : Nat) : Answer Word := do
  checkWindow lo hi v.length
  let width := hi - lo
  if width = 0 then return 0#64
  let low ← shiftDown (← WordStore.word v.store (wordOf lo)) (bitOf lo)
  if bitOf lo + width ≤ 64 then return low &&& Word.mask width
  let high ← shiftUp (← WordStore.word v.store (wordOf lo + 1)) (64 - bitOf lo)
  return (low ||| high) &&& Word.mask width

/-- The number of ones. -/
def countOnes (v : WordVec S) : Answer Nat :=
  foldUp 0 v.wordCount 0 fun count i =>
    return count + (← WordStore.word v.store i).ones

/-- The word at `k`, with a one at each place that holds `b`. -/
def holding (v : WordVec S) (b : Bool) (k : Nat) : Answer Word := do
  let w ← WordStore.word v.store k
  return if b then w else ~~~w

/-- The lowest position from `i` on that holds `b`: the lowest place of the
first word that has one. A zero past the last bit is none; a one never stands
there. -/
def next (v : WordVec S) (b : Bool) (i : Nat) : Answer (Option Nat) :=
  if v.length ≤ i then .ok none
  else do
    let found ← searchUp (wordOf i) (v.wordCount - wordOf i) fun k => do
      let below := Word.mask (max i (64 * k) - 64 * k)
      return ((← v.holding b k) &&& ~~~below).lowest?.map (64 * k + ·)
    return if b then found else found.filter (· < v.length)

/-- The highest position below `i` that holds `b`. -/
def previous (v : WordVec S) (b : Bool) (i : Nat) : Answer (Option Nat) :=
  let stop := min i v.length
  searchDown (wordsFor stop) fun k => do
    let below := Word.mask (min stop (64 * (k + 1)) - 64 * k)
    return ((← v.holding b k) &&& below).highest?.map (64 * k + ·)

instance : Bits (WordVec S) where
  length := length
  bit := bit
  window := window
  countOnes := countOnes
  next := next
  previous := previous

/-! ## Editing the store -/

/-- Edits the store of the words. -/
@[inline] def onStore {α : Type} (edit : Edit S α) : Edit (WordVec S) α := fun
  | ⟨store, length⟩ =>
    match edit store with
    | .ok a store => .ok a ⟨store, length⟩
    | .error failure store => .error failure ⟨store, length⟩

/-- Changes word `k`. -/
def modifyWord (k : Nat) (f : Word → Word) : Edit (WordVec S) Unit :=
  onStore (WordStore.modifyWord k f)

/-! ## Memory -/

/-- The number of bits that can be held with no further request. -/
def capacity (v : WordVec S) : Nat := min (64 * WordStore.capacity v.store) maxPosition

/-- Makes room for `n` bits in all. -/
def reserve (memory : Allocator) (n : Nat) : Edit (WordVec S) Unit :=
  onStore (WordStore.reserve memory (wordsFor n))

/-- Makes room for `n` bits in all; a refusal names `n`. -/
def ensureCapacity (memory : Allocator) (n : Nat) : Edit (WordVec S) Unit :=
  (reserve memory n).reword fun
    | .allocation => .cannotGrow n
    | failure => failure

/-- Gives back the room that no word takes. -/
def trim : WordVec S → WordVec S
  | ⟨store, length⟩ => ⟨WordStore.shrink store, length⟩

/-- The same bits in a store with no more room than they take. -/
def duplicate (v : WordVec S) : WordVec S := ⟨WordStore.duplicate v.store, v.length⟩

/-- The bytes of the vector in memory: those of its store and of its length. -/
def bytes (v : WordVec S) : Nat := WordStore.bytes v.store + wordBytes

/-! ## Text -/

/-- The text of a vector for a person: its length and its words. -/
def describe (v : WordVec S) : Answer String := do
  let n := v.length
  let words := (← v.words).toList.map fun w => "\"0x" ++ w.hex ++ "\""
  let list := ", ".intercalate words
  return s!"WordBitVector \x7b n_bits: {n}, words: [{list}] \x7d"

end WordVec

end PackedBits
