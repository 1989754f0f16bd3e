import PackedBits.Bits.Resizable
import PackedBits.WordVec.Mutable

/-!
# Growing and shrinking a vector of words

Growth makes room first and changes nothing if none is granted. Shrinking cuts
the words and clears the places past the new length, so that bits exposed by a
later growth are zeros. An insertion or a removal moves every word after it by
one place, with the bit that leaves one word entering its neighbour.
-/

namespace PackedBits

namespace WordVec

variable {S : Type} [WordStore S]

/-- Clears the places of the last word past the length. -/
def clearTail : Edit (WordVec S) Unit := do
  let n ← Edit.view length
  if bitOf n ≠ 0 then modifyWord (wordOf n) (· &&& Word.mask (bitOf n))

/-- Has the length `n` and the words that it needs. -/
def cutTo (n : Nat) : Edit (WordVec S) Unit := fun
  | ⟨store, _⟩ => .ok () ⟨WordStore.resize (wordsFor n) store, n⟩

/-- Keeps the first `n` bits. -/
def shorten (n : Nat) : Edit (WordVec S) Unit := do
  cutTo n
  clearTail

/-- Has the length `n`; bits beyond the old length are zeros. -/
def setLength (memory : Allocator) (n : Nat) : Edit (WordVec S) Unit := do
  let old ← Edit.view length
  if old < n then
    ensureCapacity memory n
    cutTo n
  else shorten n

/-- Puts a bit at the end. -/
def push (memory : Allocator) (b : Bool) : Edit (WordVec S) Unit := do
  let n ← Edit.view length
  if bitOf n = 0 then
    ensureCapacity memory (n + 1)
    onStore (modify (WordStore.resize (wordsFor n + 1)))
  if b then modifyWord (wordOf n) (· ||| 1#64 <<< bitOf n)
  modify fun ⟨store, _⟩ => ⟨store, n + 1⟩

/-- Puts the `count` lowest bits of `w` at the end. -/
def appendBits (memory : Allocator) (w : Word) (count : Nat) : Edit (WordVec S) Unit := do
  let n ← Edit.view length
  require (count ≤ 64) (.spanTooWide n (n + count))
  if count = 0 then return
  let bits := w &&& Word.mask count
  let k := wordOf n
  let place := bitOf n
  setLength memory (n + count)
  let low ← shiftUp bits place
  modifyWord k (· ||| low)
  if 64 < place + count then
    let high ← shiftDown bits (64 - place)
    modifyWord (k + 1) (· ||| high)

/-- Puts all the bits of `other` at the end, or none where there is no room for
all of them, or would be more of them than a machine word counts. -/
def append (memory : Allocator) (other : Source) : Edit (WordVec S) Unit := do
  let n ← Edit.view length
  ensureCapacity memory (← plus n other.length)
  visitWindows 0 other.length fun lo hi => do
    appendBits memory (← other.window lo hi) (hi - lo)

/-- Inserts a bit at `i` and moves the bits from there on up. -/
def insert (memory : Allocator) (i : Nat) (b : Bool) : Edit (WordVec S) Unit := do
  let n ← Edit.view length
  checkInsertIndex i n
  if i = n then push memory b
  else
    setLength memory (n + 1)
    let k := wordOf i
    visitDown (k + 1) (wordsFor (n + 1) - (k + 1)) fun k => do
      let lower ← minus k 1
      let below ← Edit.inspect fun v => WordStore.word v.store lower
      modifyWord k fun w => w <<< 1 ||| below >>> topPlace
    let low := Word.mask (bitOf i)
    let entering ← shiftUp ((BitVec.ofBool b).setWidth 64) (bitOf i)
    modifyWord k fun w => (w &&& ~~~low) <<< 1 ||| (w &&& low) ||| entering

/-- Removes the bit at `i`, moves the bits after it down, and gives it. -/
def remove (i : Nat) : Edit (WordVec S) Bool := do
  let n ← Edit.view length
  let old ← Edit.inspect (bit · i)
  if i + 1 = n then
    shorten i
    return old
  let k := wordOf i
  let low := Word.mask (bitOf i)
  modifyWord k fun w => (w >>> 1 &&& ~~~low) ||| (w &&& low)
  visitUp (k + 1) (wordsFor n - (k + 1)) fun k => do
    let w ← Edit.inspect fun v => WordStore.word v.store k
    modifyWord (← minus k 1) (· ||| (w &&& 1#64) <<< topPlace)
    modifyWord k fun _ => w >>> 1
  cutTo (← minus n 1)
  return old

instance : ResizableBits (WordVec S) where
  setLength := setLength
  insert := insert
  remove := remove
  push := push
  appendBits := appendBits
  append := append

end WordVec

end PackedBits
