import PackedBits.Bits.Mutable
import PackedBits.WordVec

/-!
# Changing a vector of words in place

A field, a range or a whole other vector is written a word at a time. A field
lies in one word or in two neighbours; a range has a part of its first word,
all of the words between, and a part of its last one.
-/

namespace PackedBits

/-- Combines the places of `w` that `field` marks with those of `bits`, which
has no one elsewhere. -/
def Connective.onField : Connective → Word → Word → Word → Word
  | .both, field, bits, w => w &&& (bits ||| ~~~field)
  | .either, _, bits, w => w ||| bits
  | .differ, _, bits, w => w ^^^ bits

/-- Replaces the places of `w` that `field` marks with those of `bits`, which
has no one elsewhere. -/
def Word.overwrite (field bits w : Word) : Word := (w &&& ~~~field) ||| bits

namespace WordVec

variable {S : Type} [WordStore S]

/-- Sets the bit at `i` and gives what it was. -/
def set (i : Nat) (b : Bool) : Edit (WordVec S) Bool := do
  let old ← Edit.inspect (bit · i)
  modifyWord (wordOf i) (Word.paint (1#64 <<< bitOf i) b)
  return old

/-- Writes `value` into the field of `width` bits at `lo`. -/
def setBits (lo width : Nat) (value : Word) : Edit (WordVec S) Unit := do
  Edit.inspect fun v => checkWindow lo (lo + width) v.length
  checkValue value width
  if width = 0 then return
  let k := wordOf lo
  let place := bitOf lo
  let field := Word.mask width
  modifyWord k (Word.overwrite (← shiftUp field place) (← shiftUp value place))
  let stored ← minus 64 place
  if stored < width then
    modifyWord (k + 1) (Word.overwrite (← shiftDown field stored) (← shiftDown value stored))

/-- Runs `first` on the part of the first word, `between` on the words after
it and `last` on the part of the last word of the range from `lo` up to `hi`.
The parts are given as masks; a range within one word has one part. -/
@[inline] def onRange (lo hi : Nat) (part : Nat → Word → Edit (WordVec S) Unit)
    (between : Nat → Nat → Edit (WordVec S) Unit) : Edit (WordVec S) Unit := do
  Edit.inspect fun v => checkRange lo hi v.length
  if lo = hi then return
  let k := wordOf lo
  let l := wordOf hi
  if k = l then
    part k (← shiftUp (Word.mask (hi - lo)) (bitOf lo))
  else
    part k (← shiftUp (BitVec.allOnes 64) (bitOf lo))
    between (k + 1) l
    if bitOf hi ≠ 0 then part l (Word.mask (bitOf hi))

/-- Sets every bit from `lo` up to `hi`. -/
def fillRange (lo hi : Nat) (b : Bool) : Edit (WordVec S) Unit :=
  onRange lo hi (fun k field => modifyWord k (Word.paint field b))
    fun k l => onStore (WordStore.fill k l (if b then BitVec.allOnes 64 else 0#64))

/-- Flips every bit from `lo` up to `hi`. -/
def flipRange (lo hi : Nat) : Edit (WordVec S) Unit :=
  onRange lo hi (fun k field => modifyWord k (· ^^^ field))
    fun k l => visitUp k (l - k) fun k => modifyWord k (· ^^^ BitVec.allOnes 64)

/-- Combines each bit with the bit of `other` at the same position, as far as
both reach. -/
def combine (op : Connective) (other : Source) : Edit (WordVec S) Unit := do
  let n ← Edit.view fun v => min v.length other.length
  visitWindows 0 n fun lo hi => do
    let bits ← other.window lo hi
    modifyWord (wordOf lo) (op.onField (Word.mask (hi - lo)) bits)

instance : MutableBits (WordVec S) where
  set := set
  setBits := setBits
  fillRange := fillRange
  flipRange := flipRange
  combine := combine

end WordVec

end PackedBits
