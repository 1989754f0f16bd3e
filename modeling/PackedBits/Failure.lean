import PackedBits.Word

/-!
# Why an operation fails

Every operation that can be refused gives a `Failure`. Most are refusals of an
argument: a position, a range, a width or a value that the vector or the view
does not admit. Two say that memory was not granted, one that a number is past
all that a machine word counts, two that bytes or words handed in from outside
are not a bit vector, and `Failure.fault` is kept for steps that a correct vector
never takes: a word outside its store, a shift by a whole word, a difference
below zero. `Failure.message` is the wording.
-/

namespace PackedBits

/-- A step that no vector in good order takes. -/
inductive Fault where
  /-- A word past the end of a store of `size` words. -/
  | wordIndex (index size : Nat)
  /-- A range of words that is reversed or ends past a store of `size` words. -/
  | wordRange (lo hi size : Nat)
  /-- A shift of a word by its width or more. -/
  | shift (amount : Nat)
  /-- A difference whose second number is the larger. -/
  | belowZero (left right : Nat)
  deriving DecidableEq, Repr

/-- A step of arithmetic that makes a number larger. -/
inductive Arithmetic where
  | sum
  | product
  deriving DecidableEq, Repr

/-- Why words from outside cannot become the storage of a vector. -/
inductive AdoptionFault where
  /-- Fewer words than the bits need. -/
  | tooFewWords (words bits : Nat)
  /-- A word with a one past the last bit. -/
  | strayOnes (word bits : Nat)
  /-- A segment that is not full, or too full if it is the last. -/
  | segmentSize (segment words expected : Nat) (isLast : Bool)
  /-- Any other cause, in the words of whoever refused the storage. -/
  | other (cause : String)
  deriving DecidableEq, Repr

/-- Why a stream of bytes is not a bit vector, or a vector has no stream. -/
inductive FormatFault where
  /-- A length that the length field cannot hold. -/
  | lengthTooLarge (bits : Nat)
  /-- A length field below zero. -/
  | negativeLength (length : Int)
  /-- A last word with a one past the last bit. -/
  | strayOnes (bits : Nat)
  /-- Any other cause, in the words of whoever refused the stream. -/
  | other (cause : String)
  deriving DecidableEq, Repr

/-- Why an operation on bits is refused. -/
inductive Failure where
  /-- A position at or past the end. -/
  | indexOutOfBounds (index length : Nat)
  /-- A range that is reversed or ends past the end. -/
  | invalidRange (lo hi length : Nat)
  /-- A window of more than 64 positions. -/
  | spanTooWide (lo hi : Nat)
  /-- A position that a set of positions does not admit. -/
  | outOfView (position lo hi : Nat)
  /-- A value with a one at or past its width. -/
  | valueTooWide (value : Word) (width : Nat)
  /-- A width outside 1 to 64. -/
  | invalidWidth (width : Nat)
  /-- Words that cannot become storage. -/
  | invalidAdoption (cause : AdoptionFault)
  /-- A request for memory that was not granted. -/
  | allocation
  /-- A vector that could not grow to hold `bits` bits. -/
  | cannotGrow (bits : Nat)
  /-- A sum or a product past the largest number that a machine word counts. -/
  | overflow (step : Arithmetic)
  /-- Bytes that are not a bit vector. -/
  | invalidFormat (cause : FormatFault)
  /-- A reader with too few bytes or a writer with too little room. -/
  | inputOutput
  /-- More distinct numbers asked for than there are. -/
  | tooFewValues (count bound : Nat)
  /-- A step that no vector in good order takes. -/
  | fault (cause : Fault)
  deriving DecidableEq, Repr

/-! ## Wording -/

/-- The wording of a fault. -/
def Fault.message : Fault → String
  | .wordIndex _ _ => "index out of bounds"
  | .wordRange _ _ _ => "range out of bounds"
  | .shift amount => s!"shift by {amount} places"
  | .belowZero left right => s!"difference of {left} and {right} is below zero"

/-- The wording of a step that goes too far. -/
def Arithmetic.message : Arithmetic → String
  | .sum => "attempt to add with overflow"
  | .product => "attempt to multiply with overflow"

/-- The wording of a refused adoption. -/
def AdoptionFault.message : AdoptionFault → String
  | .tooFewWords words bits => s!"{words} words cannot hold {bits} bits"
  | .strayOnes word bits => s!"word {word} has bits set past length {bits}"
  | .segmentSize segment words expected isLast =>
    let bound := if isLast then "at most " else ""
    s!"segment {segment} holds {words} words, expected {bound}{expected}"
  | .other cause => cause

/-- The wording of a refused stream. -/
def FormatFault.message : FormatFault → String
  | .lengthTooLarge bits => s!"length {bits} does not fit in an i64"
  | .negativeLength length => s!"invalid length {length}"
  | .strayOnes bits => s!"last word has bits set past length {bits}"
  | .other cause => cause

/-- The wording of a failure. -/
def Failure.message : Failure → String
  | .indexOutOfBounds index length => s!"index {index} out of bounds for length {length}"
  | .invalidRange lo hi length => s!"invalid range [{lo}, {hi}) for length {length}"
  | .spanTooWide lo hi => s!"range [{lo}, {hi}) spans more than 64 bits"
  | .outOfView position lo hi => s!"position {position} outside view [{lo}, {hi})"
  | .valueTooWide value width =>
    let number := value.toNat
    s!"value {number} does not fit in {width} bits"
  | .invalidWidth width => s!"invalid width {width}: must be in [1, 64]"
  | .invalidAdoption cause =>
    let text := cause.message
    s!"cannot adopt storage: {text}"
  | .allocation => "allocation failed"
  | .cannotGrow bits => s!"cannot grow to {bits} bits: allocation failed"
  | .overflow step => step.message
  | .invalidFormat cause =>
    let text := cause.message
    s!"invalid format: {text}"
  | .inputOutput => "i/o error"
  | .tooFewValues count bound => s!"cannot pick {count} distinct values below {bound}"
  | .fault cause => cause.message

end PackedBits
