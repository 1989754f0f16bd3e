import PackedBits.Word.Bytes
import PackedBits.WordVec.Resizable

/-!
# Vectors as streams of bytes

A vector is written as its length and then its words, each in eight bytes with
the highest first. The length is a number with a sign, so a length from `2 ^ 63`
on cannot be written and one below zero is refused; the last word has no one
past the length, so a vector has one written form. Memory for a long vector is
asked for as its words arrive.
-/

namespace PackedBits

/-! ## Where bytes go -/

/-- Bytes written so far, and how many more are accepted; `none` is without
bound. -/
structure Sink where
  /-- The bytes written so far. -/
  written : Array Byte
  /-- The number of bytes that are still accepted. -/
  room : Option Nat

namespace Sink

/-- Nothing written yet, with room for `room` bytes. -/
def fresh (room : Option Nat) : Sink := ⟨#[], room⟩

/-- Writes bytes, or as many of them as there is room for and then fails. -/
def put (bytes : List Byte) : Edit Sink Unit := fun
  | ⟨written, none⟩ => .ok () ⟨written ++ bytes, none⟩
  | ⟨written, some room⟩ =>
    if bytes.length ≤ room then .ok () ⟨written ++ bytes, some (room - bytes.length)⟩
    else .error .inputOutput ⟨written ++ bytes.take room, some 0⟩

end Sink

namespace Stream

/-! ## Writing -/

/-- The largest length that can be written. -/
def maxLength : Nat := 1 <<< 63 - 1

/-- Writes a vector. -/
def write (s : Source) : Edit Sink Unit := do
  require (s.length ≤ maxLength) (.invalidFormat (.lengthTooLarge s.length))
  Sink.put (Word.bigEndian (BitVec.ofNat 64 s.length))
  visitWindows 0 s.length fun lo hi => do
    Sink.put (Word.bigEndian (← s.window lo hi))

/-! ## Reading -/

/-- The number of bits that room is made for before the first word arrives. -/
def reservedAtFirst : Nat := 1 <<< 26

/-- The word at the head of a stream, and the rest of the stream. -/
def readWord (bytes : List Byte) : Answer (Word × List Byte) :=
  match Word.takeBytes bytes with
  | some (head, rest) => .ok (Word.ofBigEndian head, rest)
  | none => .error .inputOutput

variable {S : Type} [WordStore S]

/-- Puts the vector at the head of a stream at the end of an empty one, and
gives the rest of the stream. -/
def readWords (memory : Allocator) (bytes : List Byte) : Edit (WordVec S) (List Byte) := do
  let (field, bytes) ← readWord bytes
  require (0 ≤ field.toInt) (.invalidFormat (.negativeLength field.toInt))
  let n := field.toNat
  WordVec.reserve memory (min n reservedAtFirst)
  let bytes ← foldUp 0 (n / 64) bytes fun bytes _ => do
    let (w, bytes) ← readWord bytes
    WordVec.appendBits memory w 64
    return bytes
  let width := bitOf n
  if width = 0 then return bytes
  let (w, bytes) ← readWord bytes
  require (w &&& ~~~Word.mask width = 0#64) (.invalidFormat (.strayOnes n))
  WordVec.appendBits memory w width
  return bytes

/-- What a failed read leaves of the words that it has read: none, unless room for
the next one was refused, which ends the read at once. -/
def discardWords : Failure → Edit (WordVec S) Unit
  | .cannotGrow _ => pure ()
  | _ => WordVec.shorten 0

/-- Has the bits of the vector at the head of a stream and no other, and gives
the rest of the stream; what is no vector leaves no bits. -/
def readInto (memory : Allocator) (bytes : List Byte) : Edit (WordVec S) (List Byte) := do
  WordVec.shorten 0
  (readWords memory bytes).onFailure discardWords

/-- The vector at the head of a stream. -/
def read (memory : Allocator) (bytes : List Byte) : Answer (WordVec S) :=
  (do discard (readInto memory bytes) : Edit (WordVec S) Unit).build WordVec.empty

end Stream

end PackedBits
