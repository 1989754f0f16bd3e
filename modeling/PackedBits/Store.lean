import PackedBits.Buffer
import PackedBits.Traverse

/-!
# Stores of words

A word store is a growable list of words: its size says how many words it
holds, its capacity how many it can hold with no further request for memory.
Words are read and changed below the size only. A store never gives memory back
on its own; `shrink` does.

A store may be asked for more words than there can be in its form. `checkSize` says
which sizes those are, and `request` and `setSize` refuse them. No vector of bits needs
so many words, so a vector goes to `reserve` and `resize` at once.
-/

namespace PackedBits

/-- A growable list of words. -/
class WordStore (S : Type) where
  /-- No words and no room. -/
  empty : S
  /-- The words of a buffer. -/
  ofBuffer : Buffer Word → S
  /-- The number of words held. -/
  size : S → Nat
  /-- The number of words that can be held with no further request. -/
  capacity : S → Nat
  /-- The word at a position below the size. -/
  word : S → Nat → Answer Word
  /-- Changes the word at a position below the size. -/
  modifyWord : Nat → (Word → Word) → Edit S Unit
  /-- The store can have so many words. -/
  checkSize : S → Nat → Answer Unit := fun _ _ => .ok ()
  /-- Makes room for a number of words in all. -/
  reserve : Allocator → Nat → Edit S Unit
  /-- Holds a number of words; words beyond those held are zero. -/
  resize : Nat → S → S
  /-- Gives back the room that no word takes. -/
  shrink : S → S
  /-- The same words with no more room than they take. -/
  duplicate : S → S
  /-- The bytes of the store in memory. -/
  bytes : S → Nat
  /-- Writes `value` to every word from `lo` up to `hi`. -/
  fill (lo hi : Nat) (value : Word) : Edit S Unit :=
    visitUp lo (hi - lo) fun i => modifyWord i fun _ => value

namespace WordStore

variable {S : Type} [WordStore S]

/-- A store with exactly these words and no more room. -/
def ofArray (words : Array Word) : S := ofBuffer (Buffer.ofArray words)

/-- All the words of a store, from the first. -/
def words (store : S) : Answer (Array Word) :=
  foldUp 0 (size store) #[] fun words i => return words.push (← word store i)

/-- Replaces the word at a position below the size. -/
def setWord (i : Nat) (value : Word) : Edit S Unit := modifyWord i fun _ => value

/-- Makes room for `n` words in all, if there is not enough and there can be so many. -/
def request (memory : Allocator) (n : Nat) : Edit S Unit := do
  let store ← get
  if capacity store < n then checkSize store n
  reserve memory n

/-- Holds `n` words, if there can be so many; words beyond those held are zero. -/
def setSize (n : Nat) : Edit S Unit := do
  checkSize (← get) n
  modify (resize n)

end WordStore

/-- The most words that a list in memory can have. -/
def maxWords : Nat := maxBytes / wordBytes

/-- The bytes of the three numbers that describe a list in memory: where it is,
how many items it holds and how many it has room for. -/
def listHeaderBytes : Nat := 24

end PackedBits
