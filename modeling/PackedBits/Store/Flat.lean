import PackedBits.Store

/-!
# A store in one piece

The words lie in one buffer, whose capacity is the capacity of the store, so there
are no more of them than a list in memory can have. A range of words is written at
once, and refused whole unless it lies within the words held.
-/

namespace PackedBits

/-- Words in one buffer. -/
structure Flat where
  /-- The buffer of the words. -/
  buffer : Buffer Word
  deriving Repr, DecidableEq

namespace Flat

/-- Edits the buffer of the words. -/
@[inline] def onBuffer {α : Type} (edit : Edit (Buffer Word) α) : Edit Flat α := fun
  | ⟨buffer⟩ =>
    match edit buffer with
    | .ok a buffer => .ok a ⟨buffer⟩
    | .error failure buffer => .error failure ⟨buffer⟩

/-- The word at `i`. -/
def word (store : Flat) (i : Nat) : Answer Word :=
  match store.buffer.items[i]? with
  | some w => .ok w
  | none => .error (.fault (.wordIndex i store.buffer.size))

/-- Changes the word at `i`. -/
def modifyWord (i : Nat) (f : Word → Word) : Edit Flat Unit := fun
  | ⟨buffer⟩ =>
    if i < buffer.size then .ok () ⟨buffer.modify i f⟩
    else .error (.fault (.wordIndex i buffer.size)) ⟨buffer⟩

instance : WordStore Flat where
  empty := ⟨.empty⟩
  ofBuffer := .mk
  size store := store.buffer.size
  capacity store := store.buffer.capacity
  word := word
  modifyWord := modifyWord
  checkSize _ n := require (n ≤ maxWords) .allocation
  reserve memory needed := onBuffer (Buffer.reserve memory (.words 0) needed)
  resize n store := ⟨store.buffer.resize n 0⟩
  shrink store := ⟨store.buffer.shrink⟩
  duplicate store := ⟨.ofArray store.buffer.items⟩
  bytes store := listHeaderBytes + wordBytes * store.buffer.capacity
  fill lo hi value := onBuffer (Buffer.fill lo hi value)

end Flat

end PackedBits
