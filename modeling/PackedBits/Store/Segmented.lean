import PackedBits.Store

/-!
# A store in segments

Word `i` lies in segment `i / 2 ^ shift` at displacement `i % 2 ^ shift`. Every
segment before the last one in use is full; segments past the last one in use
may stand in the list with no words, for the room they hold. No single request
for memory has to cover all the words.
-/

namespace PackedBits

/-- Words in segments of `2 ^ shift`. -/
structure Segmented (shift : Nat) where
  /-- The list of segments, those in use first. -/
  segments : Buffer (Buffer Word)
  /-- The number of words held. -/
  size : Nat
  deriving Repr, DecidableEq

namespace Segmented

variable {shift : Nat}

/-! ## Words, segments and displacements -/

/-- The number of words of a full segment. -/
def segmentSize (shift : Nat) : Nat := 1 <<< shift

/-- The highest displacement of a word in its segment. -/
def topDisplacement (shift : Nat) : Nat := segmentSize shift - 1

/-- The segment that holds word `i`. -/
def segmentOf (shift i : Nat) : Nat := i >>> shift

/-- The displacement of word `i` in its segment. -/
def displacement (shift i : Nat) : Nat := i % segmentSize shift

/-- The number of segments that hold `n` words. -/
def segmentsFor (shift n : Nat) : Nat := (n + topDisplacement shift) >>> shift

/-- The segments that hold `n` words can be counted: the sum that their number comes from is
one that a machine word counts. -/
def checkSize (shift n : Nat) : Answer Unit := discard (plus n (topDisplacement shift))

/-- The number of words in segment `s` of a store of `n` words. -/
def heldBy (shift s n : Nat) : Nat := min (n - s <<< shift) (segmentSize shift)

theorem segmentSize_pos (shift : Nat) : 0 < segmentSize shift := by
  rw [segmentSize, Nat.one_shiftLeft]
  exact Nat.two_pow_pos shift

/-- The segments of as many words as a list in memory can have can be counted. -/
theorem checkSize_of_le {n : Nat} (hshift : shift < 64) (h : n ≤ maxWords) :
    checkSize shift n = .ok () := by
  have htop : segmentSize shift ≤ 2 ^ 63 := by
    rw [segmentSize, Nat.one_shiftLeft]
    exact Nat.pow_le_pow_right (by decide) (Nat.le_of_lt_succ hshift)
  have hsum : n ≤ maxPosition - topDisplacement shift := by
    unfold maxWords maxBytes wordBytes at h
    unfold topDisplacement maxPosition
    omega
  rw [checkSize, plus_of_le hsum]
  rfl

/-- A word is recovered from its segment and its displacement. -/
theorem segmentOf_displacement (shift i : Nat) :
    segmentSize shift * segmentOf shift i + displacement shift i = i := by
  rw [segmentOf, displacement, Nat.shiftRight_eq_div_pow, segmentSize, Nat.one_shiftLeft]
  exact Nat.div_add_mod i _

/-! ## Reading -/

/-- The words that full segments at the head of a list can hold, and the first
one that is not full. -/
def usable (shift : Nat) : List (Buffer Word) → Nat
  | [] => 0
  | segment :: rest =>
    if segment.capacity < segmentSize shift then segment.capacity
    else segmentSize shift + usable shift rest

/-- The number of words the store can hold with no further request: the full
segments in use, and the room from the segment after them on, as far as it has
no gap. -/
def capacity (store : Segmented shift) : Nat :=
  let first := segmentOf shift store.size
  first <<< shift +
    usable shift (store.segments.items.extract first store.segments.size).toList

/-- The word at `i`. -/
def word (store : Segmented shift) (i : Nat) : Answer Word :=
  match store.segments.items[segmentOf shift i]? with
  | none => .error (.fault (.wordIndex (segmentOf shift i) store.segments.size))
  | some segment =>
    match segment.items[displacement shift i]? with
    | none => .error (.fault (.wordIndex (displacement shift i) segment.size))
    | some w => .ok w

/-- The segments in use. -/
def inUse (store : Segmented shift) : Array (Array Word) :=
  (store.segments.items.extract 0 (segmentsFor shift store.size)).map Buffer.items

/-- Takes a store apart into the segments in use. -/
def intoSegments (store : Segmented shift) : Array (Array Word) :=
  (store.segments.truncate (segmentsFor shift store.size)).items.map Buffer.items

/-! ## Editing -/

/-- Edits segment `s`. -/
def onSegment {α : Type} (s : Nat) (edit : Edit (Buffer Word) α) :
    Edit (Segmented shift) α := fun
  | ⟨segments, size⟩ =>
    match segments.items[s]? with
    | none => .error (.fault (.wordIndex s segments.size)) ⟨segments, size⟩
    | some segment =>
      match edit segment with
      | .ok a segment => .ok a ⟨segments.modify s fun _ => segment, size⟩
      | .error failure segment =>
        .error failure ⟨segments.modify s fun _ => segment, size⟩

/-- Edits the list of segments. -/
@[inline] def onSegments {α : Type} (edit : Edit (Buffer (Buffer Word)) α) :
    Edit (Segmented shift) α := fun
  | ⟨segments, size⟩ =>
    match edit segments with
    | .ok a segments => .ok a ⟨segments, size⟩
    | .error failure segments => .error failure ⟨segments, size⟩

/-- Changes the word at `i`. -/
def modifyWord (i : Nat) (f : Word → Word) : Edit (Segmented shift) Unit := fun
  | ⟨segments, size⟩ =>
    match segments.items[segmentOf shift i]? with
    | none => .error (.fault (.wordIndex (segmentOf shift i) segments.size)) ⟨segments, size⟩
    | some segment =>
      let held := segment.size
      if displacement shift i < held then
        .ok () ⟨segments.modify (segmentOf shift i) (·.modify (displacement shift i) f), size⟩
      else .error (.fault (.wordIndex (displacement shift i) held)) ⟨segments, size⟩

/-- Writes `value` from `lo` up to `hi`, one segment after the other; the
segments before one that refuses are written. -/
def fill (lo hi : Nat) (value : Word) : Edit (Segmented shift) Unit :=
  if hi ≤ lo then pure ()
  else
    let first := segmentOf shift lo
    visitUp first (segmentOf shift (hi - 1) + 1 - first) fun s =>
      let base := s <<< shift
      onSegment s
        (Buffer.fill (max lo base - base) (min (hi - base) (segmentSize shift)) value)

/-! ## Growing and shrinking -/

/-- The room to ask for in a segment that has `room` and needs `needed`: twice
what it has or what it needs, and never more than a full segment. -/
def roomToAsk (shift room needed : Nat) : Nat :=
  min (max needed (2 * room)) (segmentSize shift)

/-- Makes room for `needed` words in segment `s`. -/
def reserveIn (memory : Allocator) (s needed : Nat) : Edit (Segmented shift) Unit :=
  onSegment s fun segment =>
    if segment.capacity < needed then
      Buffer.reserveExact memory (.words s) (roomToAsk shift segment.capacity needed) segment
    else .ok () segment

/-- Makes room for `needed` words in all: first in the list of segments, then
in each segment from the last full one on. -/
def reserve (memory : Allocator) (needed : Nat) : Edit (Segmented shift) Unit := do
  let store ← get
  if store.capacity < needed then
    let first := segmentOf shift store.size
    let count := segmentsFor shift needed
    if store.segments.size < count then
      onSegments do
        Buffer.reserve memory .segments count
        modify (Buffer.resize count .empty)
    visitUp first (count - first) fun s => reserveIn memory s (heldBy shift s needed)

/-- Holds `n` words. Only the segments between the old end and the new one
change. -/
def resize (n : Nat) : Segmented shift → Segmented shift
  | ⟨segments, size⟩ =>
    let needed := segmentsFor shift n
    let segments := if segments.size < needed then segments.resize needed .empty else segments
    let first := segmentOf shift (min size n)
    let last := min (segmentsFor shift (max size n)) segments.size
    ⟨segments.modifyRange first (last - first) fun s => Buffer.resize (heldBy shift s n) 0, n⟩

/-- Gives back the segments that are not in use and the room that no word
takes. -/
def shrink : Segmented shift → Segmented shift
  | ⟨segments, size⟩ =>
    let segments := segments.truncate (segmentsFor shift size)
    ⟨.ofArray (segments.items.map Buffer.shrink), size⟩

/-- The same segments with no more room than their words take. -/
def duplicate (store : Segmented shift) : Segmented shift :=
  ⟨.ofArray (store.segments.items.map Buffer.shrink), store.size⟩

/-! ## Building -/

/-- Cuts words into segments, each with no more room than it takes. -/
def ofWords (words : Array Word) : Segmented shift :=
  let segments := (Array.range (segmentsFor shift words.size)).map fun s =>
    Buffer.ofArray (words.extract (s <<< shift) ((s + 1) <<< shift))
  ⟨.ofArray segments, words.size⟩

/-- Adopts segments: all but the last must be full, and the last not too
full. -/
def adopt (segments : Array (Array Word)) : Answer (Segmented shift) :=
  let full := segmentSize shift
  let last := segments.size - 1
  let bad := segments.toList.zipIdx.find? fun (segment, s) =>
    if s < last then segment.size != full else full < segment.size
  match bad with
  | some (segment, s) =>
    .error (.invalidAdoption (.segmentSize s segment.size full (decide (last ≤ s))))
  | none =>
    let size := segments.foldl (fun n segment => n + segment.size) 0
    .ok ⟨.ofArray (segments.map Buffer.ofArray), size⟩

/-- Adopts segments, and the list of them, with the room that they have. -/
def adoptBuffers (segments : Buffer (Buffer Word)) : Answer (Segmented shift) := do
  let store : Segmented shift ← adopt (segments.items.map Buffer.items)
  return ⟨segments, store.size⟩

/-- The bytes of the list of segments and the size, of each entry there is room
for and of each word there is room for. -/
def bytes (store : Segmented shift) : Nat :=
  listHeaderBytes + wordBytes + segmentEntryBytes * store.segments.capacity +
    store.segments.items.foldl (fun n segment => n + wordBytes * segment.capacity) 0

/-- The text of a store for a person: every segment in the list and the number
of words. -/
def describe (store : Segmented shift) : String :=
  let segments := store.segments.items.toList.map fun segment =>
    "[" ++ ", ".intercalate (segment.items.toList.map fun w => w.toNat.repr) ++ "]"
  let list := ", ".intercalate segments
  let size := store.size
  s!"Segments \x7b segments: [{list}], n_words: {size} \x7d"

instance : WordStore (Segmented shift) where
  empty := ⟨.empty, 0⟩
  ofBuffer buffer := ofWords buffer.items
  size := size
  capacity := capacity
  word := word
  modifyWord := modifyWord
  checkSize _ n := checkSize shift n
  reserve := reserve
  resize := resize
  shrink := shrink
  duplicate := duplicate
  bytes := bytes
  fill := fill

end Segmented

end PackedBits
