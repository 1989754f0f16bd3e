/-!
# Requests for memory

Growth asks for memory first, and what is granted is up to an `Allocator`: a
rule that answers each `Request`. Nothing else is known of it, so what is shown
of a growth for every allocator holds however its requests are answered.
-/

namespace PackedBits

/-- One request for memory. A store in one piece is segment 0. -/
inductive Request where
  /-- Room for `count` words in segment `segment`. -/
  | words (segment count : Nat)
  /-- Room for `count` entries in a list of segments. -/
  | segments (count : Nat)
  deriving DecidableEq, Repr

/-- The bytes of a word in memory. -/
def wordBytes : Nat := 8

/-- The bytes of the entry of a segment in the list of segments: where it is,
how many words it holds and how many it has room for. -/
def segmentEntryBytes : Nat := 24

/-- The bytes that a request asks for. -/
def Request.bytes : Request → Nat
  | .words _ count => wordBytes * count
  | .segments count => segmentEntryBytes * count

/-- Which requests for memory are granted. -/
structure Allocator where
  /-- Whether a request is granted. -/
  grants : Request → Bool

namespace Allocator

/-- Grants every request of at most `limit` bytes. -/
def upTo (limit : Nat) : Allocator where
  grants request := decide (request.bytes ≤ limit)

/-- Grants every request. -/
def unlimited : Allocator where
  grants _ := true

end Allocator

end PackedBits
