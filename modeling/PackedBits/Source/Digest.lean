import PackedBits.Source

/-!
# The digest of a source

A digest of 32 bits that depends on the length and the bits alone, so it is the
same however the bits are kept. Windows are folded into a word from the first
on, with arithmetic that wraps.
-/

namespace PackedBits

namespace Source

/-- The word that digests start from, before the length. -/
def digestSeed : Word := 0x9e3779b97f4a7c13#64

/-- Folds one window into a digest. -/
def digestStep (h w : Word) : Word := h ^^^ ((h <<< 5) + w + (h >>> 2))

/-- The word that digests end with, after the last window. -/
def digestWord (s : Source) : Answer Word :=
  foldWindows 0 s.length (digestSeed ^^^ BitVec.ofNat 64 s.length) fun h lo hi =>
    return digestStep h (← s.window lo hi)

/-- The digest of a sequence of bits. -/
def digest (s : Source) : Answer (BitVec 32) := do
  let h ← digestWord s
  return ((h >>> 32) ^^^ h).setWidth 32

/-- What a sequence of bits feeds to a hasher of 32-bit values: its digest and
nothing else. -/
def hasherFeed (s : Source) : Answer (List (BitVec 32)) := return [← digest s]

end Source

end PackedBits
