import PackedBits.Proofs.Encoding
import PackedBits.Proofs.Order
import PackedBits.Source.Digest

/-!
# The digest is a function of the bits

`digestOf` is the digest said through bits alone: their 64-bit chunks, the last
one filled up with zeros, are folded into a word that starts from the seed and
the length. `Readable.digest_agree` says that every vector that can be read has the
digest of its bits, so that vectors with the same bits have the same digest
however they are kept, and equal vectors feed the same value to a hasher.
-/

namespace PackedBits

/-- The digest of bits: each chunk `w` turns `h` into
`h ^ ((h << 5) + w + (h >> 2))`, and the two halves of the last word are put
together. -/
def digestOf (bits : List Bool) : BitVec 32 :=
  let chunks := (List.range (wordsFor bits.length)).map (Stream.packed bits)
  let h : Word := chunks.foldl (fun h w => h ^^^ ((h <<< 5) + w + (h >>> 2)))
    (0x9e3779b97f4a7c13#64 ^^^ BitVec.ofNat 64 bits.length)
  ((h >>> 32) ^^^ h).setWidth 32

namespace Source

variable {s : Source} {bits : List Bool}

/-- Each window is a chunk of the bits. -/
theorem Reads.digestStep_eq (h : s.Reads bits) (acc : Word) {k : Nat}
    (hk : k < wordsFor bits.length) :
    (do return digestStep acc (← s.window (0 + 64 * k) (min (0 + 64 * (k + 1)) bits.length)) :
      Answer Word) = .ok (digestStep acc (Stream.packed bits k)) := by
  have hcount := wordsFor_le bits.length
  obtain ⟨w, hread, hw⟩ := h.window_eq (64 * k) (min (64 * (k + 1)) bits.length) (by omega)
    (by omega) (by omega)
  rw [Nat.zero_add, Nat.zero_add, hread, Stream.eq_packed_of_window hw]
  rfl

theorem Reads.digestWord_eq (h : s.Reads bits) : s.digestWord =
    .ok (((List.range (wordsFor bits.length)).map (Stream.packed bits)).foldl digestStep
      (digestSeed ^^^ BitVec.ofNat 64 bits.length)) := by
  rw [digestWord, foldWindows, h.length_eq, List.foldl_map, List.range_eq_range']
  apply foldUp_eq_ok
  intro acc k _ hk
  rw [Nat.zero_add] at hk
  exact h.digestStep_eq acc hk

theorem Reads.digest_eq (h : s.Reads bits) : s.digest = .ok (digestOf bits) := by
  rw [digest, h.digestWord_eq]
  rfl

theorem Reads.hasherFeed_eq (h : s.Reads bits) : s.hasherFeed = .ok [digestOf bits] := by
  rw [hasherFeed, h.digest_eq]
  rfl

end Source

/-- Vectors of any two types with the same bits have the same digest, that of the
bits; vectors that are equal feed a hasher the same values. -/
theorem Readable.digest_agree {V W : Type} [Bits V] [Bits W] {v : V} {w : W} {bits : List Bool}
    (hv : Readable v) (hw : Readable w) (hbits : Bits.toArray v = .ok bits.toArray) :
    (Bits.source v).digest = .ok (digestOf bits) ∧
      (Bits.toArray w = Bits.toArray v → (Bits.source w).digest = .ok (digestOf bits)) ∧
      ((Bits.source v).equal (Bits.source w) = .ok true →
        (Bits.source v).hasherFeed = .ok [digestOf bits] ∧
          (Bits.source w).hasherFeed = .ok [digestOf bits]) := by
  have hreads : (Bits.source v).Reads bits := hv.reads hbits
  obtain ⟨held, hheld⟩ := hw.exists_reads
  refine ⟨hreads.digest_eq, fun hsame => (hw.reads (hsame.trans hbits)).digest_eq, fun hequal => ?_⟩
  cases hreads.eq_of_equal hheld hequal
  exact ⟨hreads.hasherFeed_eq, hheld.hasherFeed_eq⟩

/-- Seventy ones: a part, off the seams, of a vector kept in segments, with zeros
on both sides, and a vector that is stored nowhere. -/
theorem Readable.digest_agree_over_a_seam :
    let script : Script := .andThen (.change .unlimited (.setLength 75) trivial) <|
      .andThen (.change .unlimited .flipAll trivial) <|
      .andThen (.change .unlimited (.set 2 false) trivial) <|
      .change .unlimited (.set 73 false) trivial
    let ground : WordVec (StoreKind.segmented 0).Store := script.run.after WordVec.empty
    let v : Part (WordVec (StoreKind.segmented 0).Store) := ⟨ground, 3, 73⟩
    let w : Uniform := ⟨70, true⟩
    let bits := List.replicate 70 true
    Readable v ∧ Readable w ∧ Bits.toArray v = .ok bits.toArray ∧
      (Bits.source v).digest = .ok (digestOf bits) ∧
      (Bits.source w).digest = .ok (digestOf bits) ∧
      (Bits.source v).hasherFeed = (Bits.source w).hasherFeed := by
  intro script ground v w bits
  have hground : Readable ground := .words (.segmented 0) (.script script .empty)
  have hv : Readable v := .part 3 73 hground (Part.of_eq_ok (by decide) (by decide +kernel))
  have hw : Readable w := .uniform w
  have hbits : Bits.toArray v = .ok bits.toArray := by decide +kernel
  have hsame : Bits.toArray w = Bits.toArray v := by decide +kernel
  have hequal : (Bits.source v).equal (Bits.source w) = .ok true := by decide +kernel
  obtain ⟨hdigest, hother, hfed⟩ := Readable.digest_agree hv hw hbits
  exact ⟨hv, hw, hbits, hdigest, hother hsame, (hfed hequal).1.trans (hfed hequal).2.symm⟩

end PackedBits
