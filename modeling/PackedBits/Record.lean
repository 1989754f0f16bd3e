import PackedBits.Stream
import PackedBits.WordVec.Adoption

/-!
# Vectors as records

A record is a vector as two fields, its length and its words, whatever the
store it came from. It becomes a vector again if it has exactly the words that
the length needs and no one past the length. In bytes a record is the length,
the number of words and the words, each in eight bytes with the lowest first.
-/

namespace PackedBits

/-- A length and words. -/
structure Record where
  /-- The number of bits. -/
  length : Nat
  /-- The words. -/
  words : Array Word
  deriving Repr, DecidableEq

/-- Why a record cannot be read. -/
inductive RecordFailure where
  /-- What is given has not the shape of a record. -/
  | malformed
  /-- A number of words that is not the one the length needs. -/
  | wordCount (words bits : Nat)
  /-- Words that cannot become the storage of a vector. -/
  | refused (failure : Failure)
  deriving DecidableEq, Repr

/-- The wording of a failure, where there is one of this library's own. -/
def RecordFailure.message? : RecordFailure → Option String
  | .malformed => none
  | .wordCount words bits =>
    let needed := wordsFor bits
    some s!"invalid length {words}, expected {needed} words for {bits} bits"
  | .refused failure => some failure.message

namespace Record

variable {S : Type} [WordStore S]

/-- The record of a vector. -/
def ofVector (v : WordVec S) : Answer Record := return ⟨v.length, ← v.words⟩

/-- The vector of a record. -/
def toVector (r : Record) : Except RecordFailure (WordVec S) :=
  if r.words.size = wordsFor r.length then
    (WordVec.ofWords r.words r.length).mapError .refused
  else .error (.wordCount r.words.size r.length)

/-- A record becomes the vector of its words, if there are as many as its length needs. -/
theorem toVector_eq_ok_iff {r : Record} {v : WordVec S} : r.toVector = .ok v ↔
    r.words.size = wordsFor r.length ∧ WordVec.ofWords r.words r.length = .ok v := by
  unfold toVector
  split
  · rename_i hcount
    rw [and_iff_right hcount]
    rcases (WordVec.ofWords r.words r.length : Answer (WordVec S)) with failure | u
    · exact ⟨nofun, nofun⟩
    · exact ⟨fun h => congrArg _ (Except.ok.inj h), fun h => congrArg _ (Except.ok.inj h)⟩
  · rename_i hcount
    exact ⟨nofun, fun h => absurd h.1 hcount⟩

/-- The record of whole numbers, each of which fits in a word. -/
def ofIntegers (length : Int) (words : List Int) : Except RecordFailure Record :=
  if (length :: words).all fun x => decide (0 ≤ x ∧ x.toNat ≤ maxPosition) then
    .ok ⟨length.toNat, (words.map (BitVec.ofInt 64)).toArray⟩
  else .error .malformed

/-- The bytes of a record. -/
def encode (r : Record) : List Byte :=
  Word.littleEndian (BitVec.ofNat 64 r.length) ++
    (Word.littleEndian (BitVec.ofNat 64 r.words.size) ++
      r.words.toList.flatMap Word.littleEndian)

/-- The word at the head of bytes, and the rest of the bytes. -/
def takeWord (bytes : List Byte) : Except RecordFailure (Word × List Byte) :=
  match Word.takeBytes bytes with
  | some (head, rest) => .ok (Word.ofLittleEndian head, rest)
  | none => .error .malformed

/-- A word in front of bytes is the one taken from them. -/
theorem takeWord_littleEndian (w : Word) (rest : List Byte) :
    takeWord (Word.littleEndian w ++ rest) = .ok (w, rest) := by
  rw [takeWord, Word.takeBytes_append (Word.length_littleEndian w)]
  exact congrArg (fun w => Except.ok (w, rest)) (Word.ofLittleEndian_littleEndian w)

/-- The record at the head of bytes. -/
def decode (bytes : List Byte) : Except RecordFailure Record := do
  let (length, bytes) ← takeWord bytes
  let (count, bytes) ← takeWord bytes
  let (words, _) ← foldUp 0 count.toNat (#[], bytes) fun (words, bytes) _ => do
    let (w, bytes) ← takeWord bytes
    return (words.push w, bytes)
  return ⟨length.toNat, words⟩

end Record

end PackedBits
