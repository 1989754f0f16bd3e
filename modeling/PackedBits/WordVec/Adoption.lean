import PackedBits.Store.Segmented
import PackedBits.WordVec

/-!
# Vectors over words from outside

Words handed in become a vector of a given length when there are enough of them
and no one stands past the length, in the last word needed or in any after it.
Words past the last one needed are dropped. Words with room to spare keep it.
-/

namespace PackedBits

namespace WordVec

variable {S : Type} [WordStore S]

/-- The `count` words that `word` gives can hold `n` bits and have no one past
them. -/
def checkAdoption (word : Nat → Answer Word) (count n : Nat) : Answer Unit := do
  let needed := wordsFor n
  require (needed ≤ count) (.invalidAdoption (.tooFewWords count n))
  let first := needed - 1
  let stray ← searchUp first (count - first) fun k => do
    let allowed := Word.mask (max n (64 * k) - 64 * k)
    return if (← word k) &&& ~~~allowed = 0#64 then none else some k
  match stray with
  | none => return
  | some k => .error (.invalidAdoption (.strayOnes k n))

/-- The vector of `n` bits over `words`. -/
def ofWords (words : Array Word) (n : Nat) : Answer (WordVec S) := do
  let word (k : Nat) : Answer Word :=
    match words[k]? with
    | some w => .ok w
    | none => .error (.fault (.wordIndex k words.size))
  checkAdoption word words.size n
  return ⟨WordStore.ofBuffer ((Buffer.ofArray words).truncate (wordsFor n)), n⟩

/-- The vector of `n` bits over the words of `segments`. -/
def ofSegments {shift : Nat} (segments : Array (Array Word)) (n : Nat) :
    Answer (WordVec (Segmented shift)) := do
  let store ← Segmented.adopt segments
  checkAdoption (WordStore.word store) (WordStore.size store) n
  return ⟨WordStore.resize (wordsFor n) store, n⟩

/-- The vector of `n` bits over the words of a buffer, with the room that it has. -/
def ofBuffer (words : Buffer Word) (n : Nat) : Answer (WordVec S) := do
  let v : WordVec S ← ofWords words.items n
  return ⟨WordStore.ofBuffer (words.truncate (wordsFor n)), v.length⟩

/-- The vector of `n` bits over the words of `segments`, with the room that they have. -/
def ofBuffers {shift : Nat} (segments : Buffer (Buffer Word)) (n : Nat) :
    Answer (WordVec (Segmented shift)) := do
  let store ← Segmented.adoptBuffers segments
  checkAdoption (WordStore.word store) (WordStore.size store) n
  return ⟨WordStore.resize (wordsFor n) store, n⟩

/-- Words with no more room than they take are a vector as they are. -/
theorem ofBuffer_ofArray (words : Array Word) (n : Nat) :
    (ofBuffer (.ofArray words) n : Answer (WordVec S)) = ofWords words n := by
  rw [ofBuffer, Buffer.items_ofArray]
  simp only [ofWords, bind_assoc, pure_bind]

end WordVec

end PackedBits
