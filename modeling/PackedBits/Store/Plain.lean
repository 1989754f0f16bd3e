import PackedBits.Store.Flat

/-!
# A store in one piece that fills word by word

The same words in the same buffer as a `Flat` store, with a range written one
word after the other instead of at once. It shows what a store owes its
vectors when it offers no more than reading and changing a word.
-/

namespace PackedBits

/-- Words in one buffer, written one at a time. -/
structure Plain where
  /-- The store that holds the words. -/
  flat : Flat
  deriving Repr, DecidableEq

namespace Plain

/-- Edits the store that holds the words. -/
@[inline] def onFlat {α : Type} (edit : Edit Flat α) : Edit Plain α := fun
  | ⟨flat⟩ =>
    match edit flat with
    | .ok a flat => .ok a ⟨flat⟩
    | .error failure flat => .error failure ⟨flat⟩

instance : WordStore Plain where
  empty := ⟨WordStore.empty⟩
  ofBuffer buffer := ⟨WordStore.ofBuffer buffer⟩
  size store := WordStore.size store.flat
  capacity store := WordStore.capacity store.flat
  word store := WordStore.word store.flat
  modifyWord i f := onFlat (WordStore.modifyWord i f)
  checkSize store := WordStore.checkSize store.flat
  reserve memory needed := onFlat (WordStore.reserve memory needed)
  resize n store := ⟨WordStore.resize n store.flat⟩
  shrink store := ⟨WordStore.shrink store.flat⟩
  duplicate store := ⟨WordStore.duplicate store.flat⟩
  bytes store := WordStore.bytes store.flat

end Plain

end PackedBits
