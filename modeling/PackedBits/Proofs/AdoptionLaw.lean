import PackedBits.Proofs.Reach

/-!
# Which storage from outside becomes a vector

Words become a vector, in whatever store, exactly when they are enough and no one stands
past the length, also in the words that are then dropped; segments do when in addition
they are cut as a store in segments cuts its words. `StoreKind.adopted` says so, with the
bits and the words of what is made, and that nothing else than the storage is ever named
as the cause of a refusal.
-/

namespace PackedBits

namespace WordVec

variable {S : Type} [WordStore S] [LawfulStore S] {v : WordVec S} {words : List Word} {n : Nat}

/-- The first `n` bits of words, in exactly as many of the words as they need. -/
structure KeepsWords (v : WordVec S) (words : List Word) (n : Nat) : Prop where
  length_eq : Bits.length v = n
  bit_eq (i : Nat) : i < n →
    ∃ w, words[i / 64]? = some w ∧ Bits.bit v i = .ok (w.getLsbD (i % 64))
  size_eq : WordStore.size v.store = wordsFor n
  words_eq : v.words = .ok (words.take (wordsFor n)).toArray

theorem Over.keepsWords (hv : v.Over words n) (h : Admits words n) : v.KeepsWords words n := by
  have hcount : (words.take (wordsFor n)).length = wordsFor n := List.length_take_of_le h.enough
  refine ⟨hv.length_eq, fun i hi => ?_, ?_, ?_⟩
  · have hword : wordOf i < words.length := Nat.lt_of_lt_of_le (wordOf_lt_wordsFor hi) h.enough
    have hw : words[i / 64]? = some words[wordOf i] := List.getElem?_eq_getElem hword
    refine ⟨_, hw, ?_⟩
    have hbit : ((List.range n).map (bitAt words))[i]? = some (bitAt words i) := by
      rw [List.getElem?_map, List.getElem?_range hi, Option.map_some]
    rw [bitAt, List.getElem?_eq_getElem hword, Option.getD_some] at hbit
    exact (hv.holds h).bit_eq hbit
  · rw [LawfulStore.size_eq hv.holds_store, hcount]
  · rw [WordVec.words_eq hv.holds_store (by rw [hcount, wordCount, hv.length_eq])]

end WordVec

namespace StoreKind

open WordVec

/-- Words become a vector of `n` bits exactly when there are enough of them and no one stands
at or past `n` in any of them; segments do exactly when in addition every one but the last is
full and the last not too full, and then with the bits and the words that they would have in
one piece. Whatever is refused is refused as storage. -/
theorem adopted (kind : StoreKind) (words : Array Word) (n shift : Nat)
    (segments : Array (Array Word)) :
    ((∃ v : WordVec kind.Store, ofWords words n = .ok v) ↔ Admits words.toList n) ∧
      (∀ v : WordVec kind.Store, ofWords words n = .ok v → v.KeepsWords words.toList n) ∧
      (∀ failure, (ofWords words n : Answer (WordVec kind.Store)) = .error failure →
        ∃ cause, failure = .invalidAdoption cause) ∧
      ((∃ v : WordVec (Segmented shift), ofSegments segments n = .ok v) ↔
        WellSegmented shift segments ∧
          ∃ u : WordVec kind.Store, ofWords segments.flatten n = .ok u) ∧
      (∀ (v : WordVec (Segmented shift)) (u : WordVec kind.Store),
        ofSegments segments n = .ok v → ofWords segments.flatten n = .ok u →
          Bits.toArray v = Bits.toArray u ∧ v.SameWords u ∧
            v.KeepsWords segments.flatten.toList n) ∧
      ∀ failure, (ofSegments segments n : Answer (WordVec (Segmented shift))) = .error failure →
        ∃ cause, failure = .invalidAdoption cause := by
  have hwords := adopts_ofWords (S := kind.Store) words n
  have hjoined := adopts_ofWords (S := kind.Store) segments.flatten n
  have hsegments := adopts_ofSegments shift segments n
  refine ⟨hwords.exists_ok_iff, fun v hv => ?_, fun _ => hwords.of_error, ?_,
    fun v u hv hu => ?_, fun _ => hsegments.of_error⟩
  · obtain ⟨hadmits, hover⟩ := hwords.of_ok hv
    exact hover.keepsWords hadmits
  · rw [hsegments.exists_ok_iff, hjoined.exists_ok_iff]
  · obtain ⟨⟨-, hadmits⟩, hover⟩ := hsegments.of_ok hv
    have hbits := hover.holds hadmits
    have hbits' := (hjoined.of_ok hu).2.holds hadmits
    exact ⟨hbits.reads.toArray_eq.trans hbits'.reads.toArray_eq.symm, hbits.sameWords hbits',
      hover.keepsWords hadmits⟩

/-- Three bits over two segments of two words, of which the second is not needed: the same bits
and words as over three words in one piece. A one in the last word is refused. -/
theorem adopted_with_surplus_segment :
    let segments : Array (Array Word) := #[#[5#64, 0#64], #[0#64]]
    let stray : Array (Array Word) := #[#[5#64, 0#64], #[1#64]]
    (∃ (v : WordVec (Segmented 1)) (u : WordVec flat.Store),
      ofSegments segments 3 = .ok v ∧ ofWords segments.flatten 3 = .ok u ∧
        Bits.toArray v = Bits.toArray u ∧ v.SameWords u ∧
        v.KeepsWords segments.flatten.toList 3) ∧
      ¬∃ v : WordVec (Segmented 1), ofSegments stray 3 = .ok v := by
  intro segments stray
  let v : WordVec (Segmented 1) :=
    ⟨⟨⟨#[⟨#[5#64], 2⟩, ⟨#[], 1⟩], 2⟩, 1⟩, 3⟩
  let u : WordVec flat.Store := ⟨(⟨⟨#[5#64], 3⟩⟩ : Flat), 3⟩
  have hv : ofSegments segments 3 = .ok v := by decide +kernel
  have hu : (ofWords segments.flatten 3 : Answer (WordVec Flat)) = .ok u := by decide +kernel
  have hstray : (ofWords stray.flatten 3 : Answer (WordVec Flat)) =
      .error (.invalidAdoption (.strayOnes 2 3)) := by decide +kernel
  obtain ⟨-, -, -, -, hsame, -⟩ := adopted flat segments.flatten 3 1 segments
  obtain ⟨-, -, -, hiff, -, -⟩ := adopted flat stray.flatten 3 1 stray
  refine ⟨⟨v, u, hv, hu, hsame v u hv hu⟩, fun hgiven => ?_⟩
  obtain ⟨-, w, hw⟩ := hiff.mp hgiven
  exact nomatch hstray.symm.trans hw

end StoreKind

end PackedBits
