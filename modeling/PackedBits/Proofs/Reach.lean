import PackedBits.Proofs.WordSound

/-!
# Reachable vectors of words

`WordVec.Reached` is every vector that is made and edited in the ways there are:
any constructor, also over words and segments from outside with the room that
they have, then any edits made directly or through views, with any arguments and
whatever memory is granted, each from what the one before it left.
`StoreKind.canonical` says that all of them are in good order, that bits exposed
by a growth are zeros, and that equal bits are equal words, across stores too.
-/

namespace PackedBits

namespace WordVec

section

variable {S : Type} [WordStore S]

/-- The vectors that can be made. Those in `wrapped` are made over storage of
the form that the store has. -/
inductive Reached (wrapped : WordVec S → Prop) : WordVec S → Prop where
  | empty : Reached wrapped empty
  | withCapacity (memory : Allocator) (n : Nat) {v : WordVec S} :
    withCapacity memory n = .ok v → Reached wrapped v
  | zeros (memory : Allocator) (n : Nat) {v : WordVec S} :
    zeros memory n = .ok v → Reached wrapped v
  | ones (memory : Allocator) (n : Nat) {v : WordVec S} :
    ones memory n = .ok v → Reached wrapped v
  | ofBits (memory : Allocator) (bits : List Bool) {v : WordVec S} :
    ofBits memory bits = .ok v → Reached wrapped v
  | ofPositions (memory : Allocator) (positions : List Nat) {v : WordVec S} :
    ofPositions memory positions = .ok v → Reached wrapped v
  | ofBuffer {words : Buffer Word} (n : Nat) {v : WordVec S} :
    words.Fits → ofBuffer words n = .ok v → Reached wrapped v
  | wrap {v : WordVec S} : wrapped v → Reached wrapped v
  | read (memory : Allocator) (bytes : List Byte) {v : WordVec S} :
    Stream.read memory bytes = .ok v → Reached wrapped v
  | toVector (r : Record) {v : WordVec S} : r.toVector = .ok v → Reached wrapped v
  | duplicate {v : WordVec S} : Reached wrapped v → Reached wrapped v.duplicate
  | trim {v : WordVec S} : Reached wrapped v → Reached wrapped v.trim
  | reserve (memory : Allocator) (n : Nat) {v : WordVec S} :
    Reached wrapped v → Reached wrapped ((reserve memory n).after v)
  | ensureCapacity (memory : Allocator) (n : Nat) {v : WordVec S} :
    Reached wrapped v → Reached wrapped ((ensureCapacity memory n).after v)
  | extendBits (memory : Allocator) (bits : List Bool) {v : WordVec S} :
    Reached wrapped v → Reached wrapped ((extendBits memory bits).after v)
  | extendPositions (memory : Allocator) (positions : List Nat) {v : WordVec S} :
    Reached wrapped v → Reached wrapped ((extendPositions memory positions).after v)
  | readInto (memory : Allocator) (bytes : List Byte) {v : WordVec S} :
    Reached wrapped v → Reached wrapped ((Stream.readInto memory bytes).after v)
  | script (s : Script) {v : WordVec S} : Reached wrapped v → Reached wrapped (s.run.after v)

variable {wrapped : WordVec S → Prop} {v : WordVec S}

theorem Reached.ofWords (words : Array Word) (n : Nat) (h : ofWords words n = .ok v) :
    Reached wrapped v :=
  .ofBuffer n (Buffer.fits_ofArray words) ((ofBuffer_ofArray words n).trans h)

theorem Reached.keeps {α : Type} (memory : Allocator) (c : Change) (trimmed : c.Trimmed)
    {edit : Edit (WordVec S) α} (f : α → Reply) (hrun : c.run memory = f <$> edit) :
    edit.Keeps (Reached wrapped) := by
  intro v hv
  have hscript : Reached wrapped ((c.run memory).after v) := .script (.change memory c trimmed) hv
  rwa [hrun, Edit.after_map] at hscript

/-- Every operation on a vector that can be made leaves one. -/
theorem Reached.kept : Kept (Reached wrapped) where
  set i b := Reached.keeps .unlimited (.set i b) trivial _ rfl
  setBits lo width value := Reached.keeps .unlimited (.setBits lo width value) trivial _ rfl
  fillRange lo hi b := Reached.keeps .unlimited (.fillRange lo hi b) trivial _ rfl
  flipRange lo hi := Reached.keeps .unlimited (.flipRange lo hi) trivial _ rfl
  combine op other hother := Reached.keeps .unlimited (.combine op other) hother _ rfl
  setLength memory n := Reached.keeps memory (.setLength n) trivial _ rfl
  insert memory i b := Reached.keeps memory (.insert i b) trivial _ rfl
  remove i := Reached.keeps .unlimited (.remove i) trivial _ rfl
  push memory b := Reached.keeps memory (.push b) trivial _ rfl
  appendBits memory w count := Reached.keeps memory (.appendBits w count) trivial _ rfl
  append memory other := Reached.keeps memory (.append other) trivial _ rfl

/-- A vector that can be made has every steady property. -/
theorem Reached.steady {inv : WordVec S → Prop} (h : Reached wrapped v) (hinv : Steady inv)
    (hwrapped : ∀ w, wrapped w → inv w) : inv v := by
  induction h with
  | empty => exact hinv.empty
  | withCapacity _ _ hv => exact hinv.of_withCapacity hv
  | zeros _ _ hv => exact hinv.of_zeros hv
  | ones _ _ hv => exact hinv.ones hv
  | ofBits _ _ hv => exact hinv.of_ofBits hv
  | ofPositions _ _ hv => exact hinv.of_ofPositions hv
  | ofBuffer _ hwords hv => exact hinv.ofBuffer hwords hv
  | wrap hv => exact hwrapped _ hv
  | read _ _ hv => exact hinv.of_read hv
  | toVector _ hv => exact hinv.of_toVector hv
  | duplicate _ ih => exact hinv.duplicate ih
  | trim _ ih => exact hinv.trim ih
  | reserve memory n _ ih => exact hinv.reserve memory n _ ih
  | ensureCapacity memory n _ ih => exact hinv.ensureCapacity memory n _ ih
  | extendBits memory bits _ ih => exact hinv.extendBits memory bits _ ih
  | extendPositions memory positions _ ih => exact hinv.extendPositions memory positions _ ih
  | readInto memory bytes _ ih => exact hinv.readInto memory bytes _ ih
  | script s _ ih => exact Kept.script s hinv.kept _ ih

end

variable {S T : Type} [WordStore S] [LawfulStore S] [WordStore T] [LawfulStore T]

theorem Reached.sound [LawfulFill S] {wrapped : WordVec S → Prop} {v : WordVec S}
    (h : Reached wrapped v) (hwrapped : ∀ w, wrapped w → w.Sound) : v.Sound :=
  h.steady steady_sound hwrapped

/-! ## Equal bits are equal words -/

theorem eq_of_bitAt {words words' : List Word} (hlength : words.length = words'.length)
    (hbits : ∀ i, bitAt words i = bitAt words' i) : words = words' := by
  refine List.ext_getElem hlength fun k hk hk' => ?_
  refine BitVec.eq_of_getLsbD_eq fun j hj => ?_
  rw [← bitAt_add (List.getElem?_eq_getElem hk) hj, hbits,
    bitAt_add (List.getElem?_eq_getElem hk') hj]

theorem words_eq {v : WordVec S} {words : List Word} (hwords : LawfulStore.Holds v.store words)
    (hcount : words.length = v.wordCount) : v.words = .ok words.toArray := by
  rw [WordVec.words, ← hcount]
  refine foldUp_push fun k w hw => ?_
  have hlt : k < v.wordCount := hcount ▸ (List.getElem?_eq_some_iff.mp hw).1
  have hcheck : checkIndex k v.wordCount = .ok () := require_eq_ok_iff.mpr hlt
  rw [word, hcheck]
  exact LawfulStore.word_eq hwords hw

/-- Vectors that hold the same bits have the same words, whatever they are stored in. -/
theorem Holds.exists_words {v : WordVec S} {w : WordVec T} {bits : List Bool} (h : v.Holds bits)
    (h' : w.Holds bits) : ∃ words, v.words = .ok words ∧ w.words = .ok words := by
  obtain ⟨hlength, words, hwords, hcount, hbits⟩ := h
  obtain ⟨hlength', words', hwords', hcount', hbits'⟩ := h'
  have hsame : words = words' := eq_of_bitAt (hcount.trans hcount'.symm) fun i =>
    (hbits i).trans (hbits' i).symm
  subst hsame
  refine ⟨words.toArray, words_eq hwords ?_, words_eq hwords' ?_⟩
  · rw [wordCount, hlength, hcount]
  · rw [wordCount, hlength', hcount]

/-- Two vectors have the same length and the same words, whatever they are stored in. -/
def SameWords {S T : Type} [WordStore S] [WordStore T] (v : WordVec S) (w : WordVec T) : Prop :=
  v.length = w.length ∧ ∃ words, v.words = .ok words ∧ w.words = .ok words

theorem Holds.sameWords {v : WordVec S} {w : WordVec T} {bits : List Bool} (h : v.Holds bits)
    (h' : w.Holds bits) : v.SameWords w :=
  ⟨h.length_eq.trans h'.length_eq.symm, h.exists_words h'⟩

theorem Holds.eq_of_toArray {v : WordVec S} {w : WordVec T} {bits bits' : List Bool}
    (h : v.Holds bits) (h' : w.Holds bits') (hsame : Bits.toArray v = Bits.toArray w) :
    bits = bits' := by
  rw [h.reads.toArray_eq, h'.reads.toArray_eq] at hsame
  cases hsame
  rfl

/-- Bits exposed by a growth are zeros. -/
theorem Holds.bit_of_setLength {v w : WordVec S} {bits : List Bool} (h : v.Holds bits)
    {memory : Allocator} {n : Nat} (hrun : WordVec.setLength memory n v = .ok () w) {i : Nat}
    (hlo : v.length ≤ i) (hhi : i < n) : w.bit i = .ok false := by
  obtain ⟨-, hw⟩ := ((follows_setLength memory n).yields h rfl).of_ok hrun
  refine hw.bit_eq ?_
  rw [h.length_eq] at hlo
  rw [getElem?_resized, if_pos hhi, List.getElem?_eq_none hlo]
  rfl

end WordVec

/-! ## Kinds of stores -/

/-- A store in one piece, one in segments, or any other that keeps the contract. -/
inductive StoreKind : Type 1 where
  | flat
  | segmented (shift : Nat)
  | other (S : Type) [WordStore S] [LawfulStore S] [LawfulFill S]

namespace StoreKind

def Store : StoreKind → Type
  | flat => Flat
  | segmented shift => Segmented shift
  | other S => S

instance : (kind : StoreKind) → WordStore kind.Store
  | flat => inferInstanceAs (WordStore Flat)
  | segmented shift => inferInstanceAs (WordStore (Segmented shift))
  | other S => inferInstanceAs (WordStore S)

instance : (kind : StoreKind) → LawfulStore kind.Store
  | flat => inferInstanceAs (LawfulStore Flat)
  | segmented shift => inferInstanceAs (LawfulStore (Segmented shift))
  | other S => inferInstanceAs (LawfulStore S)

instance : (kind : StoreKind) → LawfulFill kind.Store
  | flat => inferInstanceAs (LawfulFill Flat)
  | segmented shift => inferInstanceAs (LawfulFill (Segmented shift))
  | other S => inferInstanceAs (LawfulFill S)

/-- Segments from outside are adopted as they are, with the room that they have; words in
one piece are adopted by any kind of store. -/
def Wrapped : (kind : StoreKind) → WordVec kind.Store → Prop
  | segmented _, v => ∃ (segments : Buffer (Buffer Word)) (n : Nat),
    (∀ segment ∈ segments.items, segment.Fits) ∧ WordVec.ofBuffers segments n = .ok v
  | _, _ => False

/-- A vector over a kind of store that can be made. -/
def Reached (kind : StoreKind) (v : WordVec kind.Store) : Prop := WordVec.Reached kind.Wrapped v

theorem Reached.exists_bits {kind : StoreKind} {v : WordVec kind.Store} (h : kind.Reached v) :
    ∃ bits, v.Holds bits := by
  refine WordVec.Reached.sound h fun w hw => ?_
  cases kind with
  | flat => exact hw.elim
  | segmented shift =>
    obtain ⟨segments, n, -, hofBuffers⟩ := hw
    exact WordVec.sound_of_ofBuffers hofBuffers
  | other S => exact hw.elim

/-- Every vector that can be made has exactly the words that its length needs
and no one past its length; so a growth exposes zeros, whatever stood there
before, and vectors with the same bits have the same words. -/
theorem canonical {kind kind' : StoreKind} {v : WordVec kind.Store} {w : WordVec kind'.Store}
    (hv : kind.Reached v) (hw : kind'.Reached w) :
    v.tidy ∧
      (∀ memory n grown, ResizableBits.setLength memory n v = .ok () grown →
        ∀ i, v.length ≤ i → i < n → Bits.bit grown i = .ok false) ∧
      (Bits.toArray v = Bits.toArray w → ∃ words, v.words = .ok words ∧ w.words = .ok words) := by
  obtain ⟨bits, hbits⟩ := hv.exists_bits
  obtain ⟨bits', hbits'⟩ := hw.exists_bits
  refine ⟨hbits.tidy, fun memory n grown hrun i hlo hhi => ?_, fun hsame => ?_⟩
  · exact hbits.bit_of_setLength hrun hlo hhi
  · obtain rfl := hbits.eq_of_toArray hbits' hsame
    exact hbits.exists_words hbits'

/-- Seventy ones in segments, an edit through a part that is refused, and a cut
to three bits, beside three ones over a word from outside. -/
theorem canonical_after_cut :
    let ones : Uniform := ⟨70, true⟩
    let script : Script :=
      .andThen (.change .unlimited (.setLength 70) trivial) <|
      .andThen (.change .unlimited (.combine .either (Bits.source ones)) ones.reads.trimmed) <|
      .andThen (.part 60 70 (.change .unlimited (.fillRange 3 30 false) trivial)) <|
      .change .unlimited (.setLength 3) trivial
    let v : WordVec (segmented 1).Store := script.run.after WordVec.empty
    let w : WordVec flat.Store := ⟨(⟨⟨#[7#64], 1⟩⟩ : Flat), 3⟩
    (segmented 1).Reached v ∧ flat.Reached w ∧ Bits.toArray v = Bits.toArray w ∧ v.tidy ∧
      (∀ memory n grown, ResizableBits.setLength memory n v = .ok () grown →
        ∀ i, v.length ≤ i → i < n → Bits.bit grown i = .ok false) ∧
      ∃ words, v.words = .ok words ∧ w.words = .ok words := by
  intro ones script v w
  have hv : (segmented 1).Reached v := .script script .empty
  have hw : flat.Reached w := .ofWords #[7#64] 3 rfl
  have hsame : Bits.toArray v = Bits.toArray w := by decide +kernel
  obtain ⟨htidy, hgrowth, hwords⟩ := canonical hv hw
  exact ⟨hv, hw, hsame, htidy, hgrowth, hwords hsame⟩

end StoreKind

end PackedBits
