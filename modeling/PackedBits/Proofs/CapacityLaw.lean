import PackedBits.Proofs.Growth
import PackedBits.Proofs.StoreCapacity

/-!
# What the capacity promises

`StoreKind.Stored` is every store that can be made and edited, with any arguments and
whatever memory is granted, and `WordVec.Untrimmed` is what edits of a vector, other than a
trim, make of it. `StoreKind.capacity_exact` says of all of them that the capacity is the
number of words that can be held with the room there is, and that a trim alone lowers it.
-/

namespace PackedBits

open LawfulCapacity (room)

/-! ## Stores -/

section

variable {S : Type} [WordStore S]

/-- The stores that can be made. Those in `adopted` are made over storage of the form that
the store has. -/
inductive Stored (adopted : S → Prop) : S → Prop where
  | empty : Stored adopted WordStore.empty
  | ofBuffer {buffer : Buffer Word} : buffer.Fits → Stored adopted (WordStore.ofBuffer buffer)
  | adopt {store : S} : adopted store → Stored adopted store
  | duplicate {store : S} : Stored adopted store → Stored adopted (WordStore.duplicate store)
  | step (memory : Allocator) (op : StoreOp) {store : S} :
    Stored adopted store → Stored adopted ((op.run memory).after store)

/-- Operations one after the other, each with the memory that it asks. -/
def StoreOp.runAll (ops : List (Allocator × StoreOp)) (store : S) : S :=
  ops.foldl (fun store op => (op.2.run op.1).after store) store

/-- The capacity of a store is the number of words that it can hold with the room that it
has in its places, and `shrink` alone gives room back. A size that there cannot be is
refused, and then nothing changes. -/
structure ExactCapacity (room : S → Place → Nat) (store : S) : Prop where
  setSize_eq (n : Nat) : WordStore.checkSize store n = .ok () →
    WordStore.setSize n store = .ok () (WordStore.resize n store)
  setSize_refused (n : Nat) (failure : Failure) : WordStore.checkSize store n = .error failure →
    WordStore.setSize n store = .error failure store
  room_setSize_of_le (n : Nat) : n ≤ WordStore.capacity store →
    room ((WordStore.setSize n).after store) = room store
  exists_room_lt (n : Nat) (made : S) : WordStore.capacity store < n →
    WordStore.setSize n store = .ok () made → ∃ place, room store place < room made place
  le_after_request (memory : Allocator) (n : Nat) (made : S) :
    WordStore.request memory n store = .ok () made →
      ∀ ops : List (Allocator × StoreOp), (∀ op ∈ ops, op.2 ≠ .shrink) →
        n ≤ WordStore.capacity (StoreOp.runAll ops made)
  capacity_le_step (memory : Allocator) (op : StoreOp) : op ≠ .shrink →
    WordStore.capacity store ≤ WordStore.capacity ((op.run memory).after store)
  capacity_shrink : WordStore.capacity (WordStore.shrink store) = WordStore.size store
  size_shrink : WordStore.size (WordStore.shrink store) = WordStore.size store
  word_shrink (i : Nat) : i < WordStore.size store →
    ∃ w, WordStore.word store i = .ok w ∧ WordStore.word (WordStore.shrink store) i = .ok w

namespace WordStore

variable {store made : S} {n : Nat}

theorem setSize_of_ok (h : checkSize store n = .ok ()) :
    setSize n store = .ok () (resize n store) :=
  (Edit.bind_ok rfl).trans (Edit.bind_ok (Edit.liftM_ok h))

theorem setSize_of_error {failure : Failure} (h : checkSize store n = .error failure) :
    setSize n store = .error failure store :=
  (Edit.bind_ok rfl).trans (Edit.bind_error (Edit.liftM_error h))

/-- Room that is made on request is what the store makes. -/
theorem reserve_of_request {memory : Allocator} (h : request memory n store = .ok () made) :
    reserve memory n store = .ok () made := by
  have hstart : request memory n store = (do
      if capacity store < n then checkSize store n
      reserve memory n : Edit S Unit) store := Edit.bind_ok rfl
  rw [hstart] at h
  split at h
  · rcases hcheck : checkSize store n with failure | _
    · rw [Edit.bind_error (Edit.liftM_error hcheck)] at h
      cases h
    · rwa [Edit.bind_ok (Edit.liftM_ok hcheck)] at h
  · exact h

end WordStore

variable [LawfulStore S] [LawfulRoom S]

/-- A store holds some words, and they lie in the room there is. -/
structure WordStore.InOrder (store : S) : Prop where
  exists_words : ∃ words, LawfulStore.Holds store words
  fits : LawfulRoom.Fits store

open WordStore (InOrder)

variable [LawfulFill S] [LawfulCapacity S] {store : S} {memory : Allocator} {op : StoreOp}
  {ops : List (Allocator × StoreOp)}

namespace StoreOp

/-- An operation of the store's own, with any arguments, leaves a store in good order. -/
theorem keeps_inOrder (memory : Allocator) (op : StoreOp) :
    (op.run memory).Keeps (InOrder (S := S)) := by
  rintro store ⟨⟨words, hwords⟩, hfits⟩
  cases op with
  | resize n => exact ⟨⟨_, LawfulStore.resize n hwords⟩, LawfulRoom.resize n hfits⟩
  | reserve n =>
    exact ⟨⟨_, holds_after hwords memory trivial⟩,
      LawfulRoom.reserve memory n store hfits⟩
  | shrink => exact ⟨⟨_, LawfulStore.shrink hwords⟩, LawfulRoom.shrink hfits⟩
  | modify i f =>
    exact ⟨⟨_, holds_after hwords memory trivial⟩,
      LawfulRoom.modifyWord i f store hfits⟩
  | fill lo hi value =>
    exact ⟨LawfulCapacity.holds_fill lo hi value store ⟨words, hwords⟩,
      LawfulRoom.fill lo hi value store hfits⟩

omit [LawfulFill S] in
/-- What is not shrunk has the room it had, or more, in every place. -/
theorem room_le_step (memory : Allocator) (hop : op ≠ .shrink) (store : S) (place : Place) :
    room store place ≤ room ((op.run memory).after store) place := by
  cases op with
  | resize n => exact LawfulCapacity.resize store n place
  | reserve n =>
    exact LawfulCapacity.reserve (room store) memory n store (fun _ => Nat.le_refl _) place
  | shrink => exact absurd rfl hop
  | modify i f =>
    exact LawfulCapacity.modifyWord (room store) i f store (fun _ => Nat.le_refl _) place
  | fill lo hi value =>
    exact LawfulCapacity.fill (room store) lo hi value store (fun _ => Nat.le_refl _) place

end StoreOp

namespace WordStore.InOrder

omit [LawfulFill S] in
/-- In stores in good order the capacity goes with the room. -/
theorem capacity_mono (h : InOrder store) {store' : S} (h' : InOrder store')
    (hroom : ∀ place, room store place ≤ room store' place) :
    WordStore.capacity store ≤ WordStore.capacity store' := by
  obtain ⟨words, hwords⟩ := h.exists_words
  obtain ⟨words', hwords'⟩ := h'.exists_words
  exact LawfulCapacity.capacity_mono hwords h.fits hwords' h'.fits hroom

theorem capacity_le_step (h : InOrder store) (memory : Allocator) (hop : op ≠ .shrink) :
    WordStore.capacity store ≤ WordStore.capacity ((op.run memory).after store) :=
  h.capacity_mono (StoreOp.keeps_inOrder memory op store h) (StoreOp.room_le_step memory hop store)

theorem capacity_le_runAll (h : InOrder store) (hops : ∀ op ∈ ops, op.2 ≠ .shrink) :
    WordStore.capacity store ≤ WordStore.capacity (StoreOp.runAll ops store) := by
  induction ops generalizing store with
  | nil => exact Nat.le_refl _
  | cons op ops ih =>
    have hstep := h.capacity_le_step op.1 (hops op List.mem_cons_self)
    have hrest := ih (StoreOp.keeps_inOrder op.1 op.2 store h)
      fun other hmem => hops other (List.mem_cons_of_mem _ hmem)
    exact Nat.le_trans hstep hrest

theorem exactCapacity (h : InOrder store) : ExactCapacity room store := by
  obtain ⟨words, hwords⟩ := h.exists_words
  have hsize := LawfulStore.size_eq hwords
  have hshrunk := LawfulStore.shrink hwords
  refine ⟨fun n => setSize_of_ok, fun n failure => setSize_of_error, ?_, ?_, ?_,
    fun memory op hop => h.capacity_le_step memory hop, ?_, ?_, ?_⟩
  · intro n hn
    rcases hcheck : checkSize store n with failure | _
    · rw [Edit.after_of_error (setSize_of_error hcheck)]
    · rw [Edit.after_of_ok (setSize_of_ok hcheck)]
      exact LawfulCapacity.room_resize_of_le hwords h.fits hn
  · intro n made hn hrun
    rcases hcheck : checkSize store n with failure | _
    · cases (setSize_of_error hcheck).symm.trans hrun
    · cases (setSize_of_ok hcheck).symm.trans hrun
      exact LawfulCapacity.exists_room_lt hwords h.fits hn
  · intro memory n made hrequest ops hops
    have hrun := reserve_of_request hrequest
    have hmade := StoreOp.keeps_inOrder memory (.reserve n) store h
    rw [Edit.after_of_ok (show (StoreOp.reserve n).run memory store = _ from hrun)] at hmade
    exact Nat.le_trans (LawfulRoom.le_capacity hwords h.fits hrun) (hmade.capacity_le_runAll hops)
  · rw [hsize]
    exact LawfulCapacity.capacity_shrink hwords h.fits
  · rw [LawfulStore.size_eq hshrunk, hsize]
  · intro i hi
    rw [hsize] at hi
    have hword := List.getElem?_eq_getElem hi
    exact ⟨_, LawfulStore.word_eq hwords hword, LawfulStore.word_eq hshrunk hword⟩

end WordStore.InOrder

theorem Stored.inOrder {adopted : S → Prop} (h : Stored adopted store)
    (hadopted : ∀ store, adopted store → InOrder store) : InOrder store := by
  induction h with
  | empty => exact ⟨⟨_, LawfulStore.empty⟩, LawfulRoom.empty⟩
  | @ofBuffer buffer hfits => exact ⟨⟨_, LawfulStore.ofBuffer buffer⟩, LawfulRoom.ofBuffer hfits⟩
  | adopt hstore => exact hadopted _ hstore
  | duplicate _ ih =>
    obtain ⟨words, hwords⟩ := ih.exists_words
    exact ⟨⟨_, LawfulStore.duplicate hwords⟩, LawfulRoom.duplicate ih.fits⟩
  | step memory op _ ih => exact StoreOp.keeps_inOrder memory op _ ih

end

theorem Segmented.inOrder_of_adoptBuffers {shift : Nat} {segments : Buffer (Buffer Word)}
    {store : Segmented shift} (hsegments : ∀ segment ∈ segments.items, segment.Fits)
    (h : adoptBuffers segments = .ok store) : WordStore.InOrder store where
  exists_words := ⟨_, (chunked_of_adoptBuffers h).1⟩
  fits := fits_of_adoptBuffers hsegments h

/-! ## Vectors -/

namespace WordVec

section

variable {S : Type} [WordStore S] {v w : WordVec S}

/-- What edits of `v` that are no trim make of it. -/
inductive Untrimmed (v : WordVec S) : WordVec S → Prop where
  | refl : Untrimmed v v
  | reserve (memory : Allocator) (n : Nat) {w : WordVec S} :
    Untrimmed v w → Untrimmed v ((reserve memory n).after w)
  | ensureCapacity (memory : Allocator) (n : Nat) {w : WordVec S} :
    Untrimmed v w → Untrimmed v ((ensureCapacity memory n).after w)
  | extendBits (memory : Allocator) (bits : List Bool) {w : WordVec S} :
    Untrimmed v w → Untrimmed v ((extendBits memory bits).after w)
  | extendPositions (memory : Allocator) (positions : List Nat) {w : WordVec S} :
    Untrimmed v w → Untrimmed v ((extendPositions memory positions).after w)
  | readInto (memory : Allocator) (bytes : List Byte) {w : WordVec S} :
    Untrimmed v w → Untrimmed v ((Stream.readInto memory bytes).after w)
  | script (s : Script) {w : WordVec S} : Untrimmed v w → Untrimmed v (s.run.after w)

/-- No edit but a trim takes away a property that stays. -/
theorem Untrimmed.stays {inv : WordVec S → Prop} (h : v.Untrimmed w) (hinv : Stays inv)
    (hv : inv v) : inv w := by
  induction h with
  | refl => exact hv
  | reserve memory n _ ih => exact hinv.reserve memory n _ ih
  | ensureCapacity memory n _ ih => exact hinv.ensureCapacity memory n _ ih
  | extendBits memory bits _ ih => exact hinv.extendBits memory bits _ ih
  | extendPositions memory positions _ ih => exact hinv.extendPositions memory positions _ ih
  | readInto memory bytes _ ih => exact hinv.readInto memory bytes _ ih
  | script s _ ih => exact Kept.script s hinv.kept _ ih

variable [LawfulStore S] [LawfulRoom S] [LawfulCapacity S]

/-- The room that there is in each place stays. -/
theorem stays_room (least : Place → Nat) :
    Stays fun v : WordVec S => ∀ place, least place ≤ room v.store place where
  kept := by
    refine StoreKeeps.kept ⟨LawfulCapacity.modifyWord least, ?_, ?_⟩ (LawfulCapacity.fill least)
    · exact fun memory n _ => LawfulCapacity.reserve least memory n
    · intro store n _ hstore place
      exact Nat.le_trans (hstore place) (LawfulCapacity.resize store n place)
  reserve memory n := keeps_store (LawfulCapacity.reserve least memory (wordsFor n))

/-- A sound vector whose words lie in the room there is. -/
structure Roomed (v : WordVec S) : Prop where
  sound : v.Sound
  fits : LawfulRoom.Fits v.store

namespace Roomed

variable [LawfulFill S]

omit [LawfulCapacity S] [LawfulFill S] in
theorem inOrder (h : v.Roomed) : WordStore.InOrder v.store := by
  obtain ⟨bits, -, words, hwords, -⟩ := h.sound
  exact ⟨⟨words, hwords⟩, h.fits⟩

omit [LawfulCapacity S] in
theorem untrimmed (h : v.Roomed) (hw : v.Untrimmed w) : w.Roomed :=
  ⟨hw.stays steady_sound.toStays h.sound, hw.stays steady_fits.toStays h.fits⟩

/-- No edit but a trim lowers what the store can hold. -/
theorem capacity_le (h : v.Roomed) (hw : v.Untrimmed w) :
    WordStore.capacity v.store ≤ WordStore.capacity w.store := by
  have hroom : ∀ place, room v.store place ≤ room w.store place :=
    hw.stays (stays_room (room v.store)) fun _ => Nat.le_refl _
  exact h.inOrder.capacity_mono (h.untrimmed hw).inOrder hroom

omit [LawfulFill S] in
/-- A trim leaves the words, and room for them alone. -/
theorem trim_eq (h : v.Roomed) :
    WordStore.capacity v.trim.store = v.wordCount ∧ v.trim.words = v.words := by
  obtain ⟨bits, hlength, words, hwords, hcount, -⟩ := h.sound
  have hneeded : words.length = v.wordCount := by rw [hcount, wordCount, hlength]
  have hshrunk : LawfulStore.Holds v.trim.store words := LawfulStore.shrink hwords
  constructor
  · rw [← hneeded]
    exact LawfulCapacity.capacity_shrink hwords h.fits
  · rw [words_eq hwords hneeded, words_eq hshrunk hneeded]

end Roomed

end

end WordVec

/-! ## The stores that there are -/

namespace StoreKind

open WordVec

/-- The room that a store has in a place. -/
def room : (kind : StoreKind) → kind.Store → Place → Nat
  | flat => Flat.room
  | segmented _ => Segmented.room
  | other _ => fun _ _ => 0

/-- Segments that are adopted with room for more words than they hold. -/
def Adopted : (kind : StoreKind) → kind.Store → Prop
  | segmented _, store => ∃ segments : Buffer (Buffer Word),
    (∀ segment ∈ segments.items, segment.Fits) ∧ Segmented.adoptBuffers segments = .ok store
  | _, _ => False

/-- The stores whose room is known keep the contract of the capacity, those made over storage
from outside too. -/
theorem exists_lawfulCapacity {kind : StoreKind} (hkind : kind.BuiltIn) :
    ∃ (_ : LawfulRoom kind.Store) (capacity : LawfulCapacity kind.Store),
      capacity.room = kind.room ∧ (∀ store, kind.Adopted store → WordStore.InOrder store) ∧
        ∀ v, kind.Wrapped v → LawfulRoom.Fits v.store := by
  cases kind with
  | flat =>
    exact ⟨inferInstanceAs (LawfulRoom Flat), inferInstanceAs (LawfulCapacity Flat), rfl,
      fun _ hstore => hstore.elim, fun _ hv => hv.elim⟩
  | segmented shift =>
    refine ⟨inferInstanceAs (LawfulRoom (Segmented shift)),
      inferInstanceAs (LawfulCapacity (Segmented shift)), rfl, ?_, ?_⟩
    · rintro store ⟨segments, hsegments, hadopt⟩
      exact Segmented.inOrder_of_adoptBuffers hsegments hadopt
    · rintro v ⟨segments, n, hsegments, hofBuffers⟩
      exact fits_of_ofBuffers hsegments hofBuffers
  | other S => exact hkind.elim

/-- In every store that can be made and edited the capacity is exact: within it no size asks
for room, past it every size that is taken does, a request that is granted raises it for as
long as nothing is shrunk, and `shrink` alone lowers it, to the size and with the words left.
It is so in the store of every vector that can be made and edited; there a trim alone
lowers the capacity. -/
theorem capacity_exact {kind : StoreKind} (hkind : kind.BuiltIn) :
    (∀ store : kind.Store, Stored kind.Adopted store → ExactCapacity kind.room store) ∧
      ∀ v : WordVec kind.Store, kind.Reached v →
        ExactCapacity kind.room v.store ∧
        (∀ w, v.Untrimmed w → v.capacity ≤ w.capacity ∧
          WordStore.capacity v.store ≤ WordStore.capacity w.store) ∧
        WordStore.capacity v.trim.store = v.wordCount ∧ v.trim.words = v.words := by
  obtain ⟨hroom, hcapacity, hsame, hadopted, hwrapped⟩ := exists_lawfulCapacity hkind
  rw [← hsame]
  refine ⟨fun store hstore => (hstore.inOrder hadopted).exactCapacity, fun v hv => ?_⟩
  have hroomed : v.Roomed := ⟨hv.exists_bits, WordVec.Reached.steady hv steady_fits hwrapped⟩
  refine ⟨hroomed.inOrder.exactCapacity, fun w hw => ⟨?_, hroomed.capacity_le hw⟩, hroomed.trim_eq⟩
  have hwords := Nat.mul_le_mul_left 64 (hroomed.capacity_le hw)
  unfold WordVec.capacity
  omega

/-- A vector over two segments of two words, the first with room for more than a segment ever
holds: what it has past that counts for nothing. -/
theorem capacity_exact_past_segment :
    let segments : Buffer (Buffer Word) := ⟨#[⟨#[1#64, 2#64], 5⟩, ⟨#[3#64], 2⟩], 3⟩
    let v : WordVec (segmented 1).Store := ⟨(⟨segments, 3⟩ : Segmented 1), 130⟩
    let cut : Script := .change .unlimited (.setLength 40) trivial
    let w : WordVec (segmented 1).Store := cut.run.after v
    (segmented 1).BuiltIn ∧ (segmented 1).Reached v ∧
      Stored (segmented 1).Adopted v.store ∧ WordStore.capacity v.store = 4 ∧
      ExactCapacity (segmented 1).room v.store ∧
      (segmented 1).room ((WordStore.setSize 4).after v.store) = (segmented 1).room v.store ∧
      (∃ place, (segmented 1).room v.store place <
        (segmented 1).room (WordStore.resize 5 v.store) place) ∧
      WordStore.setSize maxPosition v.store = .error (.overflow .sum) v.store ∧
      4 ≤ WordStore.capacity w.store ∧ WordStore.capacity v.trim.store = 3 := by
  intro segments v cut w
  have hkind : (segmented 1).BuiltIn := trivial
  have hfits : ∀ segment ∈ segments.items, segment.Fits := by
    intro segment hmem
    rcases List.mem_cons.mp (Array.mem_toList_iff.mpr hmem) with rfl | hmem
    · exact (by decide : 2 ≤ 5)
    · rcases List.mem_singleton.mp hmem with rfl
      exact (by decide : 1 ≤ 2)
  have hv : (segmented 1).Reached v := .wrap ⟨segments, 130, hfits, by decide +kernel⟩
  have hstore : Stored (segmented 1).Adopted v.store :=
    .adopt ⟨segments, hfits, by decide +kernel⟩
  have hcapacity : WordStore.capacity v.store = 4 := by decide +kernel
  obtain ⟨hstores, hvectors⟩ := capacity_exact hkind
  obtain ⟨hexact, huntrimmed, htrim, -⟩ := hvectors v hv
  refine ⟨hkind, hv, hstore, hcapacity, hstores v.store hstore,
    hexact.room_setSize_of_le 4 (Nat.le_of_eq hcapacity.symm),
    hexact.exists_room_lt 5 _ (by omega) (hexact.setSize_eq 5 (by decide +kernel)),
    hexact.setSize_refused maxPosition _ (by decide +kernel), ?_,
    htrim.trans (by decide +kernel)⟩
  rw [← hcapacity]
  exact (huntrimmed w (.script cut .refl)).2

end StoreKind

end PackedBits
