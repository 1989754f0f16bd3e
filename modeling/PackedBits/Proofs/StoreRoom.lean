import PackedBits.Proofs.StoreLaw

/-!
# What a store of words owes for its room

`LawfulRoom` is the part of the contract of a word store that is about room: the
words held lie in the room there is, a request that is granted makes the room it
asks for, room that is there is found again without a request, and a change of a
word or of the size within the room leaves the room and the memory of the store
as they are. A store in one piece keeps it.
-/

namespace PackedBits

/-- Nothing was asked for or given back between two states of a store. -/
structure WordStore.SameRoom {S : Type} [WordStore S] (store store' : S) : Prop where
  capacity_eq : WordStore.capacity store' = WordStore.capacity store
  bytes_eq : WordStore.bytes store' = WordStore.bytes store

theorem WordStore.SameRoom.trans {S : Type} [WordStore S] {store store' store'' : S}
    (h : SameRoom store store') (h' : SameRoom store' store'') : SameRoom store store'' where
  capacity_eq := h'.capacity_eq.trans h.capacity_eq
  bytes_eq := h'.bytes_eq.trans h.bytes_eq

open WordStore (SameRoom)

/-- The contract of the room of a word store. -/
class LawfulRoom (S : Type) [WordStore S] [LawfulStore S] where
  /-- The words held lie in the room there is. -/
  Fits : S → Prop
  empty : Fits WordStore.empty
  ofBuffer {buffer : Buffer Word} : buffer.size ≤ buffer.capacity →
    Fits (WordStore.ofBuffer buffer)
  modifyWord (i : Nat) (f : Word → Word) : (WordStore.modifyWord i f).Keeps Fits
  fill (lo hi : Nat) (value : Word) : (WordStore.fill lo hi value).Keeps Fits
  reserve (memory : Allocator) (n : Nat) : (WordStore.reserve memory n).Keeps Fits
  resize {store : S} (n : Nat) : Fits store → Fits (WordStore.resize n store)
  shrink {store : S} : Fits store → Fits (WordStore.shrink store)
  duplicate {store : S} : Fits store → Fits (WordStore.duplicate store)
  length_le {store : S} {words : List Word} : LawfulStore.Holds store words → Fits store →
    words.length ≤ WordStore.capacity store
  reserve_of_le {store : S} (memory : Allocator) {n : Nat} : n ≤ WordStore.capacity store →
    WordStore.reserve memory n store = .ok () store
  le_capacity {store store' : S} {words : List Word} {memory : Allocator} {n : Nat} :
    LawfulStore.Holds store words → Fits store →
      WordStore.reserve memory n store = .ok () store' → n ≤ WordStore.capacity store'
  sameRoom_modifyWord {store store' : S} {words : List Word} {i : Nat} {f : Word → Word} :
    LawfulStore.Holds store words → Fits store → WordStore.modifyWord i f store = .ok () store' →
      SameRoom store store'
  sameRoom_resize {store : S} {words : List Word} {n : Nat} :
    LawfulStore.Holds store words → Fits store → n ≤ WordStore.capacity store →
      SameRoom store (WordStore.resize n store)

/-! ## Buffers -/

namespace Buffer

variable {α : Type} {buffer : Buffer α}

/-- The items held lie in the room there is. -/
def Fits (buffer : Buffer α) : Prop := buffer.size ≤ buffer.capacity

theorem fits_ofArray (items : Array α) : (ofArray items).Fits := Nat.le_refl _

theorem Fits.modify (h : buffer.Fits) (i : Nat) (f : α → α) : (buffer.modify i f).Fits := by
  have hsize : (buffer.modify i f).size = buffer.size := Array.size_modify
  rw [Fits, hsize]
  exact h

theorem Fits.resize (h : buffer.Fits) (n : Nat) (item : α) : (buffer.resize n item).Fits := by
  rw [Fits, size_resize]
  simp only [Buffer.resize]
  split
  · exact Nat.le_trans ‹_› h
  · exact le_grown _ _

theorem keeps_fill (lo hi : Nat) (item : α) : (fill lo hi item).Keeps Fits := by
  intro buffer h
  by_cases hin : lo ≤ hi ∧ hi ≤ buffer.size
  · have hrun : fill lo hi item buffer =
        .ok () (buffer.modifyRange lo (hi - lo) fun _ _ => item) := if_pos hin
    rw [Edit.after_of_ok hrun, Fits, size_modifyRange, capacity_modifyRange]
    exact h
  · have hrun : fill lo hi item buffer = .error (.fault (.wordRange lo hi buffer.size)) buffer :=
      if_neg hin
    rw [Edit.after_of_error hrun]
    exact h

/-- A request for more room than there is takes none away. -/
theorem fits_of_request {edit : Edit (Buffer α) Unit} {needed room : Nat} {granted : Bool}
    (h : buffer.Fits) (hroom : buffer.capacity < needed → buffer.capacity ≤ room)
    (hrun : edit buffer = if needed ≤ buffer.capacity then .ok () buffer
      else if granted = true then .ok () { buffer with capacity := room }
      else .error .allocation buffer) : (edit.after buffer).Fits := by
  unfold Edit.after
  rw [hrun]
  rcases Nat.lt_or_ge buffer.capacity needed with hless | henough
  · rw [if_neg (Nat.not_le.mpr hless)]
    cases granted with
    | true => exact Nat.le_trans h (hroom hless)
    | false => exact h
  · rw [if_pos henough]
    exact h

theorem keeps_reserve (memory : Allocator) (request : Nat → Request) (needed : Nat) :
    (reserve memory request needed : Edit (Buffer α) Unit).Keeps Fits :=
  fun _ h => fits_of_request h (fun _ => capacity_le_grown _ _) rfl

theorem keeps_reserveExact (memory : Allocator) (request : Nat → Request) (needed : Nat) :
    (reserveExact memory request needed : Edit (Buffer α) Unit).Keeps Fits :=
  fun _ h => fits_of_request h Nat.le_of_lt rfl

/-- A request that is granted makes the room that it is for. -/
theorem yields_room_of_request {edit : Edit (Buffer α) Unit} {needed room : Nat} {granted : Bool}
    (hroom : needed ≤ room)
    (hrun : edit buffer = if needed ≤ buffer.capacity then .ok () buffer
      else if granted = true then .ok () { buffer with capacity := room }
      else .error .allocation buffer) :
    edit.Yields buffer (fun _ buffer' => needed ≤ buffer'.capacity) fun _ _ => True := by
  unfold Edit.Yields
  rw [hrun]
  rcases Nat.lt_or_ge buffer.capacity needed with hless | henough
  · rw [if_neg (Nat.not_le.mpr hless)]
    cases granted with
    | true => exact hroom
    | false => trivial
  · rw [if_pos henough]
    exact henough

end Buffer

/-! ## Stores in one piece -/

namespace Flat

theorem keeps_onBuffer {α : Type} {edit : Edit (Buffer Word) α} (h : edit.Keeps Buffer.Fits) :
    (onBuffer edit).Keeps fun store => store.buffer.Fits := by
  intro store hstore
  rw [(editsPiece_onBuffer edit store).after_eq]
  exact h store.buffer hstore

theorem sameRoom_of_capacity_eq {store store' : Flat}
    (h : store'.buffer.capacity = store.buffer.capacity) : SameRoom store store' where
  capacity_eq := h
  bytes_eq := congrArg (fun capacity => listHeaderBytes + wordBytes * capacity) h

instance : LawfulRoom Flat where
  Fits store := store.buffer.Fits
  empty := Nat.le_refl 0
  ofBuffer h := h
  modifyWord := by
    intro i f store h
    by_cases hlt : i < store.buffer.size
    · have hrun : WordStore.modifyWord i f store = .ok () ⟨store.buffer.modify i f⟩ := if_pos hlt
      rw [Edit.after_of_ok hrun]
      exact Buffer.Fits.modify h i f
    · have hrun : WordStore.modifyWord i f store =
          .error (.fault (.wordIndex i store.buffer.size)) store := if_neg hlt
      rw [Edit.after_of_error hrun]
      exact h
  fill lo hi value := keeps_onBuffer (Buffer.keeps_fill lo hi value)
  reserve memory n := keeps_onBuffer (Buffer.keeps_reserve memory _ n)
  resize n h := Buffer.Fits.resize h n 0#64
  shrink _ := Buffer.fits_ofArray _
  duplicate _ := Buffer.fits_ofArray _
  length_le := by
    intro store words hstore h
    subst hstore
    exact Array.length_toList ▸ h
  reserve_of_le memory n h := (editsPiece_onBuffer _ _).ok (if_pos h)
  le_capacity := by
    intro store store' words memory n hstore h hrun
    have hroom : (WordStore.reserve memory n).Yields store
        (fun _ store' => n ≤ WordStore.capacity store') fun _ _ => True :=
      (editsPiece_onBuffer _ store).yields
        (Buffer.yields_room_of_request (Buffer.le_grown _ n) rfl)
    exact hroom.of_ok hrun
  sameRoom_modifyWord := by
    intro store store' words i f hstore h hrun
    have hlt : i < store.buffer.size := by
      apply Decidable.byContradiction
      intro hpast
      have herror : WordStore.modifyWord i f store =
          .error (.fault (.wordIndex i store.buffer.size)) store := if_neg hpast
      cases herror.symm.trans hrun
    have hok : WordStore.modifyWord i f store = .ok () ⟨store.buffer.modify i f⟩ := if_pos hlt
    cases hok.symm.trans hrun
    exact sameRoom_of_capacity_eq rfl
  sameRoom_resize _ _ hn := sameRoom_of_capacity_eq (Buffer.capacity_resize_of_le 0#64 hn)

end Flat

end PackedBits
