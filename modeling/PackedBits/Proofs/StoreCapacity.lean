import PackedBits.Proofs.SegmentRoom
import PackedBits.Proofs.StoreTwin

/-!
# The capacity of a store is exact

A store has room in several places: in its list of segments and in each segment, or in
one piece. Everything but `shrink` leaves each place the room it had or more, and the
capacity goes with the room. `LawfulCapacity` says what the capacity then means: a size
within it asks for nothing, a size past it cannot do without more room somewhere, and
`shrink` leaves a capacity that is the size. The store in one piece and those in segments
keep it; in segments no gap in the room can hide, as the first segment that has too little
room for a size gets more when the store takes that size.
-/

namespace PackedBits

/-- Where a store has room. -/
inductive Place where
  /-- The list of segments. -/
  | list
  /-- The words of segment `s`; a store in one piece is segment 0. -/
  | segment (s : Nat)

/-- The contract of the capacity of a word store. -/
class LawfulCapacity (S : Type) [WordStore S] [LawfulStore S] [LawfulRoom S] where
  /-- The room that a store has in a place. -/
  room : S → Place → Nat
  modifyWord (least : Place → Nat) (i : Nat) (f : Word → Word) :
    (WordStore.modifyWord i f).Keeps fun store : S => ∀ place, least place ≤ room store place
  fill (least : Place → Nat) (lo hi : Nat) (value : Word) :
    (WordStore.fill lo hi value).Keeps fun store : S => ∀ place, least place ≤ room store place
  reserve (least : Place → Nat) (memory : Allocator) (n : Nat) :
    (WordStore.reserve memory n).Keeps fun store : S => ∀ place, least place ≤ room store place
  resize (store : S) (n : Nat) (place : Place) :
    room store place ≤ room (WordStore.resize n store) place
  capacity_mono {store store' : S} {words words' : List Word} :
    LawfulStore.Holds store words → LawfulRoom.Fits store →
      LawfulStore.Holds store' words' → LawfulRoom.Fits store' →
      (∀ place, room store place ≤ room store' place) →
      WordStore.capacity store ≤ WordStore.capacity store'
  room_resize_of_le {store : S} {words : List Word} {n : Nat} :
    LawfulStore.Holds store words → LawfulRoom.Fits store → n ≤ WordStore.capacity store →
      room (WordStore.resize n store) = room store
  exists_room_lt {store : S} {words : List Word} {n : Nat} :
    LawfulStore.Holds store words → LawfulRoom.Fits store → WordStore.capacity store < n →
      ∃ place, room store place < room (WordStore.resize n store) place
  capacity_shrink {store : S} {words : List Word} :
    LawfulStore.Holds store words → LawfulRoom.Fits store →
      WordStore.capacity (WordStore.shrink store) = words.length
  holds_fill (lo hi : Nat) (value : Word) :
    (WordStore.fill lo hi value).Keeps fun store : S => ∃ words, LawfulStore.Holds store words

/-! ## Buffers -/

namespace Buffer

variable {α : Type}

theorem capacity_le_resize (buffer : Buffer α) (n : Nat) (item : α) :
    buffer.capacity ≤ (buffer.resize n item).capacity := by
  simp only [Buffer.resize]
  split
  · exact Nat.le_refl _
  · exact capacity_le_grown _ _

/-- A request takes no room away, granted or not. -/
theorem capacity_le_of_request {edit : Edit (Buffer α) Unit} {buffer : Buffer α}
    {needed room : Nat} {granted : Bool}
    (hroom : buffer.capacity < needed → buffer.capacity ≤ room)
    (hrun : edit buffer = if needed ≤ buffer.capacity then .ok () buffer
      else if granted = true then .ok () { buffer with capacity := room }
      else .error .allocation buffer) :
    buffer.capacity ≤ (edit.after buffer).capacity := by
  unfold Edit.after
  rw [hrun]
  rcases Nat.lt_or_ge buffer.capacity needed with hless | henough
  · rw [if_neg (Nat.not_le.mpr hless)]
    cases granted with
    | true => exact hroom hless
    | false => exact Nat.le_refl _
  · exact Nat.le_of_eq (by rw [if_pos henough])

theorem keeps_capacity_reserve (memory : Allocator) (request : Nat → Request) (needed : Nat)
    {least : Nat} : (reserve memory request needed : Edit (Buffer α) Unit).Keeps
      fun buffer => least ≤ buffer.capacity :=
  fun _ h => Nat.le_trans h (capacity_le_of_request (fun _ => capacity_le_grown _ _) rfl)

theorem size_after_fill (lo hi : Nat) (item : α) (buffer : Buffer α) :
    ((fill lo hi item).after buffer).size = buffer.size := by
  unfold Edit.after fill
  by_cases hrange : lo ≤ hi ∧ hi ≤ buffer.size
  · rw [if_pos hrange]
    exact size_modifyRange ..
  · rw [if_neg hrange]

/-- A buffer read at the places of another of the same size. -/
theorem getElem?_of_size_eq {buffer other : Buffer α} (h : buffer.size = other.size) (k : Nat) :
    buffer.items[k]? = other.items[k]?.map fun item => buffer.items[k]?.getD item := by
  rcases Nat.lt_or_ge k other.items.size with hheld | hpast
  · have hheld' : k < buffer.items.size := Nat.lt_of_lt_of_eq hheld h.symm
    rw [Array.getElem?_eq_getElem hheld', Array.getElem?_eq_getElem hheld]
    rfl
  · have hpast' : buffer.items.size ≤ k := Nat.le_trans (Nat.le_of_eq h) hpast
    rw [Array.getElem?_eq_none hpast', Array.getElem?_eq_none hpast]
    rfl

end Buffer

/-! ## Stores in one piece -/

namespace Flat

/-- The room of a store in one piece is that of its buffer. -/
def room (store : Flat) : Place → Nat
  | .segment 0 => store.buffer.capacity
  | _ => 0

theorem room_le_of_capacity_le {store store' : Flat}
    (h : store.buffer.capacity ≤ store'.buffer.capacity) (place : Place) :
    store.room place ≤ store'.room place := by
  unfold room
  split
  · exact h
  · exact Nat.le_refl 0

theorem keeps_room {α : Type} {edit : Edit Flat α} {least : Place → Nat}
    (h : ∀ store, store.buffer.capacity ≤ (edit.after store).buffer.capacity) :
    edit.Keeps fun store => ∀ place, least place ≤ store.room place :=
  fun store hleast place =>
    Nat.le_trans (hleast place) (room_le_of_capacity_le (h store) place)

instance : LawfulCapacity Flat where
  room := room
  modifyWord least i f := keeps_room fun store => by
    by_cases hlt : i < store.buffer.size
    · rw [Edit.after_of_ok (show WordStore.modifyWord i f store = _ from if_pos hlt)]
      exact Nat.le_refl _
    · exact Nat.le_of_eq <| congrArg (Buffer.capacity ∘ Flat.buffer)
        (Edit.after_of_error (show WordStore.modifyWord i f store = _ from if_neg hlt)).symm
  fill least lo hi value := keeps_room fun store => by
    have hafter : (WordStore.fill lo hi value : Edit Flat Unit).after store = _ :=
      (editsPiece_onBuffer (Buffer.fill lo hi value) store).after_eq
    rw [hafter]
    exact Nat.le_of_eq (Buffer.capacity_after_fill lo hi value store.buffer).symm
  reserve least memory n := keeps_room fun store => by
    have hafter : (WordStore.reserve memory n : Edit Flat Unit).after store = _ :=
      (editsPiece_onBuffer (Buffer.reserve memory (.words 0) n) store).after_eq
    rw [hafter]
    exact Buffer.keeps_capacity_reserve memory _ n store.buffer (Nat.le_refl _)
  resize store n := room_le_of_capacity_le (Buffer.capacity_le_resize store.buffer n 0#64)
  capacity_mono _ _ _ _ hroom := hroom (.segment 0)
  room_resize_of_le _ _ hn := by
    have hcapacity := Buffer.capacity_resize_of_le 0#64 hn
    funext place
    unfold room
    split
    · exact hcapacity
    · rfl
  exists_room_lt := by
    intro store words n _ hfits hn
    have hroom := Buffer.Fits.resize hfits n 0#64
    rw [Buffer.Fits, Buffer.size_resize] at hroom
    exact ⟨.segment 0, Nat.lt_of_lt_of_le hn hroom⟩
  capacity_shrink := by
    intro store words h _
    subst h
    exact Array.length_toList.symm
  holds_fill lo hi value := fun store _ => ⟨_, rfl⟩

end Flat

/-! ## Stores in segments -/

namespace Segmented

variable {shift : Nat} {store store' : Segmented shift} {words words' : List Word}
  {least : Place → Nat}

/-- The room of the list of segments, and of the words of each segment; a segment that is not
in the list has none. -/
def room (store : Segmented shift) : Place → Nat
  | .list => store.segments.capacity
  | .segment s => ((store.segments.items[s]?).map Buffer.capacity).getD 0

theorem room_eq_of_shape_eq (h : store.shape = store'.shape) : store.room = store'.room := by
  obtain ⟨hrooms, hroom⟩ := Prod.mk.inj h
  funext place
  cases place with
  | list => exact hroom
  | segment s =>
    have hs := congrArg (fun rooms => rooms[s]?.getD 0) hrooms
    simp only [List.getElem?_map, Array.getElem?_toList] at hs
    exact hs

theorem keeps_room_of_shape {edit : Edit (Segmented shift) Unit}
    (h : ∀ t, edit.Keeps fun store => store.shape = t) :
    edit.Keeps fun store => ∀ place, least place ≤ store.room place := by
  intro store hleast
  rw [room_eq_of_shape_eq (h store.shape store rfl)]
  exact hleast

/-- A segment that gets more room takes none from the others. -/
theorem room_le_modify {segments : Buffer (Buffer Word)} {s : Nat} {size : Nat}
    {change : Buffer Word → Buffer Word}
    (hgrows : ∀ segment, segments.items[s]? = some segment →
      segment.capacity ≤ (change segment).capacity) (place : Place) :
    room (⟨segments, size⟩ : Segmented shift) place ≤
      room (⟨segments.modify s change, size⟩ : Segmented shift) place := by
  cases place with
  | list => exact Nat.le_refl _
  | segment t =>
    simp only [room, Buffer.modify, Array.getElem?_modify]
    by_cases hst : s = t
    · subst hst
      rw [if_pos rfl]
      cases hs : segments.items[s]? with
      | none => exact Nat.le_refl _
      | some segment => exact hgrows segment hs
    · exact Nat.le_of_eq (by rw [if_neg hst])

theorem keeps_room_onSegment {edit : Edit (Buffer Word) Unit}
    (hgrows : ∀ segment, segment.capacity ≤ (edit.after segment).capacity) (s : Nat) :
    (onSegment s edit : Edit (Segmented shift) Unit).Keeps fun store =>
      ∀ place, least place ≤ store.room place := by
  refine keeps_of_segment fun store segment hleast hs place => ?_
  refine Nat.le_trans (hleast place) (room_le_modify (fun other hother => ?_) place)
  cases hs.symm.trans hother
  exact hgrows segment

theorem keeps_room_reserveIn (memory : Allocator) (s needed : Nat) :
    (reserveIn memory s needed : Edit (Segmented shift) Unit).Keeps fun store =>
      ∀ place, least place ≤ store.room place := by
  refine keeps_room_onSegment (fun segment => ?_) s
  by_cases hless : segment.capacity < needed
  · simp only [Edit.after, if_pos hless]
    exact Buffer.capacity_le_of_request Nat.le_of_lt rfl
  · simp only [Edit.after, if_neg hless]
    exact Nat.le_refl _

/-- The segments that a longer list gets have no room. -/
theorem room_le_lengthen (segments : Buffer (Buffer Word)) (size size' count : Nat)
    (hlonger : segments.size ≤ count) (place : Place) :
    room (⟨segments, size⟩ : Segmented shift) place ≤
      room (⟨segments.resize count .empty, size'⟩ : Segmented shift) place := by
  cases place with
  | list => exact Buffer.capacity_le_resize _ _ _
  | segment s =>
    simp only [room]
    rw [← Array.getElem?_toList, ← Array.getElem?_toList, Buffer.toList_resize, getElem?_resized]
    cases hs : segments.items.toList[s]? with
    | none => exact Nat.zero_le _
    | some segment =>
      have hlt := (List.getElem?_eq_some_iff.mp hs).1
      rw [Array.length_toList] at hlt
      rw [if_pos (Nat.lt_of_lt_of_le hlt hlonger)]
      exact Nat.le_refl _

theorem room_le_resize (store : Segmented shift) (n : Nat) (place : Place) :
    store.room place ≤ (resize n store).room place := by
  obtain ⟨segments, first, count, hresize, hsegments⟩ := exists_resize n store
  have hlong : store.room place ≤ room (⟨segments, n⟩ : Segmented shift) place := by
    rcases hsegments with ⟨-, rfl⟩ | ⟨hlonger, rfl⟩
    · cases place with
      | list => exact Nat.le_refl _
      | segment s => exact Nat.le_refl _
    · exact room_le_lengthen store.segments store.size n _ (Nat.le_of_lt hlonger) place
  refine Nat.le_trans hlong ?_
  rw [hresize]
  cases place with
  | list => exact Nat.le_of_eq (Buffer.capacity_modifyRange ..).symm
  | segment s =>
    simp only [room]
    rw [Buffer.getElem?_modifyRange]
    split
    · cases hs : segments.items[s]? with
      | none => exact Nat.le_refl _
      | some segment => exact Buffer.capacity_le_resize segment _ _
    · exact Nat.le_refl _

/-- A list of segments that is made longer leaves each segment its room, and is itself left
with the room it had where it cannot be made longer. -/
theorem yields_room_lengthen (memory : Allocator) {count : Nat}
    (hlonger : store.segments.size < count) :
    (onSegments do
      Buffer.reserve memory .segments count
      modify (Buffer.resize count .empty)).Yields store
      (fun _ store' => ∀ place, store.room place ≤ store'.room place)
      fun _ store' => ∀ place, store.room place ≤ store'.room place := by
  have hitems : (Buffer.reserve memory .segments count).Yields store.segments
      (fun _ segments => segments.items = store.segments.items)
      fun failure segments => failure = .allocation ∧ segments.items = store.segments.items :=
    Buffer.yields_of_request rfl
  have hlist := (Buffer.keeps_capacity_reserve memory .segments count).yields
    (Nat.le_refl store.segments.capacity)
  have hkept : ∀ segments : Buffer (Buffer Word), segments.items = store.segments.items →
      store.segments.capacity ≤ segments.capacity → ∀ place, store.room place ≤
        room (⟨segments, store.size⟩ : Segmented shift) place := by
    intro segments hsame hroom place
    cases place with
    | list => exact hroom
    | segment s =>
      simp only [room, hsame]
      exact Nat.le_refl _
  refine (editsPiece_onSegments _ store).yields (Edit.Yields.bind
    ((hitems.both hlist).mono (fun _ _ hmade => hmade)
      fun _ _ hfailed => hkept _ hfailed.1.2 hfailed.2) ?_)
  rintro _ segments ⟨hsame, hroom⟩
  refine Edit.yields_modify fun place => Nat.le_trans (hkept segments hsame hroom place) ?_
  refine room_le_lengthen segments _ _ count ?_ place
  rw [Buffer.size, hsame]
  exact Nat.le_of_lt hlonger

theorem keeps_room_reserve (memory : Allocator) (needed : Nat) :
    (reserve memory needed : Edit (Segmented shift) Unit).Keeps fun store =>
      ∀ place, least place ≤ store.room place := by
  have hloop : ∀ first count, (visitUp first count fun s => reserveIn memory s
      (heldBy shift s needed) : Edit (Segmented shift) Unit).Keeps fun store =>
        ∀ place, least place ≤ store.room place :=
    Edit.keeps_visitUp fun s => keeps_room_reserveIn memory s _
  refine Edit.keeps_of_yields fun store hleast => Edit.yields_bind_ok (a := store) rfl ?_
  split
  · simp only
    split
    · have hgrows : ∀ store' : Segmented shift, (∀ place, store.room place ≤ store'.room place) →
          ∀ place, least place ≤ store'.room place :=
        fun store' hroom place => Nat.le_trans (hleast place) (hroom place)
      refine ((yields_room_lengthen memory ‹_›).mono (fun _ => hgrows) fun _ => hgrows).bind
        fun _ store' hstore' => (hloop _ _).yields hstore'
    · exact (hloop _ _).yields hleast
  · exact Edit.yields_pure hleast

/-! ### What can be used goes with the room -/

/-- The first `n` words have room where each segment has room for those that it would hold. -/
theorem Chunked.le_capacity_iff (h : store.Chunked words) (hfits : store.Fits) {n : Nat} :
    n ≤ store.capacity ↔ ∀ s, heldBy shift s n ≤ store.room (.segment s) := by
  rw [h.capacity_eq hfits, le_usable_iff]
  refine forall_congr' fun s => ?_
  rw [Array.getElem?_toList, room]
  constructor
  · intro hroom
    rcases Nat.eq_zero_or_pos (heldBy shift s n) with hnone | hsome
    · rw [hnone]
      exact Nat.zero_le _
    · obtain ⟨segment, hsegment, hle⟩ := hroom hsome
      rw [hsegment]
      exact hle
  · intro hroom hsome
    cases hs : store.segments.items[s]? with
    | none =>
      rw [hs] at hroom
      exact absurd hroom (Nat.not_le.mpr hsome)
    | some segment =>
      rw [hs] at hroom
      exact ⟨segment, rfl, hroom⟩

theorem Chunked.capacity_mono (h : store.Chunked words) (hfits : store.Fits)
    (h' : store'.Chunked words') (hfits' : store'.Fits)
    (hroom : ∀ place, store.room place ≤ store'.room place) :
    store.capacity ≤ store'.capacity := by
  refine (h'.le_capacity_iff hfits').mpr fun s => Nat.le_trans ?_ (hroom (.segment s))
  exact (h.le_capacity_iff hfits).mp (Nat.le_refl _) s

/-- The words that a segment holds have room in it. -/
theorem Chunked.heldBy_le_room (h : store.Chunked words) (hfits : store.Fits) (s : Nat) :
    heldBy shift s words.length ≤ store.room (.segment s) :=
  (h.le_capacity_iff hfits).mp (h.length_le hfits) s

/-- Past what can be used, some segment has too little room for the words that it would get. -/
theorem Chunked.exists_room_lt (h : store.Chunked words) (hfits : store.Fits) {n : Nat}
    (hn : store.capacity < n) :
    ∃ place, store.room place < (Segmented.resize n store).room place := by
  have hgap : ¬∀ s, heldBy shift s n ≤ store.room (.segment s) := fun hroom =>
    Nat.not_le.mpr hn ((h.le_capacity_iff hfits).mpr hroom)
  obtain ⟨s, hs⟩ := Classical.not_forall.mp hgap
  have hheld := (h.resize n).heldBy_le_room (hfits.resize n) s
  rw [length_resized] at hheld
  exact ⟨.segment s, Nat.lt_of_lt_of_le (Nat.not_le.mp hs) hheld⟩

theorem Chunked.room_resize_of_le (h : store.Chunked words) (hfits : store.Fits) {n : Nat}
    (hn : n ≤ store.capacity) : (Segmented.resize n store).room = store.room := by
  obtain ⟨hlist, hsame⟩ := h.capacities_resize hfits hn
  funext place
  cases place with
  | list => exact hlist
  | segment s => exact congrArg (Option.getD · 0) (hsame s)

/-- What is shrunk has no more room in a segment than the segment has words. -/
theorem Chunked.room_shrink (h : store.Chunked words) (s : Nat) :
    (Segmented.shrink store).room (.segment s) ≤ heldBy shift s words.length := by
  rw [room]
  cases hs : (Segmented.shrink store).segments.items[s]? with
  | none => exact Nat.zero_le _
  | some segment =>
    have hexact : segment.capacity = segment.size := by
      simp only [Segmented.shrink, Buffer.items_ofArray, Array.getElem?_map] at hs
      obtain ⟨old, -, hsegment⟩ := Option.map_eq_some_iff.mp hs
      rw [← hsegment]
      rfl
    have hsize := h.shrink.size_segment hs
    exact Nat.le_of_eq (hexact.trans hsize)

theorem Chunked.capacity_shrink (h : store.Chunked words) :
    (Segmented.shrink store).capacity = words.length := by
  have hfits : (Segmented.shrink store).Fits := fits_map _ (fun _ => Nat.le_refl _) _
  refine Nat.le_antisymm (Nat.le_of_not_lt fun hmore => ?_) (h.shrink.length_le hfits)
  have hroom := (h.shrink.le_capacity_iff hfits).mp hmore (segmentOf shift words.length)
  have hheld := h.room_shrink (segmentOf shift words.length)
  have hbounds := segmentOf_bounds shift words.length
  unfold heldBy at hroom hheld
  omega

/-! ### Fills of any range -/

theorem place_shiftLeft_add {s k : Nat} (hk : k < segmentSize shift) :
    segmentOf shift (s <<< shift + k) = s ∧ displacement shift (s <<< shift + k) = k := by
  have hsegment : segmentOf shift (s <<< shift + k) = s :=
    segmentOf_eq_iff.mpr ⟨Nat.le_add_right _ _, Nat.add_lt_add_left hk _⟩
  have hsplit := segmentOf_shiftLeft_add shift (s <<< shift + k)
  rw [hsegment] at hsplit
  exact ⟨hsegment, Nat.add_left_cancel hsplit⟩

/-- A segment that is changed in place keeps the store in good order. -/
theorem Chunked.exists_words_modify (h : store.Chunked words) {s : Nat} {segment : Buffer Word}
    {change : Buffer Word → Buffer Word} (hs : store.segments.items[s]? = some segment)
    (hsize : (change segment).size = segment.size) :
    ∃ words', Chunked (⟨store.segments.modify s change, store.size⟩ : Segmented shift) words' := by
  refine ⟨words.mapIdx fun i w => if segmentOf shift i = s then
      (change segment).items[displacement shift i]?.getD w else w,
    h.modify_segment change hs List.length_mapIdx ?_ ?_⟩
  · intro i hi
    rw [List.getElem?_mapIdx]
    simp only [if_neg hi, Option.map_id']
  · apply List.ext_getElem?
    intro k
    rw [Array.getElem?_toList, getElem?_chunk, List.getElem?_mapIdx]
    by_cases hk : k < segmentSize shift
    · obtain ⟨hsegment, hdisplacement⟩ := place_shiftLeft_add hk
      rw [if_pos hk, ← h.getElem?_segment hs hk, hdisplacement]
      simp only [if_pos hsegment]
      exact Buffer.getElem?_of_size_eq hsize k
    · have hpast : (change segment).size ≤ k := by
        rw [hsize, h.size_segment hs]
        exact Nat.le_trans (Nat.min_le_right _ _) (Nat.le_of_not_lt hk)
      rw [if_neg hk]
      exact Array.getElem?_eq_none hpast

theorem keeps_chunked_onSegment {edit : Edit (Buffer Word) Unit}
    (hsize : ∀ segment, (edit.after segment).size = segment.size) (s : Nat) :
    (onSegment s edit : Edit (Segmented shift) Unit).Keeps fun store =>
      ∃ words, store.Chunked words := by
  refine keeps_of_segment fun store segment hwords hs => ?_
  obtain ⟨words, h⟩ := hwords
  exact h.exists_words_modify hs (hsize segment)

/-- A fill that a segment refuses leaves the segments before it filled. -/
theorem keeps_chunked_fill (lo hi : Nat) (value : Word) :
    (fill lo hi value : Edit (Segmented shift) Unit).Keeps fun store =>
      ∃ words, store.Chunked words := by
  unfold fill
  split
  · exact Edit.keeps_pure ()
  · exact Edit.keeps_visitUp
      (fun s => keeps_chunked_onSegment (Buffer.size_after_fill _ _ value) s) _ _

instance : LawfulCapacity (Segmented shift) where
  room := room
  modifyWord _ i f := keeps_room_of_shape (keeps_shape_modifyWord i f)
  fill _ lo hi value := keeps_room_of_shape (keeps_shape_fill lo hi value)
  reserve _ memory n := keeps_room_reserve memory n
  resize store n := room_le_resize store n
  capacity_mono h hfits h' hfits' hroom := Chunked.capacity_mono h hfits h' hfits' hroom
  room_resize_of_le h hfits hn := Chunked.room_resize_of_le h hfits hn
  exists_room_lt h hfits hn := Chunked.exists_room_lt h hfits hn
  capacity_shrink h _ := h.capacity_shrink
  holds_fill := keeps_chunked_fill

end Segmented

end PackedBits
