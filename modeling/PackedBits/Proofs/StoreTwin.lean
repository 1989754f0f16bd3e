import PackedBits.Proofs.SegmentLaw

/-!
# Segments are a plain list of words

A store in segments and a store in one piece are made of the same words and
then put through the same operations, each asking memory of its own. Whatever
the requests and their answers were, the two hold the same words, and the
segments are the chunks of those words. A store filled word by word is the
store that its own way of filling leaves, room included.
-/

namespace PackedBits

/-! ## Operations on a store -/

/-- An operation on a store of words. -/
inductive StoreOp where
  | resize (n : Nat)
  | reserve (n : Nat)
  | shrink
  | modify (i : Nat) (f : Word → Word)
  | fill (lo hi : Nat) (value : Word)

namespace StoreOp

/-- Runs an operation on a store. -/
def run {S : Type} [WordStore S] (memory : Allocator) : StoreOp → Edit S Unit
  | resize n => modifyGet fun store => ((), WordStore.resize n store)
  | reserve n => WordStore.reserve memory n
  | shrink => modifyGet fun store => ((), WordStore.shrink store)
  | modify i f => WordStore.modifyWord i f
  | fill lo hi value => WordStore.fill lo hi value

/-- A list in memory can have the size that is set, and a range to fill lies in order
among the `n` words; nothing else is asked of an operation. -/
def Admitted (n : Nat) : StoreOp → Prop
  | resize size => size ≤ maxWords
  | fill lo hi _ => lo ≤ hi ∧ hi ≤ n
  | _ => True

/-- A size that is admitted can be counted in segments. -/
theorem run_resize_eq_setSize {shift n size : Nat} (hshift : shift < 64) (memory : Allocator)
    (hop : (resize size).Admitted n) (store : Segmented shift) :
    (resize size).run memory store = WordStore.setSize size store := by
  have hcheck : WordStore.checkSize store size = .ok () :=
    Segmented.checkSize_of_le hshift hop
  have hset : WordStore.setSize size store = .ok () (WordStore.resize size store) :=
    (Edit.bind_ok rfl).trans (Edit.bind_ok (Edit.liftM_ok hcheck))
  exact hset.symm

/-- The words that an operation leaves of `words`. -/
def effect (words : List Word) : StoreOp → List Word
  | resize n => resized n 0#64 words
  | reserve _ => words
  | shrink => words
  | modify i f => words.modify i f
  | fill lo hi value => rewritten lo hi (fun _ _ => value) words

/-- An operation leaves the words that it should, refused or not. -/
theorem holds_after {S : Type} [WordStore S] [LawfulStore S] [LawfulFill S] {store : S}
    {words : List Word} (h : LawfulStore.Holds store words) (memory : Allocator) {op : StoreOp}
    (hop : op.Admitted words.length) :
    LawfulStore.Holds ((op.run memory).after store) (op.effect words) := by
  cases op with
  | resize n => exact LawfulStore.resize n h
  | reserve n =>
    exact ((LawfulStore.reserve memory n h).mono (fun _ _ hholds => hholds)
      fun _ _ hfailed => hfailed.2).after
  | shrink => exact LawfulStore.shrink h
  | modify i f =>
    rcases Nat.lt_or_ge i words.length with hlt | hpast
    · obtain ⟨store', hrun, hholds⟩ := LawfulStore.modifyWord_eq f h hlt
      rw [run, Edit.after_of_ok hrun]
      exact hholds
    · obtain ⟨cause, hrun⟩ := LawfulStore.modifyWord_past f h hpast
      rw [run, Edit.after_of_error hrun, effect, List.modify_eq_self hpast]
      exact h
  | fill lo hi value =>
    obtain ⟨store', hrun, hholds⟩ := LawfulFill.fill_eq value h hop.1 hop.2
    rw [run, Edit.after_of_ok hrun]
    exact hholds

end StoreOp

/-! ## Filling word by word -/

/-- Where a store is known by its words and its shape, and no write changes the
shape, a store filled word by word is the store filled its own way. -/
theorem LawfulFill.fill_eq_fillEach {S Shape : Type} [WordStore S] [LawfulStore S] [LawfulFill S]
    (shape : S → Shape)
    (hknown : ∀ {store store' : S} {words : List Word}, LawfulStore.Holds store words →
      LawfulStore.Holds store' words → shape store = shape store' → store = store')
    (hmodify : ∀ (i : Nat) (f : Word → Word) (t : Shape),
      (WordStore.modifyWord i f : Edit S Unit).Keeps fun store => shape store = t)
    (hfill : ∀ (lo hi : Nat) (value : Word) (t : Shape),
      (WordStore.fill lo hi value : Edit S Unit).Keeps fun store => shape store = t)
    {store : S} {words : List Word} {lo hi : Nat} (value : Word)
    (h : LawfulStore.Holds store words) (hle : lo ≤ hi) (hhi : hi ≤ words.length) :
    WordStore.fill lo hi value store = WordStore.fillEach lo hi value store := by
  obtain ⟨whole, hwhole, hwords⟩ := LawfulFill.fill_eq value h hle hhi
  obtain ⟨each, heach, hwords'⟩ := LawfulStore.exists_fillEach value h hle hhi
  have hshape : shape whole = shape store := by
    have hkept := hfill lo hi value (shape store) store rfl
    rwa [Edit.after_of_ok hwhole] at hkept
  have hshape' : shape each = shape store := by
    have hkept : (WordStore.fillEach lo hi value).Keeps fun store' => shape store' = shape store :=
      Edit.keeps_visitUp (fun i => hmodify i (fun _ => value) (shape store)) lo (hi - lo)
    rw [← Edit.after_of_ok heach]
    exact hkept store rfl
  have hsame : whole = each := hknown hwords hwords' (hshape.trans hshape'.symm)
  rw [hwhole, heach, hsame]

/-! ## Shapes -/

theorem Buffer.capacity_after_fill (lo hi : Nat) (value : Word) (buffer : Buffer Word) :
    ((Buffer.fill lo hi value).after buffer).capacity = buffer.capacity := by
  unfold Edit.after Buffer.fill
  by_cases hrange : lo ≤ hi ∧ hi ≤ buffer.size
  · rw [if_pos hrange]
    exact Buffer.capacity_modifyRange ..
  · rw [if_neg hrange]

namespace Segmented

variable {shift : Nat}

/-- The room of each segment and of the list of segments. -/
def shape (store : Segmented shift) : List Nat × Nat :=
  (store.segments.items.toList.map Buffer.capacity, store.segments.capacity)

/-- A store in good order is known by its words and its shape. -/
theorem eq_of_shape_eq {store store' : Segmented shift} {words : List Word}
    (h : store.Chunked words) (h' : store'.Chunked words) (hshape : store.shape = store'.shape) :
    store = store' := by
  obtain ⟨⟨items, capacity⟩, size⟩ := store
  obtain ⟨⟨items', capacity'⟩, size'⟩ := store'
  obtain ⟨hrooms, hroom⟩ := Prod.mk.inj hshape
  have hroom : capacity = capacity' := hroom
  have hsize : size = size' := h.size_eq.trans h'.size_eq.symm
  have hitems : items = items' := by
    apply Array.toList_inj.mp
    apply List.ext_getElem?
    intro s
    have hrooms := congrArg (fun rooms => rooms[s]?) hrooms
    simp only [List.getElem?_map] at hrooms
    rcases hs : items.toList[s]? with _ | segment
    · rcases hs' : items'.toList[s]? with _ | segment'
      · rfl
      · simp [hs, hs'] at hrooms
    · rcases hs' : items'.toList[s]? with _ | segment'
      · simp [hs, hs'] at hrooms
      · obtain ⟨held, room⟩ := segment
        obtain ⟨held', room'⟩ := segment'
        have hheld : held = held' := by
          rw [Array.getElem?_toList] at hs hs'
          exact Array.toList_inj.mp ((h.chunk_eq hs).trans (h'.chunk_eq hs').symm)
        have hroom : room = room' := by simpa [hs, hs'] using hrooms
        rw [hheld, hroom]
  rw [hitems, hroom, hsize]

/-- A change of one segment that leaves its room alone leaves the shape alone. -/
theorem shape_modify {segments : Buffer (Buffer Word)} {s : Nat} {segment : Buffer Word}
    {change : Buffer Word → Buffer Word} (hs : segments.items[s]? = some segment)
    (hroom : (change segment).capacity = segment.capacity) (size : Nat) :
    (⟨segments.modify s change, size⟩ : Segmented shift).shape =
      (⟨segments, size⟩ : Segmented shift).shape := by
  refine Prod.ext ?_ rfl
  apply List.ext_getElem?
  intro t
  simp only [shape, Buffer.modify, List.getElem?_map, Array.getElem?_toList, Array.getElem?_modify]
  by_cases hst : s = t
  · subst hst
    rw [if_pos rfl, hs]
    exact congrArg some hroom
  · rw [if_neg hst]

theorem keeps_shape_modifyWord (i : Nat) (f : Word → Word) (t : List Nat × Nat) :
    (modifyWord i f : Edit (Segmented shift) Unit).Keeps fun store => store.shape = t := by
  intro store hstore
  obtain ⟨segments, size⟩ := store
  rcases hs : segments.items[segmentOf shift i]? with _ | segment
  · rw [Edit.after_of_error (by simp only [modifyWord, hs]; rfl)]
    exact hstore
  · rcases Nat.lt_or_ge (displacement shift i) segment.size with hheld | hheld
    · rw [Edit.after_of_ok (by simp only [modifyWord, hs, if_pos hheld]; rfl)]
      exact (shape_modify hs rfl size).trans hstore
    · rw [Edit.after_of_error (by simp only [modifyWord, hs, if_neg (Nat.not_lt.mpr hheld)]; rfl)]
      exact hstore

theorem keeps_shape_onSegment {edit : Edit (Buffer Word) Unit}
    (hroom : ∀ segment, (edit.after segment).capacity = segment.capacity) (s : Nat)
    (t : List Nat × Nat) :
    (onSegment s edit : Edit (Segmented shift) Unit).Keeps fun store => store.shape = t := by
  refine keeps_of_segment fun store segment hstore hs => ?_
  refine (shape_modify hs ?_ store.size).trans hstore
  exact hroom segment

theorem keeps_shape_fill (lo hi : Nat) (value : Word) (t : List Nat × Nat) :
    (fill lo hi value : Edit (Segmented shift) Unit).Keeps fun store => store.shape = t := by
  unfold fill
  split
  · exact Edit.keeps_pure ()
  · exact Edit.keeps_visitUp
      (fun s => keeps_shape_onSegment (Buffer.capacity_after_fill _ _ value) s t) _ _

/-- The way of segments to fill a range is the way word by word. -/
theorem fill_eq_fillEach {store : Segmented shift} {words : List Word} {lo hi : Nat} (value : Word)
    (h : store.Chunked words) (hle : lo ≤ hi) (hhi : hi ≤ words.length) :
    WordStore.fill lo hi value store = WordStore.fillEach lo hi value store :=
  LawfulFill.fill_eq_fillEach shape eq_of_shape_eq keeps_shape_modifyWord keeps_shape_fill value h
    hle hhi

end Segmented

namespace Flat

/-- The way of a plain list to fill a range is the way word by word. -/
theorem fill_eq_fillEach {store : Flat} {words : List Word} {lo hi : Nat} (value : Word)
    (h : LawfulStore.Holds store words) (hle : lo ≤ hi) (hhi : hi ≤ words.length) :
    WordStore.fill lo hi value store = WordStore.fillEach lo hi value store := by
  refine LawfulFill.fill_eq_fillEach (fun store : Flat => store.buffer.capacity) ?_ ?_ ?_ value h
    hle hhi
  · intro store store' words hwords hwords' hroom
    obtain ⟨⟨items, capacity⟩⟩ := store
    obtain ⟨⟨items', capacity'⟩⟩ := store'
    have hitems : items = items' := Array.toList_inj.mp (hwords.trans hwords'.symm)
    have hroom : capacity = capacity' := hroom
    rw [hitems, hroom]
  · intro i f t store hstore
    rcases Nat.lt_or_ge i store.buffer.size with hlt | hpast
    · rw [Edit.after_of_ok (show WordStore.modifyWord i f store = _ from if_pos hlt)]
      exact hstore
    · have hnot := Nat.not_lt.mpr hpast
      rw [Edit.after_of_error (show WordStore.modifyWord i f store = _ from if_neg hnot)]
      exact hstore
  · intro lo hi value t store hstore
    have hafter : (WordStore.fill lo hi value : Edit Flat Unit).after store = _ :=
      (editsPiece_onBuffer (Buffer.fill lo hi value) store).after_eq
    rw [hafter]
    exact (Buffer.capacity_after_fill lo hi value store.buffer).trans hstore

end Flat

/-! ## Twins -/

section Twins

variable {shift : Nat}

/-- A store in segments and a plain list that are made of the same words and
put through the same operations. Each operation asks each store's own
allocator, so it may be refused to one of them and not to the other. -/
inductive Twins : Segmented shift → Flat → Prop where
  | empty : Twins WordStore.empty WordStore.empty
  | ofBuffer (buffer : Buffer Word) : Twins (WordStore.ofBuffer buffer) (WordStore.ofBuffer buffer)
  | adopt (segments : Array (Array Word)) (store : Segmented shift) :
    Segmented.adopt segments = .ok store →
    Twins store (WordStore.ofArray (segments.toList.map Array.toList).flatten.toArray)
  | step (op : StoreOp) (memory memory' : Allocator) {store : Segmented shift} {flat : Flat} :
    Twins store flat → op.Admitted store.size →
    Twins ((op.run memory).after store) ((op.run memory').after flat)

/-- The two hold the same words. -/
theorem Twins.exists_words {store : Segmented shift} {flat : Flat} (h : Twins store flat) :
    ∃ words, store.Chunked words ∧ LawfulStore.Holds flat words := by
  induction h with
  | empty => exact ⟨[], LawfulStore.empty (S := Segmented shift), LawfulStore.empty⟩
  | ofBuffer buffer =>
    exact ⟨_, LawfulStore.ofBuffer (S := Segmented shift) buffer, LawfulStore.ofBuffer buffer⟩
  | adopt segments store hadopt =>
    exact ⟨_, Segmented.chunked_of_adopt hadopt, LawfulStore.ofBuffer (S := Flat) _⟩
  | step op memory memory' _ hop ih =>
    obtain ⟨words, hchunked, hflat⟩ := ih
    rw [hchunked.size_eq] at hop
    exact ⟨_, StoreOp.holds_after (S := Segmented shift) hchunked memory hop,
      StoreOp.holds_after hflat memory' hop⟩

/-- A store in segments does what a plain list of words does. -/
structure Simulates (store : Segmented shift) (flat : Flat) : Prop where
  size_eq : store.size = flat.buffer.size
  word_eq (i : Nat) : i < store.size →
    ∃ w, WordStore.word store i = .ok w ∧ WordStore.word flat i = .ok w
  word_past (i : Nat) : store.size ≤ i →
    (∃ cause, WordStore.word store i = .error (.fault cause)) ∧
      ∃ cause, WordStore.word flat i = .error (.fault cause)
  modifyWord_eq (i : Nat) (f : Word → Word) : i < store.size →
    (∃ store', WordStore.modifyWord i f store = .ok () store') ∧
      ∃ flat', WordStore.modifyWord i f flat = .ok () flat'
  modifyWord_past (i : Nat) (f : Word → Word) : store.size ≤ i →
    (∃ cause, WordStore.modifyWord i f store = .error (.fault cause) store) ∧
      ∃ cause, WordStore.modifyWord i f flat = .error (.fault cause) flat
  /-- A segment that is not in the list counts as one of no words. -/
  segment_size (s : Nat) : ((store.segments.items[s]?).map Buffer.size).getD 0 =
    min (Segmented.segmentSize shift) (store.size - s * Segmented.segmentSize shift)
  inUse_eq : store.inUse.toList.map Array.toList =
    (List.range ((store.size + Segmented.segmentSize shift - 1) / Segmented.segmentSize shift)).map
      fun s => (flat.buffer.items.toList.drop (s * Segmented.segmentSize shift)).take
        (Segmented.segmentSize shift)
  flatten_inUse : (store.inUse.toList.map Array.toList).flatten = flat.buffer.items.toList
  intoSegments_eq : store.intoSegments = store.inUse
  fill_eq (lo hi : Nat) (value : Word) : lo ≤ hi → hi ≤ store.size →
    ∃ store' flat',
      WordStore.fill lo hi value store = .ok () store' ∧
      WordStore.fillEach lo hi value store = .ok () store' ∧
      WordStore.fill lo hi value flat = .ok () flat' ∧
      WordStore.fillEach lo hi value flat = .ok () flat' ∧
      ∀ i, i < store.size → ∃ w, WordStore.word store' i = .ok w ∧ WordStore.word flat' i = .ok w

/-- Stores of the same words are read the same way. -/
theorem exists_word_of_holds {store : Segmented shift} {flat : Flat} {words : List Word}
    (h : store.Chunked words) (hflat : LawfulStore.Holds flat words) {i : Nat}
    (hlt : i < words.length) :
    ∃ w, WordStore.word store i = .ok w ∧ WordStore.word flat i = .ok w := by
  have hw := List.getElem?_eq_getElem hlt
  exact ⟨_, h.word_eq hw, LawfulStore.word_eq hflat hw⟩

namespace Segmented

/-- The segments in use are the chunks of the words. -/
theorem Chunked.inUse_eq {store : Segmented shift} {words : List Word} (h : store.Chunked words) :
    store.inUse.toList.map Array.toList =
      (List.range (segmentsFor shift words.length)).map fun s => chunk shift s words := by
  apply List.ext_getElem?
  intro s
  have henough := h.enough
  simp only [inUse, List.getElem?_map, Array.toList_map, Array.toList_extract, List.map_map,
    List.extract_eq_take_drop, List.drop_zero, Nat.sub_zero, h.size_eq, List.getElem?_take,
    Array.getElem?_toList]
  rcases Nat.lt_or_ge s (segmentsFor shift words.length) with hs | hs
  · obtain ⟨segment, hsegment⟩ := h.exists_segment hs
    rw [if_pos hs, hsegment, List.getElem?_range hs]
    exact congrArg some (h.chunk_eq hsegment)
  · rw [if_neg (Nat.not_lt.mpr hs), List.getElem?_eq_none (by rw [List.length_range]; omega)]
    rfl

theorem intoSegments_eq_inUse (store : Segmented shift) : store.intoSegments = store.inUse := by
  simp [intoSegments, inUse, Buffer.truncate]

/-- Every segment has the words that are left for it, up to a full segment. -/
theorem Chunked.segment_size {store : Segmented shift} {words : List Word}
    (h : store.Chunked words) (s : Nat) :
    ((store.segments.items[s]?).map Buffer.size).getD 0 = heldBy shift s words.length := by
  rcases hs : store.segments.items[s]? with _ | segment
  · have hout : segmentsFor shift words.length ≤ s :=
      Nat.le_trans h.enough (Array.getElem?_eq_none_iff.mp hs)
    have hnone := segmentsFor_le_iff.mp hout
    simp only [heldBy, Option.map_none, Option.getD_none]
    omega
  · have hlength := congrArg List.length (h.chunk_eq hs)
    rw [length_chunk, Array.length_toList] at hlength
    exact hlength

end Segmented

theorem simulates_of_holds {store : Segmented shift} {flat : Flat} {words : List Word}
    (h : store.Chunked words) (hflat : LawfulStore.Holds flat words) : Simulates store flat where
  size_eq := by
    rw [h.size_eq]
    exact (LawfulStore.size_eq hflat).symm
  word_eq i hi := exists_word_of_holds h hflat (h.size_eq ▸ hi)
  word_past i hi := by
    rw [h.size_eq] at hi
    exact ⟨h.word_past hi, LawfulStore.word_past hflat hi⟩
  modifyWord_eq i f hi := by
    rw [h.size_eq] at hi
    obtain ⟨store', hrun, _⟩ := h.modifyWord_eq f hi
    obtain ⟨flat', hrun', _⟩ := LawfulStore.modifyWord_eq f hflat hi
    exact ⟨⟨store', hrun⟩, flat', hrun'⟩
  modifyWord_past i f hi := by
    rw [h.size_eq] at hi
    exact ⟨h.modifyWord_past f hi, LawfulStore.modifyWord_past f hflat hi⟩
  segment_size s := by
    rw [h.segment_size, Segmented.heldBy, Segmented.shiftLeft_eq_mul, h.size_eq, Nat.min_comm]
  inUse_eq := by
    have hwords : flat.buffer.items.toList = words := hflat
    have hcount : (store.size + Segmented.segmentSize shift - 1) / Segmented.segmentSize shift =
        Segmented.segmentsFor shift words.length := by
      rw [Segmented.segmentsFor, Segmented.topDisplacement, Nat.shiftRight_eq_div_pow,
        ← Nat.one_shiftLeft, ← Segmented.segmentSize, h.size_eq,
        Nat.add_sub_assoc (Segmented.segmentSize_pos shift)]
    rw [h.inUse_eq, hwords, hcount]
    simp only [Segmented.chunk, Segmented.shiftLeft_eq_mul]
  flatten_inUse := by
    have hwords : flat.buffer.items.toList = words := hflat
    rw [h.inUse_eq, hwords, Segmented.flatten_chunks]
    exact List.take_of_length_le (Segmented.segmentsFor_le_iff.mp (Nat.le_refl _))
  intoSegments_eq := store.intoSegments_eq_inUse
  fill_eq lo hi value hle hhi := by
    rw [h.size_eq] at hhi
    obtain ⟨store', hrun, hstore'⟩ := h.fill_eq lo value hhi
    obtain ⟨flat', hrun', hflat'⟩ := LawfulFill.fill_eq value hflat hle hhi
    refine ⟨store', flat', hrun, ?_, hrun', ?_, ?_⟩
    · rw [← Segmented.fill_eq_fillEach value h hle hhi]
      exact hrun
    · rw [← Flat.fill_eq_fillEach value hflat hle hhi]
      exact hrun'
    · intro i hi
      rw [h.size_eq] at hi
      exact exists_word_of_holds hstore' hflat' (by rwa [length_rewritten])

/-- However the two were made and whatever they were put through, the store in
segments does what the plain list does. -/
theorem twins_simulate {store : Segmented shift} {flat : Flat} (h : Twins store flat) :
    Simulates store flat := by
  obtain ⟨words, hchunked, hflat⟩ := h.exists_words
  exact simulates_of_holds hchunked hflat

/-- Segments of two words, grown to three words, written, refused more room and
cut to two. -/
theorem twins_simulate_refused_growth :
    let stingy := Allocator.upTo 0
    let ops := [StoreOp.resize 3, .modify 2 fun _ => 7#64, .reserve 9, .resize 2]
    let run {S : Type} [WordStore S] (store : S) : S :=
      ops.foldl (fun store op => (op.run stingy).after store) store
    Twins (run (WordStore.empty : Segmented 1)) (run WordStore.empty) ∧
      Simulates (run (WordStore.empty : Segmented 1)) (run WordStore.empty) := by
  intro stingy ops run
  have h : Twins (run (WordStore.empty : Segmented 1)) (run WordStore.empty) :=
    (((Twins.empty.step (.resize 3) stingy stingy (by decide : 3 ≤ maxWords)).step
      (.modify 2 fun _ => 7#64) stingy stingy trivial).step (.reserve 9) stingy stingy
      trivial).step (.resize 2) stingy stingy (by decide : 2 ≤ maxWords)
  exact ⟨h, twins_simulate h⟩

end Twins

end PackedBits
