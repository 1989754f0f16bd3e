import PackedBits.Proofs.StoreLaw
import PackedBits.Store.Segmented

/-!
# A store in segments keeps the contract

Segment `s` of a store in good order holds exactly the words from
`s <<< shift` on, as far as the segment and the words reach; segments past the
last one in use therefore hold none. `Segmented.Chunked` says that, and every
operation is shown to carry it from the words before to the words that the
contract asks for. The places where an operation stops one segment short or
goes one too far are all decided by the two bounds `segmentOf_eq_iff` and
`segmentsFor_le_iff`.
-/

namespace PackedBits

namespace Segmented

variable {shift : Nat}

/-! ## Where segments begin and end -/

theorem shiftLeft_eq_mul (shift s : Nat) : s <<< shift = s * segmentSize shift := by
  rw [segmentSize, Nat.one_shiftLeft, Nat.shiftLeft_eq]

theorem succ_shiftLeft (shift s : Nat) :
    (s + 1) <<< shift = s <<< shift + segmentSize shift := by
  rw [shiftLeft_eq_mul, shiftLeft_eq_mul, Nat.succ_mul]

theorem shiftLeft_le_shiftLeft (shift : Nat) {s t : Nat} (h : s ≤ t) :
    s <<< shift ≤ t <<< shift := by
  rw [shiftLeft_eq_mul, shiftLeft_eq_mul]
  exact Nat.mul_le_mul_right _ h

/-- A word lies in segment `s` when it lies between the beginnings of that
segment and of the next. -/
theorem segmentOf_eq_iff {i s : Nat} :
    segmentOf shift i = s ↔ s <<< shift ≤ i ∧ i < s <<< shift + segmentSize shift := by
  have hpos := segmentSize_pos shift
  have hdiv : segmentOf shift i = i / segmentSize shift := by
    rw [segmentOf, Nat.shiftRight_eq_div_pow, segmentSize, Nat.one_shiftLeft]
  rw [hdiv, Nat.div_eq_iff hpos, shiftLeft_eq_mul]
  omega

theorem segmentOf_bounds (shift i : Nat) : segmentOf shift i <<< shift ≤ i ∧
    i < segmentOf shift i <<< shift + segmentSize shift :=
  segmentOf_eq_iff.mp rfl

theorem segmentOf_le_segmentOf (shift : Nat) {i j : Nat} (h : i ≤ j) :
    segmentOf shift i ≤ segmentOf shift j := by
  apply Nat.le_of_not_lt
  intro hback
  have hnext := shiftLeft_le_shiftLeft shift (Nat.succ_le_of_lt hback)
  rw [Nat.succ_eq_add_one, succ_shiftLeft] at hnext
  have hi := segmentOf_bounds shift i
  have hj := segmentOf_bounds shift j
  omega

theorem segmentOf_shiftLeft_add (shift i : Nat) :
    segmentOf shift i <<< shift + displacement shift i = i := by
  rw [shiftLeft_eq_mul, Nat.mul_comm]
  exact segmentOf_displacement shift i

theorem displacement_lt (shift i : Nat) : displacement shift i < segmentSize shift :=
  Nat.mod_lt i (segmentSize_pos shift)

/-- As many segments as hold `n` words end at or past the last of them. -/
theorem segmentsFor_le_iff {n s : Nat} : segmentsFor shift n ≤ s ↔ n ≤ s <<< shift := by
  have hpos := segmentSize_pos shift
  have hdiv : segmentsFor shift n = (n + (segmentSize shift - 1)) / segmentSize shift := by
    rw [segmentsFor, topDisplacement, Nat.shiftRight_eq_div_pow, segmentSize, Nat.one_shiftLeft]
  rw [hdiv, Nat.div_le_iff_le_mul hpos, shiftLeft_eq_mul]
  omega

theorem segmentOf_lt_segmentsFor (shift : Nat) {i n : Nat} (h : i < n) :
    segmentOf shift i < segmentsFor shift n := by
  apply Nat.lt_of_not_le
  intro hle
  have hend := segmentsFor_le_iff.mp hle
  have hbegin := segmentOf_bounds shift i
  omega

/-! ## The words of a segment -/

/-- The words that segment `s` holds. -/
def chunk (shift s : Nat) (words : List Word) : List Word :=
  (words.drop (s <<< shift)).take (segmentSize shift)

theorem getElem?_chunk (s : Nat) (words : List Word) (k : Nat) :
    (chunk shift s words)[k]? =
      if k < segmentSize shift then words[s <<< shift + k]? else none := by
  rw [chunk, List.getElem?_take, List.getElem?_drop]

theorem length_chunk (s : Nat) (words : List Word) :
    (chunk shift s words).length = heldBy shift s words.length := by
  rw [chunk, List.length_take, List.length_drop, heldBy, Nat.min_comm]

/-- The first `count` segments hold the first `count <<< shift` words. -/
theorem flatten_chunks (count : Nat) (words : List Word) :
    ((List.range count).map fun s => chunk shift s words).flatten =
      words.take (count <<< shift) := by
  induction count with
  | zero => rw [Nat.zero_shiftLeft, List.take_zero, List.range_zero, List.map_nil, List.flatten_nil]
  | succ count ih =>
    rw [List.range_succ, List.map_append, List.flatten_append, ih, List.map_singleton,
      List.flatten_singleton, chunk, succ_shiftLeft, List.take_add]

/-- A segment depends on its own words only. -/
theorem chunk_congr {s : Nat} {words words' : List Word}
    (h : ∀ i, segmentOf shift i = s → words'[i]? = words[i]?) :
    chunk shift s words' = chunk shift s words := by
  apply List.ext_getElem?
  intro k
  rw [getElem?_chunk, getElem?_chunk]
  by_cases hk : k < segmentSize shift
  · rw [if_pos hk, if_pos hk]
    exact h _ (segmentOf_eq_iff.mpr ⟨by omega, by omega⟩)
  · rw [if_neg hk, if_neg hk]

/-- A store in good order: its size is the number of words, it has a segment
for each of them, and segment `s` holds chunk `s`. -/
structure Chunked (store : Segmented shift) (words : List Word) : Prop where
  size_eq : store.size = words.length
  enough : segmentsFor shift words.length ≤ store.segments.size
  chunk_eq {s : Nat} {segment : Buffer Word} : store.segments.items[s]? = some segment →
    segment.items.toList = chunk shift s words

variable {store : Segmented shift} {words words' : List Word}

theorem Chunked.getElem?_segment (h : store.Chunked words) {s : Nat} {segment : Buffer Word}
    (hs : store.segments.items[s]? = some segment) {k : Nat} (hk : k < segmentSize shift) :
    segment.items[k]? = words[s <<< shift + k]? := by
  rw [← Array.getElem?_toList, h.chunk_eq hs, getElem?_chunk, if_pos hk]

theorem Chunked.exists_segment (h : store.Chunked words) {s : Nat}
    (hs : s < segmentsFor shift words.length) :
    ∃ segment, store.segments.items[s]? = some segment := by
  have hlt : s < store.segments.items.size := Nat.lt_of_lt_of_le hs h.enough
  exact ⟨_, Array.getElem?_eq_getElem hlt⟩

/-- A change of one segment, in place, changes the words of that segment. -/
theorem Chunked.modify_segment (h : store.Chunked words) {s : Nat} {segment : Buffer Word}
    (change : Buffer Word → Buffer Word) (hs : store.segments.items[s]? = some segment)
    (hlength : words'.length = words.length)
    (hsame : ∀ i, segmentOf shift i ≠ s → words'[i]? = words[i]?)
    (hchunk : (change segment).items.toList = chunk shift s words') :
    Chunked (⟨store.segments.modify s change, store.size⟩ : Segmented shift) words' where
  size_eq := h.size_eq.trans hlength.symm
  enough := by
    rw [hlength]
    refine Nat.le_trans h.enough (Nat.le_of_eq ?_)
    simp [Buffer.modify, Buffer.size]
  chunk_eq := by
    intro t other ht
    simp only [Buffer.modify, Array.getElem?_modify] at ht
    by_cases hst : s = t
    · subst hst
      rw [if_pos rfl, hs] at ht
      cases ht
      exact hchunk
    · rw [if_neg hst] at ht
      rw [h.chunk_eq ht]
      exact (chunk_congr fun i hi => hsame i fun his => hst (his.symm.trans hi)).symm

/-! ## Reading and writing -/

theorem Chunked.word_eq (h : store.Chunked words) {i : Nat} {w : Word} (hw : words[i]? = some w) :
    store.word i = .ok w := by
  have hlt : i < words.length := (List.getElem?_eq_some_iff.mp hw).1
  obtain ⟨segment, hs⟩ := h.exists_segment (segmentOf_lt_segmentsFor shift hlt)
  have hitem := h.getElem?_segment hs (displacement_lt shift i)
  rw [segmentOf_shiftLeft_add, hw] at hitem
  simp only [word, hs, hitem]

theorem Chunked.word_past (h : store.Chunked words) {i : Nat} (hpast : words.length ≤ i) :
    ∃ cause, store.word i = .error (.fault cause) := by
  cases hs : store.segments.items[segmentOf shift i]? with
  | none => exact ⟨.wordIndex (segmentOf shift i) store.segments.size, by simp only [word, hs]⟩
  | some segment =>
    have hitem := h.getElem?_segment hs (displacement_lt shift i)
    rw [segmentOf_shiftLeft_add, List.getElem?_eq_none hpast] at hitem
    exact ⟨.wordIndex (displacement shift i) segment.size, by simp only [word, hs, hitem]⟩

theorem Chunked.modifyWord_eq (h : store.Chunked words) {i : Nat} (f : Word → Word)
    (hlt : i < words.length) :
    ∃ store' : Segmented shift, modifyWord i f store = .ok () store' ∧
      store'.Chunked (words.modify i f) := by
  obtain ⟨segment, hs⟩ := h.exists_segment (segmentOf_lt_segmentsFor shift hlt)
  have hdisplacement := displacement_lt shift i
  have hitem := h.getElem?_segment hs hdisplacement
  rw [segmentOf_shiftLeft_add, List.getElem?_eq_getElem hlt] at hitem
  have hheld : displacement shift i < segment.size := (Array.getElem?_eq_some_iff.mp hitem).1
  refine ⟨_, ?_, h.modify_segment (Buffer.modify (displacement shift i) f) hs
    (List.length_modify ..) ?_ ?_⟩
  · simp only [modifyWord, hs, if_pos hheld]
  · intro k hk
    have hne : i ≠ k := fun hik => hk (by rw [hik])
    rw [getElem?_modify_ite, if_neg hne]
  · apply List.ext_getElem?
    intro k
    rw [Buffer.modify, Array.getElem?_toList, Array.getElem?_modify, getElem?_chunk,
      getElem?_modify_ite]
    by_cases hk : k < segmentSize shift
    · have hsame : displacement shift i = k ↔ i = segmentOf shift i <<< shift + k := by
        have := segmentOf_shiftLeft_add shift i
        omega
      rw [if_pos hk, h.getElem?_segment hs hk]
      by_cases hik : displacement shift i = k
      · rw [if_pos hik, if_pos (hsame.mp hik)]
      · rw [if_neg hik, if_neg (fun heq => hik (hsame.mpr heq))]
    · have hnone : segment.items[k]? = none := by
        rw [← Array.getElem?_toList, h.chunk_eq hs, getElem?_chunk, if_neg hk]
      rw [if_neg hk, hnone, if_neg (by omega)]

theorem Chunked.modifyWord_past (h : store.Chunked words) {i : Nat} (f : Word → Word)
    (hpast : words.length ≤ i) :
    ∃ cause, modifyWord i f store = .error (.fault cause) store := by
  cases hs : store.segments.items[segmentOf shift i]? with
  | none =>
    exact ⟨.wordIndex (segmentOf shift i) store.segments.size, by simp only [modifyWord, hs]⟩
  | some segment =>
    have hitem := h.getElem?_segment hs (displacement_lt shift i)
    rw [segmentOf_shiftLeft_add, List.getElem?_eq_none hpast, Array.getElem?_eq_none_iff] at hitem
    have hheld : ¬displacement shift i < segment.size := Nat.not_lt.mpr hitem
    exact ⟨.wordIndex (displacement shift i) segment.size, by
      simp only [modifyWord, hs, if_neg hheld]⟩

theorem editsPiece_onSegment {α : Type} (edit : Edit (Buffer Word) α) {s : Nat}
    {segment : Buffer Word} (hs : store.segments.items[s]? = some segment) :
    (onSegment s edit).EditsPiece store edit segment
      fun segment' => ⟨store.segments.modify s fun _ => segment', store.size⟩ where
  ok hrun := by simp only [onSegment, hs, hrun]
  error hrun := by simp only [onSegment, hs, hrun]

/-- What an edit of a segment that there is keeps, the edit keeps of any segment. -/
theorem keeps_of_segment {α : Type} {inv : Segmented shift → Prop} {edit : Edit (Buffer Word) α}
    {s : Nat} (h : ∀ store segment, inv store → store.segments.items[s]? = some segment →
      inv ⟨store.segments.modify s fun _ => edit.after segment, store.size⟩) :
    (onSegment s edit).Keeps inv := by
  intro store hstore
  cases hs : store.segments.items[s]? with
  | none =>
    rw [Edit.after_of_error (by simp only [onSegment, hs]; rfl)]
    exact hstore
  | some segment =>
    rw [(editsPiece_onSegment edit hs).after_eq]
    exact h store segment hstore hs

/-- A range is written in a segment as far as it lies in it. -/
theorem rewritten_chunk (lo hi s : Nat) (value : Word) (words : List Word) :
    rewritten (max lo (s <<< shift) - s <<< shift) (min (hi - s <<< shift) (segmentSize shift))
        (fun _ _ => value) (chunk shift s words) =
      chunk shift s (rewritten lo (min hi ((s + 1) <<< shift)) (fun _ _ => value) words) := by
  apply List.ext_getElem?
  intro k
  have hsucc := succ_shiftLeft shift s
  rw [getElem?_rewritten, getElem?_chunk, getElem?_chunk]
  rcases Nat.lt_or_ge k (segmentSize shift) with hk | hk
  · have hiff : (max lo (s <<< shift) - s <<< shift ≤ k ∧
        k < min (hi - s <<< shift) (segmentSize shift)) ↔
        (lo ≤ s <<< shift + k ∧ s <<< shift + k < min hi ((s + 1) <<< shift)) := by omega
    rw [if_pos hk, if_pos hk, getElem?_rewritten]
    simp only [hiff]
  · rw [if_neg (Nat.not_lt.mpr hk), if_neg (Nat.not_lt.mpr hk), Option.map_none]

/-- One segment of a range is filled: the range that has been filled so far
grows up to the beginning of the next segment. -/
theorem Chunked.fill_segment {lo hi s : Nat} {value : Word} {store' : Segmented shift}
    (hfirst : segmentOf shift lo ≤ s) (hlast : s ≤ segmentOf shift (hi - 1)) (hlt : lo < hi)
    (hhi : hi ≤ words.length)
    (h : store'.Chunked (rewritten lo (min hi (s <<< shift)) (fun _ _ => value) words)) :
    ∃ store'' : Segmented shift,
      onSegment s (Buffer.fill (max lo (s <<< shift) - s <<< shift)
        (min (hi - s <<< shift) (segmentSize shift)) value) store' = .ok () store'' ∧
      store''.Chunked (rewritten lo (min hi ((s + 1) <<< shift)) (fun _ _ => value) words) := by
  have hfirst' := shiftLeft_le_shiftLeft shift hfirst
  have hlast' := shiftLeft_le_shiftLeft shift hlast
  have hlo := segmentOf_bounds shift lo
  have hend := segmentOf_bounds shift (hi - 1)
  have hsucc := succ_shiftLeft shift s
  have hexists : s < segmentsFor shift
      (rewritten lo (min hi (s <<< shift)) (fun _ _ => value) words).length := by
    rw [length_rewritten]
    have hbelow := segmentOf_lt_segmentsFor shift (show hi - 1 < words.length by omega)
    omega
  obtain ⟨segment, hs⟩ := h.exists_segment hexists
  have hsize : segment.items.size = heldBy shift s words.length := by
    rw [← Array.length_toList, h.chunk_eq hs, length_chunk, length_rewritten]
  have hheld : heldBy shift s words.length =
      min (words.length - s <<< shift) (segmentSize shift) := rfl
  have hrange : max lo (s <<< shift) - s <<< shift ≤ min (hi - s <<< shift) (segmentSize shift) ∧
      min (hi - s <<< shift) (segmentSize shift) ≤ segment.items.size := by omega
  refine ⟨_, (editsPiece_onSegment _ hs).ok (if_pos hrange), h.modify_segment _ hs ?_ ?_ ?_⟩
  · rw [length_rewritten, length_rewritten]
  · intro i hi'
    rw [getElem?_rewritten, getElem?_rewritten]
    have hout : ¬(s <<< shift ≤ i ∧ i < s <<< shift + segmentSize shift) :=
      fun hin => hi' (segmentOf_eq_iff.mpr hin)
    have hiff : (lo ≤ i ∧ i < min hi ((s + 1) <<< shift)) ↔
        (lo ≤ i ∧ i < min hi (s <<< shift)) := by omega
    simp only [hiff]
  · have hbefore : chunk shift s (rewritten lo (min hi (s <<< shift)) (fun _ _ => value) words) =
        chunk shift s words := by
      refine chunk_congr fun i hi' => ?_
      have hbounds := segmentOf_eq_iff.mp hi'
      have hout : ¬(lo ≤ i ∧ i < min hi (s <<< shift)) := by omega
      simp only [getElem?_rewritten, hout, if_false, Option.map_id']
    rw [Buffer.toList_modifyRange segment hrange.1, h.chunk_eq hs, hbefore, rewritten_chunk]

theorem Chunked.fill_eq (h : store.Chunked words) (lo : Nat) {hi : Nat} (value : Word)
    (hhi : hi ≤ words.length) :
    ∃ store' : Segmented shift, fill lo hi value store = .ok () store' ∧
      store'.Chunked (rewritten lo hi (fun _ _ => value) words) := by
  rcases Nat.lt_or_ge lo hi with hlt | hempty
  · have hlo := segmentOf_bounds shift lo
    have hend := segmentOf_bounds shift (hi - 1)
    have hsucc := succ_shiftLeft shift (segmentOf shift (hi - 1))
    have horder : segmentOf shift lo ≤ segmentOf shift (hi - 1) :=
      segmentOf_le_segmentOf shift (by omega)
    have hloop : (fill lo hi value).Yields store
        (fun _ (store' : Segmented shift) => store'.Chunked (rewritten lo
          (min hi ((segmentOf shift lo + (segmentOf shift (hi - 1) + 1 - segmentOf shift lo)) <<<
            shift)) (fun _ _ => value) words)) fun _ _ => False := by
      rw [fill, if_neg (Nat.not_le.mpr hlt)]
      refine Edit.yields_visitUp (fun s (store' : Segmented shift) => store'.Chunked
        (rewritten lo (min hi (s <<< shift)) (fun _ _ => value) words)) ?_ ?_
      · rwa [rewritten_of_le (by omega)]
      · intro s hfirst hlast store' hstore'
        obtain ⟨store'', hrun, hstore''⟩ :=
          hstore'.fill_segment hfirst (by omega) hlt hhi
        exact Edit.yields_of_ok hrun hstore''
    obtain ⟨_, store', hrun, hstore'⟩ := hloop.exists_ok
    refine ⟨store', hrun, ?_⟩
    rwa [show segmentOf shift lo + (segmentOf shift (hi - 1) + 1 - segmentOf shift lo) =
      segmentOf shift (hi - 1) + 1 by omega, hsucc, Nat.min_eq_left (by omega)] at hstore'
  · refine ⟨store, by rw [fill, if_pos hempty]; rfl, ?_⟩
    rwa [rewritten_of_le hempty]

/-! ## Growing and shrinking -/

/-- What segments hold does not depend on the room that they have. -/
theorem Chunked.of_words (h : store.Chunked words) {segments : Buffer (Buffer Word)}
    (hwords : segments.items.map Buffer.items = store.segments.items.map Buffer.items) :
    Chunked (⟨segments, store.size⟩ : Segmented shift) words where
  size_eq := h.size_eq
  enough := by
    have hsize := congrArg Array.size hwords
    rw [Array.size_map, Array.size_map] at hsize
    rw [Buffer.size, hsize]
    exact h.enough
  chunk_eq := by
    intro s segment hs
    have hitems := congrArg (fun words => words[s]?) hwords
    simp only [Array.getElem?_map, hs, Option.map_some] at hitems
    obtain ⟨other, hother, hsame⟩ := Option.map_eq_some_iff.mp hitems.symm
    rw [← hsame]
    exact h.chunk_eq hother

theorem Chunked.of_items (h : store.Chunked words) {segments : Buffer (Buffer Word)}
    (hitems : segments.items = store.segments.items) :
    Chunked (⟨segments, store.size⟩ : Segmented shift) words :=
  h.of_words (congrArg (Array.map Buffer.items) hitems)

/-- Segments with no words may be put at the end of the list. -/
theorem Chunked.extend (h : store.Chunked words) {count : Nat}
    (hcount : segmentsFor shift words.length ≤ count) :
    Chunked (⟨store.segments.resize count .empty, store.size⟩ : Segmented shift) words where
  size_eq := h.size_eq
  enough := by rwa [Buffer.size_resize]
  chunk_eq := by
    intro s segment hs
    rw [← Array.getElem?_toList, Buffer.toList_resize, getElem?_resized] at hs
    split at hs
    · cases hold : store.segments.items[s]? with
      | some old =>
        rw [Array.getElem?_toList, hold] at hs
        cases hs
        exact h.chunk_eq hold
      | none =>
        rw [Array.getElem?_toList, hold] at hs
        cases hs
        have hpast : store.segments.size ≤ s := Array.getElem?_eq_none_iff.mp hold
        have hnone := segmentsFor_le_iff.mp (Nat.le_trans h.enough hpast)
        rw [chunk, List.drop_of_length_le hnone, List.take_nil]
        rfl
    · cases hs

/-- The room of a segment is no part of its words. -/
theorem Chunked.reserveIn (h : store.Chunked words) (memory : Allocator) {s needed : Nat}
    (hs : s < store.segments.size) :
    (reserveIn memory s needed).Yields store
      (fun _ store' => store'.Chunked words ∧ store'.segments.size = store.segments.size)
      fun failure store' => failure = .allocation ∧ store'.Chunked words := by
  obtain ⟨segment, hsegment⟩ : ∃ segment, store.segments.items[s]? = some segment :=
    ⟨_, Array.getElem?_eq_getElem hs⟩
  have hkeep : ∀ segment' : Buffer Word, segment'.items = segment.items → Chunked
      (⟨store.segments.modify s fun _ => segment', store.size⟩ : Segmented shift) words := by
    intro segment' hitems
    refine h.modify_segment _ hsegment rfl (fun _ _ => rfl) ?_
    rw [hitems, h.chunk_eq hsegment]
  have hsize : ∀ segment' : Buffer Word,
      (store.segments.modify s fun _ => segment').size = store.segments.size := by
    intro segment'
    simp [Buffer.modify, Buffer.size]
  refine (editsPiece_onSegment _ hsegment).yields ?_
  rcases Nat.lt_or_ge segment.capacity needed with hless | hroom
  · have hask : (Buffer.reserveExact memory (.words s)
        (roomToAsk shift segment.capacity needed)).Yields segment
        (fun _ segment' => segment'.items = segment.items)
        fun failure segment' => failure = .allocation ∧ segment'.items = segment.items :=
      Buffer.yields_of_request rfl
    refine Edit.yields_congr (if_pos hless) (hask.mono ?_ ?_)
    · intro _ segment' hitems
      exact ⟨hkeep segment' hitems, hsize segment'⟩
    · rintro _ segment' ⟨hfailure, hitems⟩
      exact ⟨hfailure, hkeep segment' hitems⟩
  · exact Edit.yields_of_ok (if_neg (Nat.not_lt.mpr hroom)) ⟨hkeep segment rfl, hsize segment⟩

theorem editsPiece_onSegments {α : Type} (edit : Edit (Buffer (Buffer Word)) α)
    (store : Segmented shift) :
    (onSegments edit).EditsPiece store edit store.segments
      fun segments => ⟨segments, store.size⟩ where
  ok hrun := by simp only [onSegments, hrun]
  error hrun := by simp only [onSegments, hrun]

/-- A longer list of segments is asked for; the new segments are empty. -/
theorem Chunked.reserveList (h : store.Chunked words) (memory : Allocator) {count : Nat}
    (hless : store.segments.size < count) :
    (onSegments do
        Buffer.reserve memory .segments count
        modify (Buffer.resize count .empty)).Yields store
      (fun _ store' => store'.Chunked words ∧ count ≤ store'.segments.size)
      fun failure store' => failure = .allocation ∧ store'.Chunked words := by
  have hlarger : segmentsFor shift words.length ≤ count :=
    Nat.le_trans h.enough (Nat.le_of_lt hless)
  have hask : (Buffer.reserve memory .segments count).Yields store.segments
      (fun _ segments => segments.items = store.segments.items)
      fun failure segments => failure = .allocation ∧
        Chunked (⟨segments, store.size⟩ : Segmented shift) words :=
    (Buffer.yields_of_request rfl).mono (fun _ _ hitems => hitems)
      fun _ _ hfailed => ⟨hfailed.1, h.of_items hfailed.2⟩
  refine (editsPiece_onSegments _ store).yields (hask.bind fun _ segments hitems => ?_)
  exact Edit.yields_modify ⟨(h.of_items hitems).extend hlarger, by simp⟩

/-- A request for room leaves the words alone, also when it is refused after
some of the segments have got theirs. -/
theorem Chunked.reserve (h : store.Chunked words) (memory : Allocator) (needed : Nat) :
    (reserve memory needed).Yields store (fun _ store' => store'.Chunked words)
      fun failure store' => failure = .allocation ∧ store'.Chunked words := by
  have hloop : ∀ (first count : Nat) (store' : Segmented shift), store'.Chunked words →
      count ≤ store'.segments.size →
      (visitUp first (count - first) fun s => Segmented.reserveIn memory s
        (heldBy shift s needed)).Yields store' (fun _ store'' => store''.Chunked words)
        fun failure store'' => failure = .allocation ∧ store''.Chunked words := by
    intro first count store' hstore' hcount
    refine (Edit.yields_visitUp (fun _ (store'' : Segmented shift) => store''.Chunked words ∧
      store''.segments.size = store'.segments.size) ⟨hstore', rfl⟩ ?_).imp fun _ _ hend => hend.1
    rintro s hlo hs store'' ⟨hchunked, hsize⟩
    refine (hchunked.reserveIn memory (by omega)).imp fun _ _ hkept => ?_
    exact ⟨hkept.1, hkept.2.trans hsize⟩
  unfold Segmented.reserve
  refine Edit.yields_bind_ok (a := store) rfl ?_
  split
  · rcases Nat.lt_or_ge store.segments.size (segmentsFor shift needed) with hlist | hlist
    · simp only [if_pos hlist]
      exact (h.reserveList memory hlist).bind fun _ store' hstore' =>
        hloop _ _ store' hstore'.1 hstore'.2
    · simp only [if_neg (Nat.not_lt.mpr hlist)]
      exact hloop _ _ store h hlist
  · exact Edit.yields_pure h

/-- The segments that lie before both ends are full at either size, and those
past both ends are empty at either size. -/
theorem chunk_resized_of_outside {n s : Nat} (hout : s < segmentOf shift (min words.length n) ∨
    segmentsFor shift (max words.length n) ≤ s) :
    chunk shift s (resized n 0#64 words) = chunk shift s words := by
  apply chunk_congr
  intro i hi
  have hbounds := segmentOf_eq_iff.mp hi
  have hfirst := segmentOf_bounds shift (min words.length n)
  rw [getElem?_resized]
  rcases hout with hbefore | hafter
  · have hnext := shiftLeft_le_shiftLeft shift (Nat.succ_le_of_lt hbefore)
    rw [Nat.succ_eq_add_one, succ_shiftLeft] at hnext
    have hlt : i < words.length ∧ i < n := by omega
    rw [if_pos hlt.2, List.getElem?_eq_getElem hlt.1]
    rfl
  · have hnone := segmentsFor_le_iff.mp hafter
    rw [if_neg (show ¬i < n by omega), List.getElem?_eq_none (by omega)]

theorem resized_chunk (n s : Nat) (words : List Word) :
    resized (heldBy shift s n) 0#64 (chunk shift s words) =
      chunk shift s (resized n 0#64 words) := by
  apply List.ext_getElem?
  intro k
  have hheld : heldBy shift s n = min (n - s <<< shift) (segmentSize shift) := rfl
  rw [getElem?_resized, getElem?_chunk, getElem?_chunk]
  rcases Nat.lt_or_ge k (segmentSize shift) with hk | hk
  · have hiff : k < heldBy shift s n ↔ s <<< shift + k < n := by omega
    rw [if_pos hk, if_pos hk, getElem?_resized]
    simp only [hiff]
  · rw [if_neg (show ¬k < heldBy shift s n by omega), if_neg (Nat.not_lt.mpr hk)]

/-- A list of segments that is too short for `n` words is made longer. -/
theorem Chunked.lengthen (h : store.Chunked words) (n : Nat) :
    ∃ segments : Buffer (Buffer Word),
      (if store.segments.size < segmentsFor shift n then
        store.segments.resize (segmentsFor shift n) .empty else store.segments) = segments ∧
      Chunked (⟨segments, store.size⟩ : Segmented shift) words ∧
      segmentsFor shift n ≤ segments.size := by
  rcases Nat.lt_or_ge store.segments.size (segmentsFor shift n) with hlist | hlist
  · rw [if_pos hlist]
    exact ⟨_, rfl, h.extend (Nat.le_trans h.enough (Nat.le_of_lt hlist)), by simp⟩
  · rw [if_neg (Nat.not_lt.mpr hlist)]
    exact ⟨_, rfl, h, hlist⟩

/-- Only the segments between the old end and the new one change. -/
theorem Chunked.resize (h : store.Chunked words) (n : Nat) :
    (resize n store).Chunked (resized n 0#64 words) := by
  obtain ⟨segments, hsegments, hchunked, hcount⟩ := h.lengthen n
  have hresize : Segmented.resize n store =
      ⟨segments.modifyRange (segmentOf shift (min store.size n))
        (min (segmentsFor shift (max store.size n)) segments.size -
          segmentOf shift (min store.size n))
        fun s => Buffer.resize (heldBy shift s n) 0, n⟩ := by
    rw [← hsegments]
    rfl
  rw [hresize, h.size_eq]
  refine ⟨(length_resized ..).symm, ?_, ?_⟩
  · rw [length_resized, Buffer.size_modifyRange]
    exact hcount
  · intro s segment hs
    rw [Buffer.getElem?_modifyRange] at hs
    split at hs
    · obtain ⟨old, hold, hsegment⟩ := Option.map_eq_some_iff.mp hs
      rw [← hsegment, Buffer.toList_resize, hchunked.chunk_eq hold]
      exact resized_chunk n s words
    · rename_i hout
      have hlist : s < segments.size := (Array.getElem?_eq_some_iff.mp hs).1
      rw [hchunked.chunk_eq hs, chunk_resized_of_outside (n := n) (by omega)]

/-- Giving room back drops segments with no words and changes no other. -/
theorem Chunked.shrink (h : store.Chunked words) : (shrink store).Chunked words where
  size_eq := h.size_eq
  enough := by
    have hsize : (Segmented.shrink store).segments.size =
        min (segmentsFor shift store.size) store.segments.size := by
      simp [Segmented.shrink, Buffer.truncate, Buffer.ofArray, Buffer.size]
    rw [hsize, h.size_eq]
    exact Nat.le_min.mpr ⟨Nat.le_refl _, h.enough⟩
  chunk_eq := by
    intro s segment hs
    have hitems : (Segmented.shrink store).segments.items =
        (store.segments.items.shrink (segmentsFor shift store.size)).map Buffer.shrink := rfl
    rw [hitems, Array.getElem?_map, ← Array.getElem?_toList, Array.toList_shrink,
      List.getElem?_take, Array.getElem?_toList] at hs
    split at hs
    · obtain ⟨old, hold, hsegment⟩ := Option.map_eq_some_iff.mp hs
      rw [← hsegment, Buffer.items_shrink]
      exact h.chunk_eq hold
    · cases hs

theorem Chunked.duplicate (h : store.Chunked words) : (duplicate store).Chunked words where
  size_eq := h.size_eq
  enough := by
    have := h.enough
    simpa [Segmented.duplicate, Buffer.size] using this
  chunk_eq := by
    intro s segment hs
    simp only [Segmented.duplicate, Buffer.ofArray, Array.getElem?_map] at hs
    obtain ⟨old, hold, hsegment⟩ := Option.map_eq_some_iff.mp hs
    rw [← hsegment, Buffer.items_shrink]
    exact h.chunk_eq hold

/-! ## Building -/

theorem chunked_empty : (⟨.empty, 0⟩ : Segmented shift).Chunked [] where
  size_eq := rfl
  enough := segmentsFor_le_iff.mpr (Nat.zero_le _)
  chunk_eq hs := by cases hs

theorem chunked_ofWords (words : Array Word) :
    (ofWords words : Segmented shift).Chunked words.toList where
  size_eq := Array.length_toList.symm
  enough := by
    rw [Array.length_toList]
    simp [ofWords, Buffer.ofArray, Buffer.size]
  chunk_eq := by
    intro s segment hs
    simp only [ofWords, Buffer.ofArray, Array.getElem?_map] at hs
    obtain ⟨t, ht, hsegment⟩ := Option.map_eq_some_iff.mp hs
    have hst : t = s := by
      rw [Array.getElem?_range] at ht
      split at ht
      · exact (Option.some.inj ht).symm
      · cases ht
    rw [← hsegment, hst, Array.toList_extract, List.extract_eq_take_drop, succ_shiftLeft,
      Nat.add_sub_cancel_left]
    rfl

/-- Segments that are full up to the last one are the chunks of the words that
they come to. -/
theorem chunk_flatten {segments : List (Array Word)} {s : Nat} {segment : Array Word}
    (hfull : ∀ s segment, segments[s]? = some segment → s + 1 < segments.length →
      segment.size = segmentSize shift)
    (hlast : ∀ segment ∈ segments, segment.size ≤ segmentSize shift)
    (hs : segments[s]? = some segment) :
    chunk shift s (segments.map Array.toList).flatten = segment.toList := by
  induction segments generalizing s with
  | nil => cases hs
  | cons head rest ih =>
    have hhead : head.toList.length ≤ segmentSize shift := by
      rw [Array.length_toList]
      exact hlast head List.mem_cons_self
    cases s with
    | zero =>
      cases hs
      cases rest with
      | nil =>
        rw [chunk, Nat.zero_shiftLeft, List.drop_zero, List.map_singleton, List.flatten_singleton,
          List.take_of_length_le hhead]
      | cons next rest =>
        have hsize : segment.toList.length = segmentSize shift := by
          rw [Array.length_toList]
          exact hfull 0 segment rfl (by simp)
        rw [chunk, Nat.zero_shiftLeft, List.drop_zero, List.map_cons, List.flatten_cons,
          ← hsize, List.take_left]
    | succ s =>
      rw [List.getElem?_cons_succ] at hs
      have hmore : 0 < rest.length := Nat.zero_lt_of_lt (List.getElem?_eq_some_iff.mp hs).1
      have hsize : head.toList.length = segmentSize shift := by
        rw [Array.length_toList]
        exact hfull 0 head rfl (by rw [List.length_cons]; omega)
      have hrest := ih (fun t segment ht hlt => hfull (t + 1) segment ht
        (by rw [List.length_cons]; omega)) (fun segment hmem => hlast segment
        (List.mem_cons_of_mem _ hmem)) hs
      rw [chunk, succ_shiftLeft, List.map_cons, List.flatten_cons, Nat.add_comm, ← List.drop_drop,
        ← hsize, List.drop_left]
      rw [hsize]
      exact hrest

theorem length_flatten_le {segments : List (Array Word)}
    (hlast : ∀ segment ∈ segments, segment.size ≤ segmentSize shift) :
    (segments.map Array.toList).flatten.length ≤ segments.length <<< shift := by
  induction segments with
  | nil => exact Nat.zero_le _
  | cons head rest ih =>
    have hrest := ih fun segment hmem => hlast segment (List.mem_cons_of_mem _ hmem)
    have hhead := hlast head List.mem_cons_self
    rw [List.map_cons, List.flatten_cons, List.length_append, Array.length_toList,
      List.length_cons, succ_shiftLeft]
    omega

/-- Segments are adopted exactly when every one but the last is full and the
last is not too full. -/
theorem adopt_eq_ok_iff {segments : Array (Array Word)} {store : Segmented shift} :
    adopt segments = .ok store ↔
      (∀ s segment, segments.toList[s]? = some segment →
        if s < segments.size - 1 then segment.size = segmentSize shift
        else segment.size ≤ segmentSize shift) ∧
      (⟨.ofArray (segments.map Buffer.ofArray),
        segments.foldl (fun n segment => n + segment.size) 0⟩ : Segmented shift) = store := by
  have hnone : (segments.toList.zipIdx.find? fun entry =>
      if entry.2 < segments.size - 1 then entry.1.size != segmentSize shift
      else decide (segmentSize shift < entry.1.size)) = none ↔
      ∀ s segment, segments.toList[s]? = some segment →
        if s < segments.size - 1 then segment.size = segmentSize shift
        else segment.size ≤ segmentSize shift := by
    rw [List.find?_eq_none]
    constructor
    · intro h s segment hs
      have hgood := h (segment, s) (List.mk_mem_zipIdx_iff_getElem?.mpr hs)
      by_cases hbefore : s < segments.size - 1
      · simpa [hbefore] using hgood
      · simpa [hbefore] using hgood
    · intro h entry hentry
      have hgood := h entry.2 entry.1 (List.mk_mem_zipIdx_iff_getElem?.mp hentry)
      by_cases hbefore : entry.2 < segments.size - 1
      · simpa [hbefore] using hgood
      · simpa [hbefore] using hgood
  unfold adopt
  simp only
  rw [← hnone]
  constructor
  · intro h
    split at h
    · cases h
    · rename_i hfind
      exact ⟨hfind, Except.ok.inj h⟩
  · rintro ⟨hfind, hstore⟩
    rw [hfind, ← hstore]

/-- An adopted store is in good order and holds the words of its segments one
segment after the other. -/
theorem chunked_of_adopt {segments : Array (Array Word)} {store : Segmented shift}
    (h : adopt segments = .ok store) :
    store.Chunked (segments.toList.map Array.toList).flatten := by
  obtain ⟨hgood, hstore⟩ := adopt_eq_ok_iff.mp h
  have hlast : ∀ segment ∈ segments.toList, segment.size ≤ segmentSize shift := by
    intro segment hmem
    obtain ⟨s, hs⟩ := List.getElem?_of_mem hmem
    have hsize := hgood s segment hs
    split at hsize
    · exact Nat.le_of_eq hsize
    · exact hsize
  have hcount := length_flatten_le hlast
  subst hstore
  refine ⟨?_, ?_, ?_⟩
  · rw [← Array.foldl_toList, List.length_flatten, List.map_map]
    rw [List.sum_eq_foldl, List.foldl_map]
    rfl
  · refine Nat.le_trans (segmentsFor_le_iff.mpr hcount) (Nat.le_of_eq ?_)
    simp [Buffer.ofArray, Buffer.size]
  · intro s buffer hs
    simp only [Buffer.ofArray, Array.getElem?_map] at hs
    obtain ⟨segment, hsegment, hbuffer⟩ := Option.map_eq_some_iff.mp hs
    rw [← Array.getElem?_toList] at hsegment
    rw [← hbuffer]
    refine (chunk_flatten ?_ hlast hsegment).symm
    intro t other ht hlt
    have hother := hgood t other ht
    rw [Array.length_toList] at hlt
    rwa [if_pos (show t < segments.size - 1 by omega)] at hother

theorem chunked_of_adoptBuffers {segments : Buffer (Buffer Word)} {store : Segmented shift}
    (h : adoptBuffers segments = .ok store) :
    store.Chunked ((segments.items.map Buffer.items).toList.map Array.toList).flatten ∧
      store.segments = segments := by
  unfold adoptBuffers at h
  rcases hadopt : (adopt (segments.items.map Buffer.items) : Answer (Segmented shift)) with
    failure | exact
  · rw [hadopt] at h
    cases h
  · rw [hadopt] at h
    cases h
    refine ⟨(chunked_of_adopt hadopt).of_words ?_, rfl⟩
    obtain ⟨-, hexact⟩ := adopt_eq_ok_iff.mp hadopt
    rw [← hexact, Buffer.items_ofArray, Array.map_map]
    exact (Array.map_id _).symm

instance : LawfulStore (Segmented shift) where
  Holds := Chunked
  empty := chunked_empty
  ofBuffer buffer := chunked_ofWords buffer.items
  size_eq h := h.size_eq
  word_eq h hw := h.word_eq hw
  word_past h hpast := h.word_past hpast
  modifyWord_eq f h hlt := h.modifyWord_eq f hlt
  modifyWord_past f h hpast := h.modifyWord_past f hpast
  reserve memory n h := h.reserve memory n
  resize n h := h.resize n
  shrink h := h.shrink
  duplicate h := h.duplicate

instance : LawfulFill (Segmented shift) where
  fill_eq value h _ hhi := Chunked.fill_eq h _ value hhi

end Segmented

end PackedBits
