import PackedBits.Proofs.SegmentLaw
import PackedBits.Proofs.StoreRoom

/-!
# The room of a store in segments

What can be used without a request is the room of the full segments at the head
of the list and of the first one after them. `Segmented.le_usable_iff` says when
that is enough for a number of words: each segment must have room for the words
that it would hold. A request goes from segment to segment to bring this about,
and once it holds, no change of size within it asks for anything.
-/

namespace PackedBits

open WordStore (SameRoom)

namespace Segmented

variable {shift : Nat} {store store' : Segmented shift} {words words' : List Word}

/-! ## What can be used -/

/-- Full segments at the head of a list can be used, and all that follows them. -/
theorem usable_append {front : List (Buffer Word)} (rest : List (Buffer Word))
    (hfull : ∀ segment ∈ front, segmentSize shift ≤ segment.capacity) :
    usable shift (front ++ rest) = front.length <<< shift + usable shift rest := by
  induction front with
  | nil => rw [List.nil_append, List.length_nil, Nat.zero_shiftLeft, Nat.zero_add]
  | cons head front ih =>
    have hhead := hfull head List.mem_cons_self
    rw [List.cons_append, usable, if_neg (Nat.not_lt.mpr hhead),
      ih fun segment hmem => hfull segment (List.mem_cons_of_mem _ hmem), List.length_cons,
      succ_shiftLeft]
    omega

theorem usable_congr {list list' : List (Buffer Word)}
    (h : list'.map Buffer.capacity = list.map Buffer.capacity) :
    usable shift list' = usable shift list := by
  induction list generalizing list' with
  | nil =>
    rw [List.map_nil, List.map_eq_nil_iff] at h
    rw [h]
  | cons head rest ih =>
    obtain ⟨head', rest', rfl, hhead, hrest⟩ := List.map_eq_cons_iff.mp h
    rw [usable, usable, hhead, ih hrest]

theorem heldBy_zero (n : Nat) : heldBy shift 0 n = min n (segmentSize shift) := by
  rw [heldBy, Nat.zero_shiftLeft, Nat.sub_zero]

theorem heldBy_succ (s n : Nat) :
    heldBy shift (s + 1) n = heldBy shift s (n - segmentSize shift) := by
  rw [heldBy, heldBy, succ_shiftLeft, Nat.add_comm, Nat.sub_add_eq]

/-- There is room for `n` words when each segment that would hold some of them has
room for those. -/
theorem le_usable_iff {list : List (Buffer Word)} {n : Nat} :
    n ≤ usable shift list ↔ ∀ s, 0 < heldBy shift s n →
      ∃ segment, list[s]? = some segment ∧ heldBy shift s n ≤ segment.capacity := by
  have hpos := segmentSize_pos shift
  induction list generalizing n with
  | nil =>
    constructor
    · intro h s hs
      have hnone : heldBy shift s n = 0 := by
        rw [heldBy, Nat.le_zero.mp h, Nat.zero_sub, Nat.zero_min]
      omega
    · intro h
      apply Nat.le_of_not_lt
      intro hlt
      obtain ⟨segment, hsegment, -⟩ := h 0 (by rw [heldBy_zero]; exact Nat.lt_min.mpr ⟨hlt, hpos⟩)
      cases hsegment
  | cons head rest ih =>
    have hsucc : (∀ s, 0 < heldBy shift (s + 1) n →
        ∃ segment, (head :: rest)[s + 1]? = some segment ∧
          heldBy shift (s + 1) n ≤ segment.capacity) ↔
        n - segmentSize shift ≤ usable shift rest := by
      simp only [heldBy_succ, List.getElem?_cons_succ]
      exact ih.symm
    have hhead : (0 < heldBy shift 0 n → ∃ segment, (head :: rest)[0]? = some segment ∧
        heldBy shift 0 n ≤ segment.capacity) ↔ heldBy shift 0 n ≤ head.capacity := by
      rw [List.getElem?_cons_zero]
      constructor
      · intro h
        rcases Nat.eq_zero_or_pos (heldBy shift 0 n) with hnone | hsome
        · rw [hnone]
          exact Nat.zero_le _
        · obtain ⟨segment, hsegment, hle⟩ := h hsome
          cases hsegment
          exact hle
      · exact fun h _ => ⟨head, rfl, h⟩
    rw [← Nat.and_forall_add_one, hhead, hsucc, usable, heldBy_zero]
    split
    · omega
    · omega

/-- Every segment in the list has the room that its words need. -/
def Fits (store : Segmented shift) : Prop :=
  ∀ (s : Nat) (segment : Buffer Word), store.segments.items[s]? = some segment → segment.Fits

theorem segmentOf_le_segmentsFor (shift n : Nat) : segmentOf shift n ≤ segmentsFor shift n := by
  apply Nat.le_of_not_lt
  intro hback
  have hbegin := segmentOf_bounds shift n
  have hend := segmentsFor_le_iff.mp (Nat.le_refl (segmentsFor shift n))
  have hnext := shiftLeft_le_shiftLeft shift (Nat.succ_le_of_lt hback)
  have hpos := segmentSize_pos shift
  rw [Nat.succ_eq_add_one, succ_shiftLeft] at hnext
  omega

theorem Chunked.size_segment (h : store.Chunked words) {s : Nat} {segment : Buffer Word}
    (hs : store.segments.items[s]? = some segment) :
    segment.size = heldBy shift s words.length := by
  rw [← length_chunk, ← h.chunk_eq hs, Array.length_toList, Buffer.size]

/-- The segments before the last one in use are full. -/
theorem Chunked.le_capacity_of_full (h : store.Chunked words) (hfits : store.Fits) {s : Nat}
    {segment : Buffer Word} (hs : store.segments.items[s]? = some segment)
    (hfull : s < segmentOf shift words.length) : segmentSize shift ≤ segment.capacity := by
  have hroom : segment.size ≤ segment.capacity := hfits s segment hs
  have hbegin := segmentOf_bounds shift words.length
  have hnext := shiftLeft_le_shiftLeft shift (Nat.succ_le_of_lt hfull)
  have hheld : heldBy shift s words.length =
      min (words.length - s <<< shift) (segmentSize shift) := rfl
  rw [Nat.succ_eq_add_one, succ_shiftLeft] at hnext
  rw [h.size_segment hs] at hroom
  omega

/-- In good order, what can be used are the full segments and the one after
them, counted from the head of the list. -/
theorem Chunked.capacity_eq (h : store.Chunked words) (hfits : store.Fits) :
    store.capacity = usable shift store.segments.items.toList := by
  have hfirst : segmentOf shift words.length ≤ store.segments.items.toList.length :=
    Nat.le_trans (segmentOf_le_segmentsFor shift _) (Array.length_toList ▸ h.enough)
  have hrest : (store.segments.items.extract (segmentOf shift words.length)
      store.segments.size).toList =
      store.segments.items.toList.drop (segmentOf shift words.length) := by
    rw [Array.toList_extract, List.extract_eq_take_drop, Buffer.size, ← Array.length_toList,
      ← List.length_drop, List.take_length]
  have hfull : ∀ segment ∈ store.segments.items.toList.take (segmentOf shift words.length),
      segmentSize shift ≤ segment.capacity := by
    intro segment hmem
    obtain ⟨s, hs⟩ := List.getElem?_of_mem hmem
    rw [List.getElem?_take] at hs
    split at hs
    · rw [Array.getElem?_toList] at hs
      exact h.le_capacity_of_full hfits hs ‹_›
    · cases hs
  have hsplit := usable_append
    (store.segments.items.toList.drop (segmentOf shift words.length)) hfull
  rw [List.take_append_drop, List.length_take_of_le hfirst] at hsplit
  rw [capacity, h.size_eq, hrest, hsplit]

/-! ## The room stays -/

/-- Nothing was asked for or given back when each segment and the list of
segments have the room they had. -/
theorem sameRoom_of_capacities (h : store.Chunked words) (hfits : store.Fits)
    (h' : store'.Chunked words') (hfits' : store'.Fits)
    (hlist : store'.segments.capacity = store.segments.capacity)
    (hsame : ∀ s : Nat, (store'.segments.items[s]?).map Buffer.capacity =
      (store.segments.items[s]?).map Buffer.capacity) : SameRoom store store' := by
  have hcapacities : store'.segments.items.toList.map Buffer.capacity =
      store.segments.items.toList.map Buffer.capacity := by
    apply List.ext_getElem?
    intro s
    rw [List.getElem?_map, List.getElem?_map, Array.getElem?_toList, Array.getElem?_toList]
    exact hsame s
  have hbytes : ∀ store : Segmented shift, store.bytes =
      listHeaderBytes + wordBytes + segmentEntryBytes * store.segments.capacity +
        (store.segments.items.toList.map Buffer.capacity).foldl
          (fun n room => n + wordBytes * room) 0 := by
    intro store
    rw [bytes, ← Array.foldl_toList, List.foldl_map]
  constructor
  · show store'.capacity = store.capacity
    rw [h.capacity_eq hfits, h'.capacity_eq hfits', usable_congr hcapacities]
  · show store'.bytes = store.bytes
    rw [hbytes, hbytes, hlist, hcapacities]

theorem fits_modify {segments : Buffer (Buffer Word)} {size : Nat}
    (h : Fits (⟨segments, size⟩ : Segmented shift)) (s : Nat) {change : Buffer Word → Buffer Word}
    (hchange : ∀ segment, segments.items[s]? = some segment → (change segment).Fits) :
    Fits (⟨segments.modify s change, size⟩ : Segmented shift) := by
  intro t segment ht
  simp only [Buffer.modify, Array.getElem?_modify] at ht
  split at ht
  · rename_i hst
    obtain ⟨old, hold, hsegment⟩ := Option.map_eq_some_iff.mp ht
    rw [← hsegment]
    exact hchange old (hst ▸ hold)
  · exact h t segment ht

theorem keeps_onSegment {α : Type} {edit : Edit (Buffer Word) α} (h : edit.Keeps Buffer.Fits)
    (s : Nat) : (onSegment s edit : Edit (Segmented shift) α).Keeps Fits :=
  keeps_of_segment fun _ segment hfits hs =>
    fits_modify hfits s fun _ _ => h segment (hfits s segment hs)

theorem keeps_reserveIn (memory : Allocator) (s needed : Nat) :
    (reserveIn memory s needed : Edit (Segmented shift) Unit).Keeps Fits := by
  refine keeps_onSegment (Edit.keeps_of_yields fun segment h => ?_) s
  by_cases hless : segment.capacity < needed
  · have hask := Buffer.keeps_reserveExact (α := Word) memory (.words s)
      (roomToAsk shift segment.capacity needed)
    exact Edit.yields_congr (if_pos hless) (hask.yields h)
  · exact Edit.yields_of_ok (if_neg hless) h

theorem fits_of_items {segments segments' : Buffer (Buffer Word)} {size size' : Nat}
    (h : Fits (⟨segments, size⟩ : Segmented shift)) (hitems : segments'.items = segments.items) :
    Fits (⟨segments', size'⟩ : Segmented shift) := by
  intro s segment hs
  rw [hitems] at hs
  exact h s segment hs

/-- The segments that a longer list gets have no words. -/
theorem fits_lengthen {segments : Buffer (Buffer Word)} {size : Nat}
    (h : Fits (⟨segments, size⟩ : Segmented shift)) (count : Nat) :
    Fits (⟨segments.resize count .empty, size⟩ : Segmented shift) := by
  intro s segment hs
  rw [← Array.getElem?_toList, Buffer.toList_resize, getElem?_resized] at hs
  split at hs
  · cases hold : segments.items[s]? with
    | some old =>
      rw [Array.getElem?_toList, hold] at hs
      cases hs
      exact h s _ hold
    | none =>
      rw [Array.getElem?_toList, hold] at hs
      cases hs
      exact Nat.le_refl 0
  · cases hs

theorem keeps_lengthen (memory : Allocator) (count : Nat) :
    (onSegments do
      Buffer.reserve memory .segments count
      modify (Buffer.resize count .empty) : Edit (Segmented shift) Unit).Keeps Fits := by
  refine Edit.keeps_of_yields fun store hfits => ?_
  refine (editsPiece_onSegments _ store).yields (Edit.Yields.bind
    ((Buffer.yields_of_request rfl).mono (fun _ _ hitems => hitems)
      fun _ _ hfailed => fits_of_items hfits hfailed.2) ?_)
  intro _ segments hitems
  exact Edit.yields_modify (fits_lengthen (fits_of_items hfits hitems) _)

theorem keeps_reserve (memory : Allocator) (needed : Nat) :
    (reserve memory needed : Edit (Segmented shift) Unit).Keeps Fits := by
  have hloop : ∀ first count, (visitUp first count fun s => reserveIn memory s
      (heldBy shift s needed) : Edit (Segmented shift) Unit).Keeps Fits :=
    Edit.keeps_visitUp fun s => keeps_reserveIn memory s _
  refine Edit.Keeps.bind (fun _ hfits => hfits) fun store => ?_
  split
  · simp only
    split
    · exact (keeps_lengthen memory _).bind fun _ => hloop _ _
    · exact hloop _ _
  · exact Edit.keeps_pure ()

/-! ## Words and sizes -/

/-- A word is changed in its segment, or nothing is. -/
theorem modifyWord_cases (i : Nat) (f : Word → Word) (store : Segmented shift) :
    modifyWord i f store = .ok () ⟨store.segments.modify (segmentOf shift i)
        (Buffer.modify (displacement shift i) f), store.size⟩ ∨
      ∃ failure, modifyWord i f store = .error failure store := by
  cases hs : store.segments.items[segmentOf shift i]? with
  | none =>
    have hrun : modifyWord i f store =
        .error (.fault (.wordIndex (segmentOf shift i) store.segments.size)) store := by
      simp only [modifyWord, hs]
    exact .inr ⟨_, hrun⟩
  | some segment =>
    by_cases hheld : displacement shift i < segment.size
    · exact .inl (by simp only [modifyWord, hs, if_pos hheld])
    · have hrun : modifyWord i f store =
          .error (.fault (.wordIndex (displacement shift i) segment.size)) store := by
        simp only [modifyWord, hs, if_neg hheld]
      exact .inr ⟨_, hrun⟩

theorem keeps_modifyWord (i : Nat) (f : Word → Word) :
    (modifyWord i f : Edit (Segmented shift) Unit).Keeps Fits := by
  intro store hfits
  rcases modifyWord_cases i f store with hrun | ⟨failure, hrun⟩
  · rw [Edit.after_of_ok hrun]
    refine fits_modify hfits _ fun segment hs => ?_
    exact Buffer.Fits.modify (hfits _ segment hs) _ _
  · rw [Edit.after_of_error hrun]
    exact hfits

theorem Chunked.sameRoom_modifyWord (h : store.Chunked words) (hfits : store.Fits) {i : Nat}
    {f : Word → Word} (hrun : modifyWord i f store = .ok () store') : SameRoom store store' := by
  have hfits' := keeps_modifyWord i f store hfits
  rw [Edit.after_of_ok hrun] at hfits'
  obtain ⟨words', h'⟩ : ∃ words', store'.Chunked words' := by
    rcases Nat.lt_or_ge i words.length with hlt | hpast
    · obtain ⟨store'', hrun', h'⟩ := h.modifyWord_eq f hlt
      cases hrun.symm.trans hrun'
      exact ⟨_, h'⟩
    · obtain ⟨cause, hrun'⟩ := h.modifyWord_past f hpast
      cases hrun.symm.trans hrun'
  rcases modifyWord_cases i f store with hrun' | ⟨failure, hrun'⟩
  · cases hrun.symm.trans hrun'
    refine sameRoom_of_capacities h hfits h' hfits' rfl fun s => ?_
    simp only [Buffer.modify, Array.getElem?_modify]
    split
    · rw [Option.map_map]
      rfl
    · rfl
  · cases hrun.symm.trans hrun'

theorem keeps_fill (lo hi : Nat) (value : Word) :
    (fill lo hi value : Edit (Segmented shift) Unit).Keeps Fits := by
  unfold fill
  split
  · exact Edit.keeps_pure ()
  · exact Edit.keeps_visitUp (fun s => keeps_onSegment (Buffer.keeps_fill _ _ value) s) _ _

/-- A store is resized by a list of segments that is long enough, and by the
words that some of them lose or get. -/
theorem exists_resize (n : Nat) (store : Segmented shift) :
    ∃ (segments : Buffer (Buffer Word)) (first count : Nat), resize n store =
        ⟨segments.modifyRange first count fun s => Buffer.resize (heldBy shift s n) 0, n⟩ ∧
      (segmentsFor shift n ≤ store.segments.size ∧ segments = store.segments ∨
        store.segments.size < segmentsFor shift n ∧
          segments = store.segments.resize (segmentsFor shift n) .empty) := by
  refine ⟨if store.segments.size < segmentsFor shift n then
    store.segments.resize (segmentsFor shift n) .empty else store.segments, _, _, rfl, ?_⟩
  split
  · exact .inr ⟨‹_›, rfl⟩
  · exact .inl ⟨Nat.le_of_not_lt ‹_›, rfl⟩

theorem Fits.resize (h : store.Fits) (n : Nat) : (resize n store).Fits := by
  obtain ⟨segments, first, count, hresize, hsegments⟩ := exists_resize n store
  have hlong : Fits (⟨segments, n⟩ : Segmented shift) := by
    rcases hsegments with ⟨-, rfl⟩ | ⟨-, rfl⟩
    · exact fits_of_items h rfl
    · exact fits_lengthen h _
  rw [hresize]
  intro s segment hs
  simp only [Buffer.getElem?_modifyRange] at hs
  split at hs
  · obtain ⟨old, hold, hsegment⟩ := Option.map_eq_some_iff.mp hs
    rw [← hsegment]
    exact Buffer.Fits.resize (hlong s old hold) _ _
  · exact hlong s segment hs

theorem heldBy_pos_iff {s n : Nat} : 0 < heldBy shift s n ↔ s < segmentsFor shift n := by
  have hpos := segmentSize_pos shift
  rw [← Nat.not_le, ← Nat.not_le, segmentsFor_le_iff, heldBy]
  omega

/-- A change of size within what can be used leaves the room of the list of segments
and of each segment. -/
theorem Chunked.capacities_resize (h : store.Chunked words) (hfits : store.Fits) {n : Nat}
    (hn : n ≤ store.capacity) :
    (Segmented.resize n store).segments.capacity = store.segments.capacity ∧
      ∀ s : Nat, ((Segmented.resize n store).segments.items[s]?).map Buffer.capacity =
        (store.segments.items[s]?).map Buffer.capacity := by
  rw [h.capacity_eq hfits, le_usable_iff] at hn
  have hroom : ∀ (s : Nat) (segment : Buffer Word), store.segments.items[s]? = some segment →
      heldBy shift s n ≤ segment.capacity := by
    intro s segment hs
    rcases Nat.eq_zero_or_pos (heldBy shift s n) with hnone | hsome
    · rw [hnone]
      exact Nat.zero_le _
    · obtain ⟨other, hother, hle⟩ := hn s hsome
      rw [Array.getElem?_toList, hs] at hother
      cases hother
      exact hle
  obtain ⟨segments, first, count, hresize, hsegments⟩ := exists_resize n store
  rcases hsegments with ⟨-, rfl⟩ | ⟨hlist, -⟩
  · rw [hresize]
    refine ⟨Buffer.capacity_modifyRange .., fun s => ?_⟩
    rw [Buffer.getElem?_modifyRange]
    split
    · cases hs : store.segments.items[s]? with
      | none => rfl
      | some segment =>
        exact congrArg some (Buffer.capacity_resize_of_le 0 (hroom s segment hs))
    · rfl
  -- The last segment would have to be there already.
  · obtain ⟨segment, hsegment, -⟩ := hn store.segments.size (heldBy_pos_iff.mpr hlist)
    have hlt := (List.getElem?_eq_some_iff.mp hsegment).1
    rw [Array.length_toList] at hlt
    exact absurd hlt (Nat.lt_irrefl _)

theorem Chunked.sameRoom_resize (h : store.Chunked words) (hfits : store.Fits) {n : Nat}
    (hn : n ≤ store.capacity) : SameRoom store (Segmented.resize n store) := by
  obtain ⟨hlist, hsame⟩ := h.capacities_resize hfits hn
  exact sameRoom_of_capacities h hfits (h.resize n) (hfits.resize n) hlist hsame

/-! ## What a granted request leaves -/

/-- Segment `s` is in the list and has room for `needed` words. -/
def HasRoom (store : Segmented shift) (s needed : Nat) : Prop :=
  ∃ segment, store.segments.items[s]? = some segment ∧ needed ≤ segment.capacity

/-- A segment that is granted its room has it, and the others have theirs. -/
theorem yields_reserveIn (memory : Allocator) {s needed : Nat} (hs : s < store.segments.size)
    (hneeded : needed ≤ segmentSize shift) :
    (reserveIn memory s needed).Yields store
      (fun _ store' => store'.HasRoom s needed ∧ store'.segments.size = store.segments.size ∧
        ∀ t m, t ≠ s → store.HasRoom t m → store'.HasRoom t m) fun _ _ => True := by
  obtain ⟨segment, hsegment⟩ : ∃ segment, store.segments.items[s]? = some segment :=
    ⟨_, Array.getElem?_eq_getElem hs⟩
  have hask : Edit.Yields (fun segment => if segment.capacity < needed then
      Buffer.reserveExact memory (.words s) (roomToAsk shift segment.capacity needed) segment
      else .ok () segment) segment (fun _ segment' => needed ≤ segment'.capacity)
      fun _ _ => True := by
    rcases Nat.lt_or_ge segment.capacity needed with hless | henough
    · have hroom : needed ≤ roomToAsk shift segment.capacity needed :=
        Nat.le_min.mpr ⟨Nat.le_max_left _ _, hneeded⟩
      refine Edit.yields_congr (if_pos hless) ?_
      refine (Buffer.yields_room_of_request (Nat.le_refl _) rfl).imp fun _ segment' hsegment' => ?_
      exact Nat.le_trans hroom hsegment'
    · exact Edit.yields_of_ok (if_neg (Nat.not_lt.mpr henough)) henough
  refine (editsPiece_onSegment _ hsegment).yields (hask.imp fun _ segment' hroom => ?_)
  refine ⟨⟨segment', ?_, hroom⟩, by simp [Buffer.modify, Buffer.size], ?_⟩
  · rw [Buffer.modify, Array.getElem?_modify, if_pos rfl, hsegment, Option.map_some]
  · intro t m hts hroom
    obtain ⟨other, hother, hle⟩ := hroom
    refine ⟨other, ?_, hle⟩
    rw [Buffer.modify, Array.getElem?_modify, if_neg (Ne.symm hts), hother]

/-- Going from segment to segment, those behind have the room for their words. -/
theorem yields_reserveEach (memory : Allocator) (n : Nat) {first count : Nat}
    (hcount : count ≤ store.segments.size) :
    (visitUp first (count - first) fun s => reserveIn memory s (heldBy shift s n)).Yields store
      (fun _ store' => ∀ s, first ≤ s → s < count → store'.HasRoom s (heldBy shift s n))
      fun _ _ => True := by
  refine (Edit.yields_visitUp (fun i (store' : Segmented shift) =>
    store'.segments.size = store.segments.size ∧
      ∀ s, first ≤ s → s < i → store'.HasRoom s (heldBy shift s n)) ?_ ?_).imp ?_
  · exact ⟨rfl, fun s hlo hhi => absurd hhi (Nat.not_lt.mpr hlo)⟩
  · rintro i hlo hhi store' ⟨hsize, hrooms⟩
    have hin : i < store'.segments.size := by omega
    have hneeded : heldBy shift i n ≤ segmentSize shift := Nat.min_le_right _ _
    refine (yields_reserveIn memory hin hneeded).imp fun _ x hx => ?_
    refine ⟨hx.2.1.trans hsize, fun s hs hsi => ?_⟩
    rcases Nat.eq_or_lt_of_le (Nat.le_of_lt_succ hsi) with rfl | hbefore
    · exact hx.1
    · exact hx.2.2 s _ (Nat.ne_of_lt hbefore) (hrooms s hs hbefore)
  · intro _ x hx s hs hsc
    exact hx.2 s hs (by omega)

/-- A request that is granted leaves each segment that it goes through with the
room for its words. -/
theorem yields_reserve (memory : Allocator) {n : Nat} (hless : store.capacity < n) :
    (reserve memory n).Yields store
      (fun _ store' => ∀ s, segmentOf shift store.size ≤ s → s < segmentsFor shift n →
        store'.HasRoom s (heldBy shift s n)) fun _ _ => True := by
  unfold Segmented.reserve
  refine Edit.yields_bind_ok (a := store) rfl ?_
  rw [if_pos hless]
  rcases Nat.lt_or_ge store.segments.size (segmentsFor shift n) with hlist | hlist
  · simp only [if_pos hlist]
    refine Edit.Yields.bind ((editsPiece_onSegments _ store).yields ?_)
      fun _ store' hstore' => yields_reserveEach memory n hstore'
    refine (Buffer.yields_room_of_request (Buffer.le_grown _ _) rfl).bind fun _ segments _ => ?_
    exact Edit.yields_modify (Nat.le_of_eq (Buffer.size_resize ..).symm)
  · simp only [if_neg (Nat.not_lt.mpr hlist)]
    exact yields_reserveEach memory n hlist

theorem reserve_of_le (memory : Allocator) {n : Nat} (h : n ≤ store.capacity) :
    reserve memory n store = .ok () store := by
  have hget : (get : Edit (Segmented shift) (Segmented shift)) store = .ok store store := rfl
  rw [reserve, Edit.bind_ok hget, if_neg (Nat.not_lt.mpr h)]
  rfl

theorem Chunked.le_capacity (h : store.Chunked words) (hfits : store.Fits) {memory : Allocator}
    {n : Nat} (hrun : Segmented.reserve memory n store = .ok () store') : n ≤ store'.capacity := by
  rcases Nat.lt_or_ge store.capacity n with hless | henough
  · have h' : store'.Chunked words := (h.reserve memory n).of_ok hrun
    have hfits' := keeps_reserve memory n store hfits
    rw [Edit.after_of_ok hrun] at hfits'
    rw [h'.capacity_eq hfits', le_usable_iff]
    intro s hs
    rcases Nat.lt_or_ge s (segmentOf shift words.length) with hfull | hpast
    · have hin := Nat.lt_of_lt_of_le hfull (segmentOf_le_segmentsFor shift words.length)
      obtain ⟨segment, hsegment⟩ := h'.exists_segment hin
      refine ⟨segment, by rwa [Array.getElem?_toList], ?_⟩
      exact Nat.le_trans (Nat.min_le_right _ _) (h'.le_capacity_of_full hfits' hsegment hfull)
    · rw [← h.size_eq] at hpast
      obtain ⟨segment, hsegment, hroom⟩ :=
        (yields_reserve memory hless).of_ok hrun s hpast (heldBy_pos_iff.mp hs)
      exact ⟨segment, by rwa [Array.getElem?_toList], hroom⟩
  · rw [reserve_of_le memory henough] at hrun
    cases hrun
    exact henough

/-! ## The contract -/

/-- Segments that are made one by one fit when each of them does. -/
theorem fits_map {α : Type} (items : Array α) {make : α → Buffer Word}
    (hmake : ∀ a, (make a).Fits) (size : Nat) :
    Fits (⟨.ofArray (items.map make), size⟩ : Segmented shift) := by
  intro s segment hs
  rw [Buffer.items_ofArray, Array.getElem?_map] at hs
  obtain ⟨a, -, hsegment⟩ := Option.map_eq_some_iff.mp hs
  rw [← hsegment]
  exact hmake a

theorem fits_of_adoptBuffers {segments : Buffer (Buffer Word)}
    (hsegments : ∀ segment ∈ segments.items, segment.Fits)
    (h : adoptBuffers segments = .ok store) : store.Fits := by
  obtain ⟨-, hsame⟩ := chunked_of_adoptBuffers h
  intro s segment hs
  rw [hsame] at hs
  exact hsegments segment (Array.mem_of_getElem? hs)

theorem Chunked.length_le (h : store.Chunked words) (hfits : store.Fits) :
    words.length ≤ store.capacity := by
  rw [h.capacity_eq hfits, le_usable_iff]
  intro s hs
  obtain ⟨segment, hsegment⟩ := h.exists_segment (heldBy_pos_iff.mp hs)
  have hroom : segment.size ≤ segment.capacity := hfits s segment hsegment
  rw [h.size_segment hsegment] at hroom
  exact ⟨segment, by rwa [Array.getElem?_toList], hroom⟩

instance : LawfulRoom (Segmented shift) where
  Fits := Fits
  empty := fun _ _ hs => by cases hs
  ofBuffer _ := fits_map _ (fun _ => Buffer.fits_ofArray _) _
  modifyWord := keeps_modifyWord
  fill := keeps_fill
  reserve := keeps_reserve
  resize n h := Fits.resize h n
  shrink _ := fits_map _ (fun _ => Nat.le_refl _) _
  duplicate _ := fits_map _ (fun _ => Nat.le_refl _) _
  length_le h hfits := Chunked.length_le h hfits
  reserve_of_le := reserve_of_le
  le_capacity h hfits hrun := Chunked.le_capacity h hfits hrun
  sameRoom_modifyWord h hfits hrun := Chunked.sameRoom_modifyWord h hfits hrun
  sameRoom_resize h hfits hn := Chunked.sameRoom_resize h hfits hn

end Segmented

end PackedBits
