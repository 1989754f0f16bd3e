import PackedBits.Proofs.Guarded
import PackedBits.Proofs.SegmentRoom

/-!
# Stores under guard

A store under guard refuses, as a fault, to read, change or fill words that are not all
among those that it holds, and to take a difference below zero where it asks for room.
Where its words lie in the room there is, it keeps the contract of the store. What runs
over it runs as over the store or ends in a fault, which is what `Refines` says, so a
run over it that ends in no fault is a run of the same operation over the store, and
every word that it reads or changes is there.
-/

namespace PackedBits

/-! ## Runs that a guard may end -/

section

variable {V α β : Type}

/-- An answer under guard is the answer or a fault. -/
def Refines (guarded plain : Answer α) : Prop :=
  guarded = plain ∨ ∃ cause, guarded = .error (.fault cause)

theorem refines_refl (answer : Answer α) : Refines answer answer := .inl rfl

theorem refines_require (condition : Prop) [Decidable condition] (cause : Fault) :
    Refines (require condition (.fault cause)) (.ok ()) := by
  by_cases hmet : condition
  · exact .inl (require_eq_ok_iff.mpr hmet)
  · exact .inr ⟨cause, require_eq_error_iff.mpr ⟨hmet, rfl⟩⟩

theorem Refines.bind {guarded plain : Answer α} {next next' : α → Answer β}
    (h : Refines guarded plain) (hnext : ∀ a, Refines (next a) (next' a)) :
    Refines (guarded >>= next) (plain >>= next') := by
  rcases h with rfl | ⟨cause, rfl⟩
  · cases guarded with
    | ok a => exact hnext a
    | error failure => exact refines_refl _
  · exact .inr ⟨cause, rfl⟩

theorem refines_foldUp {start count : Nat} {acc : β} {step step' : β → Nat → Answer β}
    (h : ∀ acc i, Refines (step acc i) (step' acc i)) :
    Refines (foldUp start count acc step) (foldUp start count acc step') := by
  induction count generalizing start acc with
  | zero => exact refines_refl _
  | succ count ih => exact (h acc start).bind fun _ => ih

theorem refines_searchUp {start count : Nat} {ask ask' : Nat → Answer (Option α)}
    (h : ∀ i, Refines (ask i) (ask' i)) :
    Refines (searchUp start count ask) (searchUp start count ask') := by
  induction count generalizing start with
  | zero => exact refines_refl _
  | succ count ih =>
    refine (h start).bind fun found => ?_
    cases found with
    | some a => exact refines_refl _
    | none => exact ih

theorem refines_searchDown {count : Nat} {ask ask' : Nat → Answer (Option α)}
    (h : ∀ i, Refines (ask i) (ask' i)) :
    Refines (searchDown count ask) (searchDown count ask') := by
  induction count with
  | zero => exact refines_refl _
  | succ count ih =>
    refine (h count).bind fun found => ?_
    cases found with
    | some a => exact refines_refl _
    | none => exact ih

namespace Edit

/-- A run under guard is the run or ends in a fault. -/
def Refines (guarded plain : Edit V α) : Prop :=
  ∀ v, guarded v = plain v ∨ ∃ cause w, guarded v = .error (.fault cause) w

theorem refines_refl (edit : Edit V α) : Refines edit edit := fun _ => .inl rfl

theorem Refines.bind {guarded plain : Edit V α} {next next' : α → Edit V β}
    (h : Refines guarded plain) (hnext : ∀ a, Refines (next a) (next' a)) :
    Refines (guarded >>= next) (plain >>= next') := by
  intro v
  rcases h v with hsame | ⟨cause, w, hfault⟩
  · rcases hrun : plain v with ⟨a, w⟩ | ⟨failure, w⟩
    · rw [bind_ok (hsame.trans hrun), bind_ok hrun]
      exact hnext a w
    · exact .inl ((bind_error (hsame.trans hrun)).trans (bind_error hrun).symm)
  · exact .inr ⟨cause, w, bind_error hfault⟩

theorem refines_inspect {guarded plain : V → Answer α}
    (h : ∀ v, PackedBits.Refines (guarded v) (plain v)) :
    Refines (inspect guarded) (inspect plain) := by
  intro v
  rcases h v with hsame | ⟨cause, hfault⟩
  · exact .inl (by simp only [inspect, hsame])
  · exact .inr ⟨cause, v, inspect_error hfault⟩

/-- A check that refuses with a fault is a guard. -/
theorem refines_checked {check : V → Answer Unit} (h : ∀ v, PackedBits.Refines (check v) (.ok ()))
    (edit : Edit V α) : Refines (do inspect check; edit) edit :=
  (refines_inspect h).bind fun _ => refines_refl edit

theorem Refines.reword {guarded plain : Edit V α} (h : Refines guarded plain)
    {f : Failure → Failure} (hf : ∀ cause, ∃ cause', f (.fault cause) = .fault cause') :
    Refines (guarded.reword f) (plain.reword f) := by
  intro v
  rcases h v with hsame | ⟨cause, w, hfault⟩
  · exact .inl (by simp only [Edit.reword, hsame])
  · obtain ⟨cause', hcause⟩ := hf cause
    exact .inr ⟨cause', w, hcause ▸ reword_error hfault⟩

theorem refines_visitUp {start count : Nat} {act act' : Nat → Edit V Unit}
    (h : ∀ i, Refines (act i) (act' i)) :
    Refines (visitUp start count act) (visitUp start count act') := by
  induction count generalizing start with
  | zero => exact refines_refl _
  | succ count ih => exact (h start).bind fun _ => ih

theorem refines_visitDown {start count : Nat} {act act' : Nat → Edit V Unit}
    (h : ∀ i, Refines (act i) (act' i)) :
    Refines (visitDown start count act) (visitDown start count act') := by
  induction count with
  | zero => exact refines_refl _
  | succ count ih => exact (h (start + count)).bind fun _ => ih

theorem refines_visitWindows {lo hi : Nat} {act act' : Nat → Nat → Edit V Unit}
    (h : ∀ a b, Refines (act a b) (act' a b)) :
    Refines (visitWindows lo hi act) (visitWindows lo hi act') :=
  refines_visitUp fun _ => h _ _

/-! ## Runs that are the same -/

/-- Two edits do the same to the values with a property. -/
def AgreeOn (inv : V → Prop) (guarded plain : Edit V α) : Prop :=
  ∀ v, inv v → guarded v = plain v

theorem agreeOn_refl (inv : V → Prop) (edit : Edit V α) : AgreeOn inv edit edit := fun _ _ => rfl

theorem AgreeOn.bind {inv : V → Prop} {guarded plain : Edit V α} {next next' : α → Edit V β}
    (h : AgreeOn inv guarded plain) (hkeeps : plain.Keeps inv)
    (hnext : ∀ a, AgreeOn inv (next a) (next' a)) :
    AgreeOn inv (guarded >>= next) (plain >>= next') := by
  intro v hv
  have hafter := hkeeps v hv
  rcases hrun : plain v with ⟨a, w⟩ | ⟨failure, w⟩
  · rw [after_of_ok hrun] at hafter
    rw [bind_ok ((h v hv).trans hrun), bind_ok hrun]
    exact hnext a w hafter
  · rw [bind_error ((h v hv).trans hrun), bind_error hrun]

theorem agreeOn_visitUp {inv : V → Prop} {start count : Nat} {act act' : Nat → Edit V Unit}
    (h : ∀ i, AgreeOn inv (act i) (act' i)) (hkeeps : ∀ i, (act' i).Keeps inv) :
    AgreeOn inv (visitUp start count act) (visitUp start count act') := by
  induction count generalizing start with
  | zero => exact agreeOn_refl inv _
  | succ count ih => exact (h start).bind (hkeeps start) fun _ => ih

end Edit

end

/-! ## Stores -/

/-- The words from `lo` up to `hi` are among `count` words. -/
def checkWords (lo hi count : Nat) : Answer Unit :=
  require (lo ≤ hi ∧ hi ≤ count) (.fault (.wordRange lo hi count))

/-- Word `i` is among `count` words. -/
def checkWord (i count : Nat) : Answer Unit := require (i < count) (.fault (.wordIndex i count))

/-- The difference of two numbers is not below zero. -/
def checkMinus (left right : Nat) : Answer Unit :=
  require (right ≤ left) (.fault (.belowZero left right))

theorem checkWord_of_lt {i count : Nat} (h : i < count) : checkWord i count = .ok () := if_pos h

theorem checkWord_of_le {i count : Nat} (h : count ≤ i) :
    checkWord i count = .error (.fault (.wordIndex i count)) := if_neg (Nat.not_lt.mpr h)

/-- A store with the differences that it takes on its own account under guard, and the
states of it in which none of them is below zero. -/
class StoreGuard (S : Type) [WordStore S] where
  /-- A request for room under guard. -/
  reserve : Allocator → Nat → Edit S Unit
  /-- A range of words is written under guard. -/
  fill : Nat → Nat → Word → Edit S Unit
  Fits : S → Prop
  refines_reserve (memory : Allocator) (n : Nat) :
    Edit.Refines (reserve memory n) (WordStore.reserve memory n)
  agree_reserve (memory : Allocator) (n : Nat) :
    Edit.AgreeOn Fits (reserve memory n) (WordStore.reserve memory n)
  fill_eq : fill = WordStore.fill
  fits_empty : Fits WordStore.empty
  fits_ofArray (words : Array Word) : Fits (WordStore.ofArray words)
  keeps_modifyWord (i : Nat) (f : Word → Word) : (WordStore.modifyWord i f).Keeps Fits
  keeps_fill (lo hi : Nat) (value : Word) : (WordStore.fill lo hi value).Keeps Fits
  keeps_reserve (memory : Allocator) (n : Nat) : (WordStore.reserve memory n).Keeps Fits
  fits_resize {store : S} (n : Nat) : Fits store → Fits (WordStore.resize n store)
  fits_shrink {store : S} : Fits store → Fits (WordStore.shrink store)
  fits_duplicate {store : S} : Fits store → Fits (WordStore.duplicate store)

section

variable {S : Type} [WordStore S]

/-- A store of which no difference is known. -/
@[reducible] def StoreGuard.bare : StoreGuard S where
  reserve := WordStore.reserve
  fill := WordStore.fill
  Fits _ := True
  refines_reserve _ _ := Edit.refines_refl _
  agree_reserve _ _ := Edit.agreeOn_refl _ _
  fill_eq := rfl
  fits_empty := trivial
  fits_ofArray _ := trivial
  keeps_modifyWord _ _ _ _ := trivial
  keeps_fill _ _ _ _ _ := trivial
  keeps_reserve _ _ _ _ := trivial
  fits_resize _ _ := trivial
  fits_shrink _ := trivial
  fits_duplicate _ := trivial

/-- In a store whose words lie in their room, a request is for more than is held. -/
@[reducible] def StoreGuard.ofRoom [LawfulStore S] [LawfulRoom S]
    (reserve : Allocator → Nat → Edit S Unit) (fill : Nat → Nat → Word → Edit S Unit)
    (hrefines : ∀ memory n, Edit.Refines (reserve memory n) (WordStore.reserve memory n))
    (hreserve : ∀ memory n,
      Edit.AgreeOn LawfulRoom.Fits (reserve memory n) (WordStore.reserve memory n))
    (hfill : fill = WordStore.fill) : StoreGuard S where
  reserve := reserve
  fill := fill
  Fits := LawfulRoom.Fits
  refines_reserve := hrefines
  agree_reserve := hreserve
  fill_eq := hfill
  fits_empty := LawfulRoom.empty
  fits_ofArray _ := LawfulRoom.ofBuffer (Nat.le_refl _)
  keeps_modifyWord := LawfulRoom.modifyWord
  keeps_fill := LawfulRoom.fill
  keeps_reserve := LawfulRoom.reserve
  fits_resize := LawfulRoom.resize
  fits_shrink := LawfulRoom.shrink
  fits_duplicate := LawfulRoom.duplicate

variable [StoreGuard S]

/-- A store that is asked for words that it holds only, and guards its own steps. No
operation on a vector makes a store of a buffer. -/
@[reducible] def WordStore.guarded : WordStore S where
  empty := WordStore.empty
  ofBuffer buffer := WordStore.ofArray buffer.items
  size := WordStore.size
  capacity := WordStore.capacity
  word store i := do
    checkWord i (WordStore.size store)
    WordStore.word store i
  modifyWord i f := do
    Edit.inspect fun store => checkWord i (WordStore.size store)
    WordStore.modifyWord i f
  reserve := StoreGuard.reserve
  resize := WordStore.resize
  shrink := WordStore.shrink
  duplicate := WordStore.duplicate
  bytes := WordStore.bytes
  fill lo hi value := do
    Edit.inspect fun store => checkWords lo hi (WordStore.size store)
    StoreGuard.fill lo hi value

theorem guarded_word_of_lt {store : S} {i : Nat} (hi : i < WordStore.size store) :
    WordStore.guarded.word store i = WordStore.word store i :=
  bind_of_ok (checkWord_of_lt hi)

theorem guarded_word_past {store : S} {i : Nat} (hpast : WordStore.size store ≤ i) :
    WordStore.guarded.word store i = .error (.fault (.wordIndex i (WordStore.size store))) := by
  show (checkWord i (WordStore.size store) >>= _) = _
  rw [checkWord_of_le hpast]
  rfl

theorem guarded_modifyWord_of_lt {store : S} {i : Nat} (f : Word → Word)
    (hi : i < WordStore.size store) :
    WordStore.guarded.modifyWord i f store = WordStore.modifyWord i f store := by
  have hcheck : (fun store : S => checkWord i (WordStore.size store)) store = .ok () :=
    checkWord_of_lt hi
  exact Edit.inspect_bind_ok hcheck

theorem guarded_modifyWord_past {store : S} {i : Nat} (f : Word → Word)
    (hpast : WordStore.size store ≤ i) :
    WordStore.guarded.modifyWord i f store =
      .error (.fault (.wordIndex i (WordStore.size store))) store := by
  have hcheck : (fun store : S => checkWord i (WordStore.size store)) store = _ :=
    checkWord_of_le hpast
  exact Edit.inspect_bind_error hcheck

theorem guarded_fill_of_le {store : S} {lo hi : Nat} (value : Word) (hle : lo ≤ hi)
    (hhi : hi ≤ WordStore.size store) :
    WordStore.guarded.fill lo hi value store = WordStore.fill lo hi value store := by
  have hcheck : (fun store : S => checkWords lo hi (WordStore.size store)) store = .ok () :=
    if_pos ⟨hle, hhi⟩
  have hfill : WordStore.guarded.fill lo hi value store = StoreGuard.fill lo hi value store :=
    Edit.inspect_bind_ok hcheck
  rw [hfill, StoreGuard.fill_eq]

/-- A store under guard keeps the contract, of the words in the states in which its own
steps are right. -/
@[reducible] def LawfulStore.guarded [LawfulStore S] : @LawfulStore S WordStore.guarded :=
  @LawfulStore.mk S WordStore.guarded
    (fun store words => LawfulStore.Holds store words ∧ StoreGuard.Fits store)
    ⟨LawfulStore.empty, StoreGuard.fits_empty⟩
    (fun buffer => ⟨LawfulStore.ofBuffer (Buffer.ofArray buffer.items), StoreGuard.fits_ofArray _⟩)
    (fun h => (LawfulStore.size_eq h.1 : WordStore.size _ = _))
    (fun h hw => (guarded_word_of_lt (LawfulStore.size_eq h.1 ▸
      (List.getElem?_eq_some_iff.mp hw).1)).trans (LawfulStore.word_eq h.1 hw))
    (fun h hpast => ⟨_, guarded_word_past (LawfulStore.size_eq h.1 ▸ hpast)⟩)
    (fun {store words i} f h hi => by
      obtain ⟨store', hrun, hstore'⟩ := LawfulStore.modifyWord_eq f h.1 hi
      have hfits := StoreGuard.keeps_modifyWord i f store h.2
      rw [Edit.after_of_ok hrun] at hfits
      exact ⟨store', (guarded_modifyWord_of_lt f (LawfulStore.size_eq h.1 ▸ hi)).trans hrun,
        hstore', hfits⟩)
    (fun f h hpast => ⟨_, guarded_modifyWord_past f (LawfulStore.size_eq h.1 ▸ hpast)⟩)
    (fun {store words} memory n h => by
      refine Edit.yields_congr (StoreGuard.agree_reserve memory n store h.2) ?_
      refine (((StoreGuard.keeps_reserve memory n).yields h.2).both
        (LawfulStore.reserve memory n h.1)).mono (fun _ _ hw => ⟨hw.2, hw.1⟩) ?_
      exact fun _ _ hw => ⟨hw.2.1, hw.2.2, hw.1⟩)
    (fun n h => ⟨LawfulStore.resize n h.1, StoreGuard.fits_resize n h.2⟩)
    (fun h => ⟨LawfulStore.shrink h.1, StoreGuard.fits_shrink h.2⟩)
    (fun h => ⟨LawfulStore.duplicate h.1, StoreGuard.fits_duplicate h.2⟩)

theorem LawfulFill.guarded [LawfulStore S] [LawfulFill S] :
    @LawfulFill S WordStore.guarded LawfulStore.guarded := by
  refine @LawfulFill.mk S WordStore.guarded LawfulStore.guarded ?_
  intro store words lo hi value h hle hhi
  obtain ⟨hstore, hfits⟩ : LawfulStore.Holds store words ∧ StoreGuard.Fits store := h
  obtain ⟨store', hrun, hstore'⟩ := LawfulFill.fill_eq value hstore hle hhi
  have hfits' := StoreGuard.keeps_fill lo hi value store hfits
  rw [Edit.after_of_ok hrun] at hfits'
  exact ⟨store', (guarded_fill_of_le value hle (LawfulStore.size_eq hstore ▸ hhi)).trans hrun,
    hstore', hfits'⟩

/-! ### What runs over a store under guard -/

theorem refines_word (store : S) (i : Nat) :
    Refines (WordStore.guarded.word store i) (WordStore.word store i) :=
  (refines_require _ _).bind fun _ => refines_refl _

theorem refines_modifyWord (i : Nat) (f : Word → Word) :
    Edit.Refines (WordStore.guarded.modifyWord i f) (WordStore.modifyWord i f : Edit S Unit) :=
  Edit.refines_checked (fun _ => refines_require _ _) _

theorem refines_fill (lo hi : Nat) (value : Word) :
    Edit.Refines (WordStore.guarded.fill lo hi value) (WordStore.fill lo hi value : Edit S Unit) := by
  have hguard : Edit.Refines (WordStore.guarded.fill lo hi value)
      (StoreGuard.fill lo hi value : Edit S Unit) :=
    Edit.refines_checked (fun _ => refines_require _ _) _
  rwa [StoreGuard.fill_eq] at hguard

end

/-! ## Words in one piece -/

namespace Flat

/-- A request is for the words that are missing. -/
def guardedReserve (memory : Allocator) (needed : Nat) : Edit Flat Unit := do
  Edit.inspect fun store =>
    if store.buffer.capacity < needed then checkMinus needed store.buffer.size else .ok ()
  WordStore.reserve memory needed

theorem refines_guardedReserve (memory : Allocator) (needed : Nat) :
    Edit.Refines (guardedReserve memory needed) (WordStore.reserve memory needed) := by
  refine Edit.refines_checked (fun store => ?_) _
  split
  · exact refines_require _ _
  · exact refines_refl _

theorem agree_guardedReserve (memory : Allocator) (needed : Nat) :
    Edit.AgreeOn LawfulRoom.Fits (guardedReserve memory needed)
      (WordStore.reserve memory needed) := by
  intro store (hfits : store.buffer.size ≤ store.buffer.capacity)
  refine Edit.inspect_bind_ok (a := ()) ?_
  split
  · exact if_pos (by omega)
  · rfl

instance : StoreGuard Flat :=
  .ofRoom guardedReserve WordStore.fill refines_guardedReserve agree_guardedReserve rfl

end Flat

/-! ## Words in segments -/

namespace Segmented

variable {shift : Nat}

/-- A request is for the words that are missing from the segment. -/
def guardedReserveIn (memory : Allocator) (s needed : Nat) : Edit (Segmented shift) Unit :=
  onSegment s fun segment =>
    if segment.capacity < needed then
      (do
        Edit.inspect fun segment =>
          checkMinus (roomToAsk shift segment.capacity needed) segment.size
        Buffer.reserveExact memory (.words s) (roomToAsk shift segment.capacity needed)
        : Edit (Buffer Word) Unit) segment
    else .ok () segment

/-- A request is for the segments that are missing from the list, and then for the words
that are missing from each segment. -/
def guardedReserve (memory : Allocator) (needed : Nat) : Edit (Segmented shift) Unit := do
  let store ← get
  if store.capacity < needed then
    let first := segmentOf shift store.size
    let count := segmentsFor shift needed
    if store.segments.size < count then
      checkMinus count store.segments.size
      onSegments do
        Buffer.reserve memory .segments count
        modify (Buffer.resize count .empty)
    visitUp first (count - first) fun s => guardedReserveIn memory s (heldBy shift s needed)

def guardedFill (lo hi : Nat) (value : Word) : Edit (Segmented shift) Unit :=
  if hi ≤ lo then pure ()
  else do
    let first := segmentOf shift lo
    let last ← minus hi 1
    visitUp first (← minus (segmentOf shift last + 1) first) fun s => do
      let base := s <<< shift
      let begin ← minus (max lo base) base
      let rest ← minus hi base
      onSegment s (Buffer.fill begin (min rest (segmentSize shift)) value)

theorem refines_onSegment {α : Type} {edit edit' : Edit (Buffer Word) α}
    (h : Edit.Refines edit edit') (s : Nat) :
    Edit.Refines (onSegment s edit : Edit (Segmented shift) α) (onSegment s edit') := by
  rintro ⟨segments, size⟩
  rcases hs : segments.items[s]? with _ | segment
  · exact .inl (by simp only [onSegment, hs])
  · rcases h segment with hsame | ⟨cause, segment', hfault⟩
    · exact .inl (by simp only [onSegment, hs, hsame])
    · refine .inr ⟨cause, ⟨segments.modify s fun _ => segment', size⟩, ?_⟩
      simp only [onSegment, hs, hfault]

theorem agree_onSegment {α : Type} {edit edit' : Edit (Buffer Word) α}
    (h : Edit.AgreeOn Buffer.Fits edit edit') (s : Nat) :
    Edit.AgreeOn Fits (onSegment s edit : Edit (Segmented shift) α) (onSegment s edit') := by
  rintro ⟨segments, size⟩ hfits
  rcases hs : segments.items[s]? with _ | segment
  · simp only [onSegment, hs]
  · simp only [onSegment, hs, h segment (hfits s segment hs)]

theorem refines_guardedReserveIn (memory : Allocator) (s needed : Nat) :
    Edit.Refines (guardedReserveIn memory s needed : Edit (Segmented shift) Unit)
      (reserveIn memory s needed) := by
  refine refines_onSegment (fun segment => ?_) s
  split
  · exact Edit.refines_checked (fun _ => refines_require _ _) _ segment
  · exact .inl rfl

/-- The room that is asked for in a segment is more than the segment has, where that is
not what it needs. -/
theorem agree_guardedReserveIn (memory : Allocator) (s : Nat) {needed : Nat}
    (hneeded : needed ≤ segmentSize shift) :
    Edit.AgreeOn Fits (guardedReserveIn memory s needed : Edit (Segmented shift) Unit)
      (reserveIn memory s needed) := by
  refine agree_onSegment (fun segment hfits => ?_) s
  split
  · have hroom : needed ≤ roomToAsk shift segment.capacity needed :=
      Nat.le_min.mpr ⟨Nat.le_max_left _ _, hneeded⟩
    have hheld : segment.size ≤ segment.capacity := hfits
    exact Edit.inspect_bind_ok (a := ()) (if_pos (by omega))
  · rfl

theorem refines_guardedReserve (memory : Allocator) (needed : Nat) :
    Edit.Refines (guardedReserve memory needed : Edit (Segmented shift) Unit)
      (reserve memory needed) := by
  have heach : ∀ first count, Edit.Refines
      (visitUp first count fun s => guardedReserveIn memory s (heldBy shift s needed))
      (visitUp first count fun s => reserveIn memory s (heldBy shift s needed) :
        Edit (Segmented shift) Unit) :=
    fun _ _ => Edit.refines_visitUp fun s => refines_guardedReserveIn memory s _
  refine (Edit.refines_refl _).bind fun store => ?_
  split
  · dsimp only
    split
    · rename_i hlist
      have hcheck : checkMinus (segmentsFor shift needed) store.segments.size = .ok () :=
        if_pos (Nat.le_of_lt hlist)
      rw [hcheck, Edit.liftM_ok_bind]
      exact (Edit.refines_refl _).bind fun _ => heach _ _
    · exact heach _ _
  · exact Edit.refines_refl _

theorem agree_guardedReserve (memory : Allocator) (needed : Nat) :
    Edit.AgreeOn Fits (guardedReserve memory needed : Edit (Segmented shift) Unit)
      (reserve memory needed) := by
  have heach : ∀ first count, Edit.AgreeOn Fits
      (visitUp first count fun s => guardedReserveIn memory s (heldBy shift s needed))
      (visitUp first count fun s => reserveIn memory s (heldBy shift s needed) :
        Edit (Segmented shift) Unit) :=
    fun _ _ => Edit.agreeOn_visitUp
      (fun s => agree_guardedReserveIn memory s (Nat.min_le_right _ _))
      fun s => keeps_reserveIn memory s _
  refine (Edit.agreeOn_refl _ _).bind (fun _ hfits => hfits) fun store => ?_
  split
  · dsimp only
    split
    · rename_i hlist
      have hcheck : checkMinus (segmentsFor shift needed) store.segments.size = .ok () :=
        if_pos (Nat.le_of_lt hlist)
      rw [hcheck, Edit.liftM_ok_bind]
      exact (Edit.agreeOn_refl _ _).bind (keeps_lengthen memory _) fun _ => heach _ _
    · exact heach _ _
  · exact Edit.agreeOn_refl _ _

theorem guardedFill_eq :
    (guardedFill : Nat → Nat → Word → Edit (Segmented shift) Unit) = fill := by
  funext lo hi value
  unfold guardedFill fill
  split
  · rfl
  · rename_i hlt
    have hfirst : segmentOf shift lo ≤ segmentOf shift (hi - 1) + 1 :=
      Nat.le_succ_of_le (segmentOf_le_segmentOf shift (by omega))
    simp only [minus_of_le (show 1 ≤ hi by omega), minus_of_le hfirst, Edit.liftM_ok_bind]
    refine visitUp_congr fun s _ hs => ?_
    have hbase : s <<< shift ≤ hi := by
      have hlast := shiftLeft_le_shiftLeft shift (show s ≤ segmentOf shift (hi - 1) by omega)
      have hbounds := (segmentOf_bounds shift (hi - 1)).1
      omega
    simp only [minus_of_le (Nat.le_max_right lo (s <<< shift)), minus_of_le hbase,
      Edit.liftM_ok_bind]

instance : StoreGuard (Segmented shift) :=
  .ofRoom guardedReserve guardedFill refines_guardedReserve agree_guardedReserve guardedFill_eq

end Segmented

end PackedBits
