import PackedBits.Proofs.Nesting
import PackedBits.Proofs.Readable
import PackedBits.Proofs.WalkLaw

/-!
# A set of positions is the ones in its ranges

A set is narrowed by any number of calls, each with a range of its own, for
reading and for editing alike. What it then has are the ones of the vector behind
at the positions that every range admits: `PositionSet.ones`. `Nested.set_of_ones`
says that all that is read of the set agrees with that list, and what adding a
position, taking one away and taking all away do to the bits.
-/

namespace PackedBits

namespace PositionSet

/-! ## Ranges -/

/-- A call that narrows a set to a range of its own. -/
inductive Cut where
  | between (lo hi : Nat)
  | below (hi : Nat)
  | startingAt (lo : Nat)

namespace Cut

variable {V α : Type}

/-- The set that is left. -/
def apply (s : PositionSet V) : Cut → PositionSet V
  | between lo hi => s.between lo hi
  | below hi => s.below hi
  | startingAt lo => s.startingAt lo

/-- Edits the set that is left. -/
def around : Cut → Edit (PositionSet V) α → Edit (PositionSet V) α
  | between lo hi => withinBounds lo hi
  | below hi => withinBounds 0 hi
  | startingAt lo => withinBounds lo maxPosition

/-- The range of a call has a position. -/
def admits (p : Nat) : Cut → Prop
  | between lo hi => lo ≤ p ∧ p < hi
  | below hi => p < hi
  | startingAt lo => lo ≤ p

instance (p : Nat) : (c : Cut) → Decidable (c.admits p)
  | between _ _ => instDecidableAnd
  | below hi => Nat.decLt p hi
  | startingAt lo => Nat.decLe lo p

theorem backing_apply (s : PositionSet V) (c : Cut) : (apply s c).backing = s.backing := by
  cases c <;> rfl

theorem between_iff (s : PositionSet V) (lo hi p : Nat) :
    (s.between lo hi).lower ≤ p ∧ p < (s.between lo hi).upper ↔
      (s.lower ≤ p ∧ p < s.upper) ∧ lo ≤ p ∧ p < hi := by
  simp only [PositionSet.between, bounds]
  omega

/-- A narrowed set admits what the set and the range both have. -/
theorem apply_iff {s : PositionSet V} (hs : s.upper ≤ maxPosition) (c : Cut) (p : Nat) :
    (apply s c).lower ≤ p ∧ p < (apply s c).upper ↔
      (s.lower ≤ p ∧ p < s.upper) ∧ c.admits p := by
  cases c with
  | between lo hi => exact between_iff s lo hi p
  | below hi =>
    rw [apply, PositionSet.below, between_iff, admits]
    omega
  | startingAt lo =>
    rw [apply, PositionSet.startingAt, between_iff, admits]
    omega

theorem upper_apply_le (s : PositionSet V) (c : Cut) : (apply s c).upper ≤ s.upper := by
  cases c <;> exact Nat.min_le_right _ _

/-- To edit what is left is to edit the narrowed set. -/
theorem editsPiece_around (c : Cut) (edit : Edit (PositionSet V) α) (s : PositionSet V) :
    (c.around edit).EditsPiece s edit (apply s c) fun t => ⟨t.backing, s.lower, s.upper⟩ := by
  cases c <;> exact editsPiece_withinBounds edit _ _ s

end Cut

/-- Every range asked for has the position, and so has the set of all positions. -/
def Admitted (cuts : List Cut) (p : Nat) : Prop := p < maxPosition ∧ ∀ c ∈ cuts, c.admits p

instance (cuts : List Cut) (p : Nat) : Decidable (Admitted cuts p) :=
  inferInstanceAs (Decidable (_ ∧ _))

section

variable {V α : Type}

theorem backing_foldl_apply (cuts : List Cut) (s : PositionSet V) :
    (cuts.foldl Cut.apply s).backing = s.backing := by
  induction cuts generalizing s with
  | nil => rfl
  | cons c cuts ih => rw [List.foldl_cons, ih, c.backing_apply]

/-- The bounds of a narrowed set are the same whatever vector is behind. -/
theorem bounds_foldl_apply {W : Type} (cuts : List Cut) {s : PositionSet V} {t : PositionSet W}
    (hlower : s.lower = t.lower) (hupper : s.upper = t.upper) :
    (cuts.foldl Cut.apply s).lower = (cuts.foldl Cut.apply t).lower ∧
      (cuts.foldl Cut.apply s).upper = (cuts.foldl Cut.apply t).upper := by
  induction cuts generalizing s t with
  | nil => exact ⟨hlower, hupper⟩
  | cons c cuts ih =>
    have hbounds : ∀ lo hi, s.bounds lo hi = t.bounds lo hi := by
      intro lo hi
      rw [bounds, bounds, hlower, hupper]
    have hbetween : ∀ lo hi, (s.between lo hi).lower = (t.between lo hi).lower ∧
        (s.between lo hi).upper = (t.between lo hi).upper := fun lo hi =>
      ⟨congrArg Prod.fst (hbounds lo hi), congrArg Prod.snd (hbounds lo hi)⟩
    cases c with
    | between lo hi => exact ih (hbetween lo hi).1 (hbetween lo hi).2
    | below hi => exact ih (hbetween 0 hi).1 (hbetween 0 hi).2
    | startingAt lo => exact ih (hbetween lo maxPosition).1 (hbetween lo maxPosition).2

theorem foldl_apply_iff (cuts : List Cut) {s : PositionSet V} (hs : s.upper ≤ maxPosition)
    (p : Nat) :
    (cuts.foldl Cut.apply s).lower ≤ p ∧ p < (cuts.foldl Cut.apply s).upper ↔
      (s.lower ≤ p ∧ p < s.upper) ∧ ∀ c ∈ cuts, c.admits p := by
  induction cuts generalizing s with
  | nil => exact (and_iff_left nofun).symm
  | cons c cuts ih =>
    rw [List.foldl_cons, ih (Nat.le_trans (c.upper_apply_le s) hs), c.apply_iff hs,
      List.forall_mem_cons, and_assoc]

/-- The bounds that a set ends up with are those of all its ranges together. -/
theorem admitted_iff (cuts : List Cut) (v : V) (p : Nat) :
    (cuts.foldl Cut.apply (of v)).lower ≤ p ∧ p < (cuts.foldl Cut.apply (of v)).upper ↔
      Admitted cuts p := by
  have hof : (of v).lower ≤ p ∧ p < (of v).upper ↔ p < maxPosition :=
    and_iff_right (Nat.zero_le p)
  rw [foldl_apply_iff cuts (Nat.le_refl _), hof, Admitted]

/-- Edits a vector as a set narrowed by calls, the first call outermost. -/
def inside (cuts : List Cut) (edit : Edit (PositionSet V) α) : Edit V α :=
  within (cuts.foldr Cut.around edit)

theorem exists_editsPiece_foldr (cuts : List Cut) (edit : Edit (PositionSet V) α)
    (s : PositionSet V) :
    ∃ put : PositionSet V → PositionSet V, (∀ t, (put t).backing = t.backing) ∧
      (cuts.foldr Cut.around edit).EditsPiece s edit (cuts.foldl Cut.apply s) put := by
  induction cuts generalizing s with
  | nil => exact ⟨id, fun _ => rfl, fun hrun => hrun, fun hrun => hrun⟩
  | cons c cuts ih =>
    obtain ⟨put, hput, hpiece⟩ := ih (Cut.apply s c)
    have houter := c.editsPiece_around (cuts.foldr Cut.around edit) s
    refine ⟨fun t => ⟨(put t).backing, s.lower, s.upper⟩, hput, ?_⟩
    exact houter.trans hpiece

theorem editsPiece_inside (cuts : List Cut) (edit : Edit (PositionSet V) α) (v : V) :
    (inside cuts edit).EditsPiece v edit (cuts.foldl Cut.apply (of v)) PositionSet.backing := by
  obtain ⟨put, hput, hpiece⟩ := exists_editsPiece_foldr cuts edit (of v)
  have hwhole := (editsPiece_within (cuts.foldr Cut.around edit) v).trans hpiece
  rwa [funext hput] at hwhole

end

/-- The positions of ones that every range asked for has, in increasing order. -/
def ones (cuts : List Cut) (bits : List Bool) : List Nat :=
  (List.range bits.length).filter fun p => decide (bits[p]? = some true ∧ Admitted cuts p)

theorem mem_ones {cuts : List Cut} {bits : List Bool} {p : Nat} :
    p ∈ ones cuts bits ↔ bits[p]? = some true ∧ Admitted cuts p := by
  rw [ones, List.mem_filter, List.mem_range, decide_eq_true_iff]
  exact and_iff_right_of_imp fun h => lt_length_of_getElem? h.1

theorem ones_eq_positionsOf {V : Type} (cuts : List Cut) (v : V) (bits : List Bool) :
    ones cuts bits = positionsOf true bits (cuts.foldl Cut.apply (of v)).lower
      (cuts.foldl Cut.apply (of v)).upper := by
  have hsorted : (ones cuts bits).Pairwise (· < ·) :=
    List.Pairwise.filter _ List.pairwise_lt_range
  apply eq_positionsOf hsorted
  intro q
  rw [mem_ones, admitted_iff, and_comm]

section

variable {cuts : List Cut} {bits : List Bool} {p q : Nat}

/-- The bits at positions that not every range has are the same. -/
def SameOutside (cuts : List Cut) (bits bits' : List Bool) : Prop :=
  ∀ q, q < bits.length → ¬Admitted cuts q → bits'[q]? = bits[q]?

/-- A raised bit is one more position. -/
theorem mem_ones_raised (hin : Admitted cuts p) :
    q ∈ ones cuts ((resized (max bits.length (p + 1)) false bits).set p true) ↔
      q = p ∨ q ∈ ones cuts bits := by
  rw [mem_ones, mem_ones, List.getElem?_set, length_resized, getElem?_resized]
  by_cases hq : p = q
  · subst hq
    rw [if_pos rfl, if_pos (by omega)]
    exact iff_of_true ⟨rfl, hin⟩ (.inl rfl)
  · rw [if_neg hq, or_iff_right (Ne.symm hq)]
    have hbit : (if q < max bits.length (p + 1) then some (bits[q]?.getD false) else none) =
        some true ↔ bits[q]? = some true := by
      rcases Nat.lt_or_ge q bits.length with hlt | hpast
      · rw [if_pos (by omega), List.getElem?_eq_getElem hlt, Option.getD_some]
      · rw [List.getElem?_eq_none hpast]
        split <;> exact iff_of_false nofun nofun
    rw [hbit]

theorem sameOutside_raised (hin : Admitted cuts p) :
    SameOutside cuts bits ((resized (max bits.length (p + 1)) false bits).set p true) := by
  intro q hlt hout
  have hne : p ≠ q := fun he => hout (he ▸ hin)
  rw [List.getElem?_set, if_neg hne, getElem?_resized, if_pos (by omega),
    List.getElem?_eq_getElem hlt, Option.getD_some]

/-- A bit that is cleared is one position less. -/
theorem mem_ones_cleared :
    q ∈ ones cuts (if p ∈ ones cuts bits then bits.set p false else bits) ↔
      q ∈ ones cuts bits ∧ q ≠ p := by
  by_cases hp : p ∈ ones cuts bits
  · have hlt := lt_length_of_getElem? (mem_ones.mp hp).1
    rw [if_pos hp, mem_ones, mem_ones, List.getElem?_set]
    by_cases hq : p = q
    · subst hq
      rw [if_pos rfl, if_pos hlt]
      exact iff_of_false (fun h => nomatch h.1) fun h => h.2 rfl
    · rw [if_neg hq, and_iff_left (Ne.symm hq)]
  · rw [if_neg hp]
    refine ⟨fun hq => ⟨hq, fun he => hp (he ▸ hq)⟩, And.left⟩

theorem sameOutside_cleared :
    SameOutside cuts bits (if p ∈ ones cuts bits then bits.set p false else bits) := by
  intro q _ hout
  split
  · rename_i hp
    have hne : p ≠ q := fun he => hout (he ▸ (mem_ones.mp hp).2)
    rw [List.getElem?_set, if_neg hne]
  · rfl

end

/-! ## Reading -/

/-- All that is read of a set agrees with a list of its positions. -/
structure Shows {V : Type} [Bits V] (s : PositionSet V) (members : List Nat) : Prop where
  contains_eq (p : Nat) : s.contains p = .ok (decide (p ∈ members))
  size_eq : s.size = .ok members.length
  isEmpty_eq : s.isEmpty = .ok members.isEmpty
  first_eq : s.first = .ok members.head?
  last_eq : s.last = .ok members.getLast?
  toArray_eq : s.toArray = .ok members.toArray
  reversed_eq : Walk.toArray s.nextBack s.walk = .ok members.reverse.toArray
  from_eq (p : Nat) : Walk.toArray s.next (s.walkFrom p) =
    .ok (members.filter (p ≤ ·)).toArray
  reversed_from_eq (p : Nat) : Walk.toArray s.nextBack (s.walkFrom p) =
    .ok (members.filter (p ≤ ·)).reverse.toArray

/-- Within the bounds, the bit tells whether a position is in the set. -/
theorem decide_mem_positionsOf {V : Type} {s : PositionSet V} {bits : List Bool} {p : Nat}
    {b : Bool} (hin : s.lower ≤ p ∧ p < s.upper) (hb : bits[p]? = some b) :
    decide (p ∈ positionsOf true bits s.lower s.upper) = b := by
  have hmem : p ∈ positionsOf true bits s.lower s.upper ↔ b = true := by
    rw [mem_positionsOf, hb, Option.some.injEq]
    exact and_iff_right hin
  cases b with
  | false => exact decide_eq_false fun hp => Bool.false_ne_true (hmem.mp hp)
  | true => exact decide_eq_true (hmem.mpr rfl)

section

variable {V : Type} [Bits V] {s : PositionSet V} {bits : List Bool}

/-- The end of the vector bounds the set as well as its upper bound does. -/
theorem positionsOf_reach (h : (Bits.source s.backing).Reads bits) (lo : Nat) :
    positionsOf true bits lo s.reach = positionsOf true bits lo s.upper := by
  have hlength : Bits.length s.backing = bits.length := h.length_eq
  apply eq_positionsOf pairwise_positionsOf
  intro q
  rw [mem_positionsOf, reach, hlength, Nat.lt_min]
  constructor
  · intro hq
    obtain ⟨⟨hlo, hhi, -⟩, hb⟩ := hq
    exact ⟨⟨hlo, hhi⟩, hb⟩
  · intro hq
    obtain ⟨⟨hlo, hhi⟩, hb⟩ := hq
    exact ⟨⟨hlo, hhi, lt_length_of_getElem? hb⟩, hb⟩

theorem positionsOf_max (lo hi p : Nat) (b : Bool) :
    positionsOf b bits (max p lo) hi = (positionsOf b bits lo hi).filter (p ≤ ·) := by
  symm
  apply eq_positionsOf (pairwise_positionsOf.filter _)
  intro q
  rw [List.mem_filter, mem_positionsOf, decide_eq_true_iff, Nat.max_le]
  tauto

/-- What is not admitted is not in the set. -/
theorem decide_mem_positionsOf_of_not_admits (h : Faithful s.backing bits) {p : Nat}
    (hout : ¬(s.lower ≤ p ∧ p < s.reach)) :
    decide (p ∈ positionsOf true bits s.lower s.upper) = false := by
  rw [← positionsOf_reach h.reads, decide_eq_false_iff_not, mem_positionsOf]
  exact fun hin => hout hin.1

theorem contains_eq (h : Faithful s.backing bits) (p : Nat) :
    s.contains p = .ok (decide (p ∈ positionsOf true bits s.lower s.upper)) := by
  have hlength : Bits.length s.backing = bits.length := h.reads.length_eq
  rw [contains, admits]
  by_cases hin : s.lower ≤ p ∧ p < s.reach
  · obtain ⟨hupper, hlt⟩ := Nat.lt_min.mp hin.2
    have hb : bits[p]? = some bits[p] := List.getElem?_eq_getElem (hlength ▸ hlt)
    have hread : Bits.bit s.backing p = .ok bits[p] := h.reads.bit_eq hb
    rw [if_pos (decide_eq_true hin), hread, decide_mem_positionsOf ⟨hin.1, hupper⟩ hb]
  · rw [if_neg (by rwa [decide_eq_true_iff]), decide_mem_positionsOf_of_not_admits h hin]
    rfl

theorem size_eq (h : Faithful s.backing bits) :
    s.size = .ok (positionsOf true bits s.lower s.upper).length := by
  have hlength : Bits.length s.backing = bits.length := h.reads.length_eq
  have hreach : s.reach ≤ Bits.length s.backing := Nat.min_le_right _ _
  rw [size, ← positionsOf_reach h.reads]
  split
  · rename_i hempty
    rw [positionsOf_of_le hempty]
    rfl
  · rename_i hopen
    have hpart := Part.of_eq_ok (Nat.le_of_not_le hopen) hreach
    have hframed := Part.framed_of h hlength hpart
    rw [bind_of_ok hpart, hframed.faithful.countOnes_eq, length_positionsOf (hlength ▸ hreach)]

theorem first_eq (h : Faithful s.backing bits) :
    s.first = .ok (positionsOf true bits s.lower s.upper).head? := by
  obtain ⟨found, hrun, hleast⟩ := h.next_eq true s.lower
  rw [first, bind_of_ok hrun, ← positionsOf_reach h.reads, head?_positionsOf hleast]
  rfl

theorem last_eq (h : Faithful s.backing bits) :
    s.last = .ok (positionsOf true bits s.lower s.upper).getLast? := by
  obtain ⟨found, hrun, hmost⟩ := h.previous_eq true s.reach
  rw [last, bind_of_ok hrun, ← positionsOf_reach h.reads, getLast?_positionsOf hmost]
  rfl

theorem walkFrom_eq (h : Faithful s.backing bits) (p : Nat) :
    Walk.toArray s.next (s.walkFrom p) =
      .ok ((positionsOf true bits s.lower s.upper).filter (p ≤ ·)).toArray := by
  rw [← positionsOf_max, ← positionsOf_reach h.reads]
  exact Walk.toArray_nextHolding h true (max p s.lower) s.reach

theorem walkFrom_back_eq (h : Faithful s.backing bits) (p : Nat) :
    Walk.toArray s.nextBack (s.walkFrom p) =
      .ok ((positionsOf true bits s.lower s.upper).filter (p ≤ ·)).reverse.toArray := by
  rw [← positionsOf_max, ← positionsOf_reach h.reads]
  exact Walk.toArray_nextBackHolding h true (max p s.lower) s.reach

/-- What is read of a set is what its bounds have of the ones behind. -/
theorem shows (h : Faithful s.backing bits) : s.Shows (positionsOf true bits s.lower s.upper) where
  contains_eq := contains_eq h
  size_eq := size_eq h
  isEmpty_eq := by
    rw [isEmpty, bind_of_ok (first_eq h)]
    cases positionsOf true bits s.lower s.upper <;> rfl
  first_eq := first_eq h
  last_eq := last_eq h
  toArray_eq := positionsOf_reach h.reads s.lower ▸ Walk.toArray_nextHolding h true s.lower s.reach
  reversed_eq :=
    positionsOf_reach h.reads s.lower ▸ Walk.toArray_nextBackHolding h true s.lower s.reach
  from_eq := walkFrom_eq h
  reversed_from_eq := walkFrom_back_eq h

end

/-! ## Editing -/

/-- Sets the bit at `i` of a vector made long enough, and tells whether it was a
zero. -/
def raise {V : Type} [ResizableBits V] (memory : Allocator) (i : Nat) : Edit V Bool := do
  let n ← Edit.view Bits.length
  if n ≤ i then ResizableBits.setLength memory (i + 1)
  return !(← MutableBits.set i true)

section

variable {V : Type} [ResizableBits V] {holds : V → List Bool → Prop} {s : PositionSet V}
  {bits : List Bool} {p : Nat}

/-- A position out of bounds is rejected. -/
theorem insert_error (memory : Allocator) (hout : ¬(s.lower ≤ p ∧ p < s.upper)) :
    insert memory p s = .error (.outOfView p s.lower s.upper) s := by
  have hcheck : require (s.lower ≤ p ∧ p < s.upper) (.outOfView p s.lower s.upper) =
      .error (.outOfView p s.lower s.upper) := if_neg hout
  exact Edit.inspect_bind_error hcheck

/-- A position within bounds is put into the vector behind. -/
theorem editsPiece_insert (memory : Allocator) (hin : s.lower ≤ p ∧ p < s.upper) :
    (insert memory p).EditsPiece s (raise memory p) s.backing
      fun backing => ⟨backing, s.lower, s.upper⟩ := by
  have hcheck : require (s.lower ≤ p ∧ p < s.upper) (.outOfView p s.lower s.upper) = .ok () :=
    if_pos hin
  have hput : ∀ backing : V,
      (do return !(← onBacking (MutableBits.set p true)) : Edit (PositionSet V) Bool).EditsPiece
        ⟨backing, s.lower, s.upper⟩ (do return !(← MutableBits.set p true)) backing
        fun backing => ⟨backing, s.lower, s.upper⟩ :=
    fun backing => (editsPiece_onBacking _ _).bind fun old w => Edit.editsPiece_pure rfl
  refine Edit.editsPiece_congr (Edit.inspect_bind_ok hcheck) ?_
  refine Edit.EditsPiece.bind (Edit.editsPiece_view rfl rfl) fun n w => ?_
  split
  · exact (editsPiece_onBacking _ _).bind fun _ w => hput w
  · exact hput w

/-- Setting a bit tells whether it was a zero. -/
theorem yields_put (h : Lawful holds) {v : V} (hv : holds v bits) {old : Bool}
    (hold : bits[p]? = some old) {failed : Failure → V → Prop} :
    (do return !(← MutableBits.set p true) : Edit V Bool).Yields v
      (fun fresh w => fresh = !decide (bits[p]? = some true) ∧ holds w (bits.set p true))
      failed := by
  obtain ⟨w, hrun, hw⟩ := (h.set p true).exists_ok hv (Plan.set_of_some hold true)
  refine Edit.yields_bind_ok hrun (Edit.yields_pure ⟨?_, hw⟩)
  rw [hold]
  cases old <;> rfl

/-- Raising a bit lengthens the vector with zeros as far as it is too short, and
then sets the bit. -/
theorem yields_raise {memory : Allocator} {v : V} {i : Nat} {failed : Failure → V → Prop}
    (hv : holds v bits) (hlength : Bits.length v = bits.length)
    (hlong : bits.length ≤ i → (ResizableBits.setLength memory (i + 1)).Yields v
      (fun _ w => holds w (resized (i + 1) false bits)) failed)
    (hput : ∀ w front old, holds w front → front[i]? = some old →
      (do return !(← MutableBits.set i true) : Edit V Bool).Yields w
        (fun fresh x => fresh = !decide (front[i]? = some true) ∧ holds x (front.set i true))
        failed) :
    (raise memory i).Yields v (fun fresh w => fresh = !decide (bits[i]? = some true) ∧
      holds w ((resized (max bits.length (i + 1)) false bits).set i true)) failed := by
  refine Edit.yields_congr (Edit.view_bind Bits.length) ?_
  rw [hlength]
  split
  · rename_i hpast
    rw [Nat.max_eq_right (Nat.le_succ_of_le hpast)]
    refine (hlong hpast).bind fun _ w hw => ?_
    have hzero : (resized (i + 1) false bits)[i]? = some false := by
      rw [getElem?_resized, if_pos (Nat.lt_succ_self i), List.getElem?_eq_none hpast,
        Option.getD_none]
    refine (hput w _ false hw hzero).imp fun fresh w hw => ⟨hw.1.trans ?_, hw.2⟩
    rw [hzero, List.getElem?_eq_none hpast]
    rfl
  · rename_i hin
    rw [Nat.max_eq_left (by omega), resized_length]
    exact hput v bits _ hv (List.getElem?_eq_getElem (by omega))

theorem follows_raise (h : Lawful holds) (memory : Allocator) (i : Nat) :
    Follows holds (fun _ => True) (raise memory i) fun bits =>
      .ok (!decide (bits[i]? = some true),
        (resized (max bits.length (i + 1)) false bits).set i true) := by
  intro v bits hv
  have hlong := (h.setLength memory (i + 1)).yields hv rfl
  exact followsAt_of_yields rfl (yields_raise hv (h.length_eq hv)
    (fun _ => hlong.imp fun _ _ hw => hw.2) fun w front old hw hold => yields_put h hw hold)

/-- A position that some range lacks is rejected. -/
theorem inside_insert_error {cuts : List Cut} (memory : Allocator) (v : V)
    (hout : ¬Admitted cuts p) :
    inside cuts (insert memory p) v = .error (.outOfView p (cuts.foldl Cut.apply (of v)).lower
      (cuts.foldl Cut.apply (of v)).upper) v := by
  have hreject := insert_error (s := cuts.foldl Cut.apply (of v)) memory
    fun hin => hout ((admitted_iff cuts v p).mp hin)
  rw [(editsPiece_inside cuts (insert memory p) v).error hreject, backing_foldl_apply]
  rfl

/-- To put in a position that every range has is to raise its bit. -/
theorem inside_insert_eq {cuts : List Cut} (memory : Allocator) (v : V)
    (hin : Admitted cuts p) : inside cuts (insert memory p) v = raise memory p v := by
  have hpiece := (editsPiece_inside cuts (insert memory p) v).trans
    (editsPiece_insert memory ((admitted_iff cuts v p).mpr hin))
  rw [backing_foldl_apply cuts (of v)] at hpiece
  exact hpiece.run_eq

/-- A position is taken away when it is in the set. -/
theorem remove_eq (h : Lawful holds) (hs : holds s.backing bits) (hf : Faithful s.backing bits)
    (p : Nat) :
    ∃ w, remove p s = .ok (decide (p ∈ positionsOf true bits s.lower s.upper))
        ⟨w, s.lower, s.upper⟩ ∧
      holds w (if p ∈ positionsOf true bits s.lower s.upper then bits.set p false else bits) := by
  have hlength : Bits.length s.backing = bits.length := h.length_eq hs
  rw [remove, Edit.view_bind, admits]
  by_cases hin : s.lower ≤ p ∧ p < s.reach
  · obtain ⟨hupper, hlt⟩ := Nat.lt_min.mp hin.2
    have hold : bits[p]? = some bits[p] := List.getElem?_eq_getElem (hlength ▸ hlt)
    obtain ⟨w, hrun, hw⟩ := (h.set p false).exists_ok hs (Plan.set_of_some hold false)
    have hmember := decide_mem_positionsOf ⟨hin.1, hupper⟩ hold
    refine ⟨w, ?_, ?_⟩
    · rw [if_pos (decide_eq_true hin), hmember]
      exact (editsPiece_onBacking _ s).ok hrun
    · split
      · exact hw
      · rename_i hnot
        rw [decide_eq_false hnot] at hmember
        rwa [hmember, List.set_getElem_self] at hw
  · have hmember := decide_mem_positionsOf_of_not_admits hf hin
    rw [if_neg (by rwa [decide_eq_true_iff]), hmember,
      if_neg (of_decide_eq_false hmember)]
    exact ⟨s.backing, rfl, hs⟩

/-- Taking every position away clears the bits within the bounds. -/
theorem clear_eq (h : Lawful holds) (hs : holds s.backing bits) :
    ∃ w, clear s = .ok () ⟨w, s.lower, s.upper⟩ ∧
      holds w (rewritten s.lower s.reach (fun _ _ => false) bits) := by
  have hlength : Bits.length s.backing = bits.length := h.length_eq hs
  rw [clear, Edit.view_bind]
  by_cases hopen : s.lower < s.reach
  · have hreach : s.reach ≤ bits.length := hlength ▸ Nat.min_le_right _ _
    obtain ⟨w, hrun, hw⟩ := (h.fillRange s.lower s.reach false).exists_ok hs
      (Plan.fillRange_of_le (Nat.le_of_lt hopen) hreach false)
    refine ⟨w, ?_, hw⟩
    simp only [if_pos hopen]
    exact (editsPiece_onBacking _ s).ok hrun
  · refine ⟨s.backing, ?_, ?_⟩
    · simp only [if_neg hopen]
      rfl
    · rwa [rewritten_of_le (Nat.le_of_not_lt hopen)]

end

end PositionSet

/-! ## Sets over vectors and parts -/

/-- All that is read of a vector, or of a part at any depth, is as it should be. -/
theorem Nested.faithful {V : Type} [ResizableBits V] {v : V} {bits : List Bool}
    {around : Surroundings} (h : Nested v bits around) : Faithful v bits := by
  induction h with
  | words kind hreached hbits =>
    obtain ⟨held, hheld⟩ := hreached.exists_bits
    rw [hheld.reads.toArray_eq] at hbits
    cases hbits
    exact hheld.faithful
  | listed v =>
    have hreads : (Bits.source v).Reads v.bits.toList := BitList.lawful.reads rfl
    have hreach : v.bits.toList.length ≤ windowsEnd 0 :=
      Nat.le_trans v.fits (by decide : maxBytes ≤ windowsEnd 0)
    exact TakesScans.faithful ⟨rfl, rfl, rfl⟩ hreads hreach
  | part _ ih => exact Part.Framed.faithful ⟨ih, rfl, rfl⟩

section

variable {V : Type} [ResizableBits V] {v : V} {bits : List Bool} {around : Surroundings}

open PositionSet

/-- A position that every range has is put into the set, and only the bits up to
it are new. -/
theorem Nested.insert_position (hv : Nested v bits around) {cuts : List Cut}
    (memory : Allocator) {p : Nat} (hin : Admitted cuts p)
    (hgranted : ¬(inside cuts (insert memory p)).Refused v) :
    ∃ v', inside cuts (insert memory p) v = .ok (!decide (p ∈ ones cuts bits)) v' ∧
      Nested v' ((resized (max bits.length (p + 1)) false bits).set p true) around := by
  obtain ⟨holds, hlawful, hheld, hnested⟩ := hv.exists_lawful
  have hsame := inside_insert_eq memory v hin
  have hraise := ((follows_raise hlawful memory p).yields hheld rfl).mono
    (fun _ _ hpost => hpost) fun _ _ hfailed => hfailed.1
  obtain ⟨fresh, w, hrun, rfl, hw⟩ :=
    (Edit.yields_congr hsame hraise).exists_ok_of_not_refused hgranted
  have hmember : p ∈ ones cuts bits ↔ bits[p]? = some true := mem_ones.trans (and_iff_left hin)
  refine ⟨w, ?_, hnested w _ hw⟩
  rw [decide_eq_decide.mpr hmember]
  exact hrun

/-- A position is taken out of the set when it is in it. -/
theorem Nested.remove_position (hv : Nested v bits around) (cuts : List Cut) (p : Nat) :
    ∃ v', inside cuts (remove p) v = .ok (decide (p ∈ ones cuts bits)) v' ∧
      Nested v' (if p ∈ ones cuts bits then bits.set p false else bits) around := by
  obtain ⟨holds, hlawful, hheld, hnested⟩ := hv.exists_lawful
  have hbacking : (cuts.foldl Cut.apply (of v)).backing = v := backing_foldl_apply cuts (of v)
  rw [← hbacking] at hheld
  obtain ⟨w, hrun, hw⟩ := remove_eq hlawful hheld (hbacking.symm ▸ hv.faithful) p
  rw [← ones_eq_positionsOf] at hrun hw
  exact ⟨w, (editsPiece_inside cuts (remove p) v).ok hrun, hnested w _ hw⟩

/-- All positions of the set are taken out of it. -/
theorem Nested.clear_positions (hv : Nested v bits around) (cuts : List Cut) :
    ∃ v' bits', inside cuts clear v = .ok () v' ∧ Nested v' bits' around ∧
      bits'.length = bits.length ∧
      ∀ q : Nat, bits'[q]? = if q ∈ ones cuts bits then some false else bits[q]? := by
  obtain ⟨holds, hlawful, hheld, hnested⟩ := hv.exists_lawful
  have hbacking : (cuts.foldl Cut.apply (of v)).backing = v := backing_foldl_apply cuts (of v)
  rw [← hbacking] at hheld
  obtain ⟨w, hrun, hw⟩ := clear_eq hlawful hheld
  have hlength : Bits.length v = bits.length := hlawful.length_eq (hbacking ▸ hheld)
  refine ⟨w, _, (editsPiece_inside cuts clear v).ok hrun, hnested w _ hw, length_rewritten .., ?_⟩
  intro q
  have hrange : (cuts.foldl Cut.apply (of v)).lower ≤ q ∧ q < (cuts.foldl Cut.apply (of v)).reach ↔
      Admitted cuts q ∧ q < bits.length := by
    rw [reach, hbacking, hlength, Nat.lt_min, ← and_assoc, admitted_iff]
  rw [getElem?_rewritten]
  simp only [hrange, mem_ones]
  cases hb : bits[q]? with
  | none => exact (if_neg fun h => nomatch h.1).symm
  | some b =>
    have hlt := lt_length_of_getElem? hb
    rw [Option.map_some]
    by_cases hq : Admitted cuts q
    · rw [if_pos ⟨hq, hlt⟩]
      cases b with
      | false => exact (ite_self _).symm
      | true => exact (if_pos ⟨rfl, hq⟩).symm
    · rw [if_neg fun h => hq h.1, if_neg fun h => hq h.2]

/-- A set narrowed by any calls, in whatever order, has the ones at the positions
that every range has, in increasing order, whether it is read or edited. A
position that some range lacks is rejected and changes nothing; any other is put
into the set, and the vector made long enough for it with zeros. Taking positions
away changes those bits alone, and no length. -/
theorem Nested.set_of_ones (hv : Nested v bits around) (cuts : List Cut) :
    let s := cuts.foldl Cut.apply (of v)
    let members := ones cuts bits
    s.Shows members ∧
      (∀ {α : Type} (read : PositionSet V → Answer α),
        inside cuts (Edit.inspect read) v = Edit.inspect (fun _ => read s) v) ∧
      (∀ memory p, ¬Admitted cuts p →
        inside cuts (insert memory p) v = .error (.outOfView p s.lower s.upper) v) ∧
      (∀ memory p, Admitted cuts p → ¬(inside cuts (insert memory p)).Refused v →
        ∃ v', let bits' := (resized (max bits.length (p + 1)) false bits).set p true
          inside cuts (insert memory p) v = .ok (!decide (p ∈ members)) v' ∧
            Nested v' bits' around ∧ (∀ q, q ∈ ones cuts bits' ↔ q = p ∨ q ∈ members) ∧
            SameOutside cuts bits bits') ∧
      (∀ p, ∃ v', let bits' := if p ∈ members then bits.set p false else bits
        inside cuts (remove p) v = .ok (decide (p ∈ members)) v' ∧ Nested v' bits' around ∧
          (∀ q, q ∈ ones cuts bits' ↔ q ∈ members ∧ q ≠ p) ∧ SameOutside cuts bits bits') ∧
      ∃ v' bits', inside cuts clear v = .ok () v' ∧ Nested v' bits' around ∧
        bits'.length = bits.length ∧
        ∀ q : Nat, bits'[q]? = if q ∈ members then some false else bits[q]? := by
  intro s members
  have hbacking : s.backing = v := backing_foldl_apply cuts (of v)
  have hfaithful : Faithful s.backing bits := hbacking.symm ▸ hv.faithful
  refine ⟨?_, ?_, ?_, ?_, ?_, hv.clear_positions cuts⟩
  · have hmembers : members = positionsOf true bits s.lower s.upper :=
      ones_eq_positionsOf cuts v bits
    rw [hmembers]
    exact shows hfaithful
  · intro α read
    have hpiece := editsPiece_inside cuts (Edit.inspect read) v
    cases hread : read s with
    | ok a =>
      rw [hpiece.ok (Edit.inspect_ok hread)]
      exact congrArg (EStateM.Result.ok a) hbacking
    | error failure =>
      rw [hpiece.error (Edit.inspect_error hread)]
      exact congrArg (EStateM.Result.error failure) hbacking
  · exact fun memory p hout => inside_insert_error memory v hout
  · intro memory p hin hgranted
    obtain ⟨v', hrun, hv'⟩ := hv.insert_position memory hin hgranted
    exact ⟨v', hrun, hv', fun _ => mem_ones_raised hin, sameOutside_raised hin⟩
  · intro p
    obtain ⟨v', hrun, hv'⟩ := hv.remove_position cuts p
    exact ⟨v', hrun, hv', fun _ => mem_ones_cleared, sameOutside_cleared⟩

/-- A set narrowed three times over a part of eight bits on a seam of words in
segments, the third of them a zero. -/
theorem Nested.set_of_ones_over_a_seam :
    let filled : Script := .andThen (.change .unlimited (.setLength 72) trivial) <|
      .andThen (.change .unlimited .flipAll trivial) <|
      .change .unlimited (.set 64 false) trivial
    let ground : WordVec (StoreKind.segmented 0).Store := filled.run.after WordVec.empty
    let v : Part (WordVec (StoreKind.segmented 0).Store) := ⟨ground, 62, 70⟩
    let bits := [true, true, false, true, true, true, true, true]
    let around : Surroundings := [(List.replicate 62 true, [true, true])]
    let cuts : List Cut := [.between 1 6, .startingAt 2, .below 9]
    Nested v bits around ∧
      (cuts.foldl Cut.apply (of v)).toArray = .ok #[3, 4, 5] ∧
      inside cuts (insert .unlimited 1) v = .error (.outOfView 1 2 6) v ∧
      (∃ v', inside cuts (insert .unlimited 2) v = .ok true v' ∧
        Nested v' (List.replicate 8 true) around) ∧
      ∃ v', inside cuts (remove 4) v = .ok true v' ∧
        Nested v' [true, true, false, true, false, true, true, true] around := by
  intro filled ground v bits around cuts
  have hbits : Bits.toArray ground =
      .ok (List.replicate 62 true ++ bits ++ [true, true]).toArray := by decide +kernel
  have hground : Nested ground (List.replicate 62 true ++ bits ++ [true, true]) [] :=
    .words (.segmented 0) (.script filled .empty) hbits
  have hv : Nested v bits around := .part hground
  have hgranted : ¬(inside cuts (insert .unlimited 2)).Refused v := by decide +kernel
  obtain ⟨hshows, -, hout, hinsert, hremove, -⟩ := Nested.set_of_ones hv cuts
  obtain ⟨v', hrun, hv', -⟩ := hinsert .unlimited 2 (by decide) hgranted
  obtain ⟨w', hrun', hw', -⟩ := hremove 4
  exact ⟨hv, hshows.toArray_eq, hout .unlimited 1 (by decide), ⟨v', hrun, hv'⟩, w', hrun', hw'⟩

end

end PackedBits
