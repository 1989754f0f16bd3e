import Mathlib.Algebra.Group.Nat.Defs
import PackedBits.Proofs.Nesting
import PackedBits.Proofs.WalkLaw

/-!
# A list of numbers is the fields of its bits

The fields of one width cut bits into numbers from the first bit on, and what is
left at the end belongs to none: `numbers` is that list. `Nested.list_of_numbers`
says that all that is read of a vector as a list of numbers is that list, that
replacing a number changes its field alone, that putting a number at the end
drops what is left there, and that what is rejected changes nothing.
-/

namespace PackedBits

/-! ## Fields of bits -/

/-- A word is below a power of two when it has no one from that place on. -/
theorem Word.narrow_iff {width : Nat} {w : Word} : Narrow width w ↔ w.toNat < 2 ^ width := by
  constructor
  · intro h
    apply Nat.lt_pow_two_of_testBit
    exact h
  · intro h j hj
    exact Nat.testBit_lt_two_pow (Nat.lt_of_lt_of_le h (Nat.pow_le_pow_right (by decide) hj))

/-- The number in field `i` of bits, its lowest bit first. -/
def number (width : Nat) (bits : List Bool) (i : Nat) : Word :=
  (BitVec.ofBoolListLE ((bits.drop (i * width)).take width)).setWidth 64

/-- The numbers in the whole fields of bits. -/
def numbers (width : Nat) (bits : List Bool) : List Word :=
  (List.range (bits.length / width)).map (number width bits)

section

variable {width i k p n : Nat} {bits bits' : List Bool} {value : Word}

theorem getLsbD_number (hwidth : width ≤ 64) (bits : List Bool) (i j : Nat) :
    (number width bits i).getLsbD j = (decide (j < width) && bits[i * width + j]?.getD false) := by
  rw [number, BitVec.getLsbD_setWidth, BitVec.getLsbD_ofBoolListLE, List.getD_eq_getElem?_getD,
    List.getElem?_take, List.getElem?_drop]
  by_cases hj : j < width
  · rw [if_pos hj, decide_eq_true hj, decide_eq_true (Nat.lt_of_lt_of_le hj hwidth)]
  · rw [if_neg hj, decide_eq_false hj, Bool.false_and, Option.getD_none, Bool.and_false]

/-- A number is known by the bits of its field. -/
theorem eq_number (hwidth : width ≤ 64) (hnarrow : Word.Narrow width value)
    (hbits : ∀ j, j < width → value.getLsbD j = bits[i * width + j]?.getD false) :
    value = number width bits i := by
  apply BitVec.eq_of_getLsbD_eq
  intro j _
  rw [getLsbD_number hwidth]
  rcases Nat.lt_or_ge j width with hj | hpast
  · rw [hbits j hj, decide_eq_true hj, Bool.true_and]
  · rw [hnarrow j hpast, decide_eq_false (Nat.not_lt.mpr hpast), Bool.false_and]

theorem narrow_number (hwidth : width ≤ 64) (bits : List Bool) (i : Nat) :
    Word.Narrow width (number width bits i) := by
  intro j hj
  rw [getLsbD_number hwidth, decide_eq_false (Nat.not_lt.mpr hj), Bool.false_and]

theorem length_numbers : (numbers width bits).length = bits.length / width := by
  rw [numbers, List.length_map, List.length_range]

theorem getElem?_numbers (hi : i < bits.length / width) :
    (numbers width bits)[i]? = some (number width bits i) := by
  rw [numbers, List.getElem?_map, List.getElem?_range hi, Option.map_some]

/-- Numbers are known by their places. -/
theorem eq_numbers {list : List Word} (hlength : list.length = bits.length / width)
    (hlist : ∀ i, i < list.length → list[i]? = some (number width bits i)) :
    list = numbers width bits := by
  apply List.ext_getElem?
  intro i
  rcases Nat.lt_or_ge i list.length with hi | hpast
  · rw [hlist i hi, getElem?_numbers (hlength ▸ hi)]
  · rw [List.getElem?_eq_none hpast, List.getElem?_eq_none]
    rwa [length_numbers, ← hlength]

/-- Fields with the same bits have the same number. -/
theorem number_congr (hwidth : width ≤ 64)
    (hbits : ∀ j, j < width → bits'[i * width + j]? = bits[i * width + j]?) :
    number width bits' i = number width bits i := by
  apply eq_number hwidth (narrow_number hwidth bits' i)
  intro j hj
  rw [getLsbD_number hwidth, decide_eq_true hj, Bool.true_and, hbits j hj]

/-- A whole field ends within the bits. -/
theorem field_le (hi : i < n / width) : i * width + width ≤ n := by
  rw [← Nat.succ_mul]
  exact Nat.le_trans (Nat.mul_le_mul_right width hi) (Nat.div_mul_le_self n width)

/-- Fields have no bit in common. -/
theorem not_mem_field {j : Nat} (hj : j < width) (hne : k ≠ i) :
    ¬(i * width ≤ k * width + j ∧ k * width + j < i * width + width) := by
  rcases Nat.lt_or_gt_of_ne hne with hbefore | hafter
  · have hend : k * width + width ≤ i * width := by
      rw [← Nat.succ_mul]
      exact Nat.mul_le_mul_right width hbefore
    omega
  · have hend : i * width + width ≤ k * width := by
      rw [← Nat.succ_mul]
      exact Nat.mul_le_mul_right width hafter
    omega

/-- Bits with another number in one field. -/
theorem numbers_rewritten (hwidth : width ≤ 64) (hnarrow : Word.Narrow width value)
    (hi : i < bits.length / width) :
    numbers width (rewritten (i * width) (i * width + width) (fun j _ => value.getLsbD j) bits) =
      (numbers width bits).set i value := by
  symm
  apply eq_numbers
  · rw [List.length_set, length_numbers, length_rewritten]
  · intro k hk
    rw [List.length_set, length_numbers] at hk
    have hend := field_le hi
    by_cases hne : k = i
    · subst hne
      rw [List.getElem?_set_self (by rwa [length_numbers])]
      refine congrArg some (eq_number hwidth hnarrow fun j hj => ?_)
      rw [getElem?_rewritten, List.getElem?_eq_getElem (by omega), Option.map_some,
        if_pos (by omega), Option.getD_some, Nat.add_sub_cancel_left]
    · rw [List.getElem?_set_ne (Ne.symm hne), getElem?_numbers hk]
      refine congrArg some (number_congr hwidth fun j hj => ?_).symm
      rw [getElem?_rewritten]
      simp only [if_neg (not_mem_field hj hne), Option.map_id']

/-- The bits of the first `n` fields. -/
theorem numbers_resized (hpos : 0 < width) (hwidth : width ≤ 64) (hn : n ≤ bits.length / width) :
    numbers width (resized (n * width) false bits) = (numbers width bits).take n := by
  symm
  apply eq_numbers
  · rw [List.length_take, length_numbers, Nat.min_eq_left hn, length_resized,
      Nat.mul_div_cancel n hpos]
  · intro k hk
    rw [List.length_take, length_numbers, Nat.min_eq_left hn] at hk
    rw [List.getElem?_take, if_pos hk, getElem?_numbers (Nat.lt_of_lt_of_le hk hn)]
    refine congrArg some (number_congr hwidth fun j hj => ?_).symm
    have hfield : k * width + width ≤ n * width := by
      rw [← Nat.succ_mul]
      exact Nat.mul_le_mul_right width hk
    have hend := field_le (Nat.lt_of_lt_of_le hk hn)
    rw [getElem?_resized, if_pos (by omega), List.getElem?_eq_getElem (by omega),
      Option.getD_some]

/-- Whole fields with one more behind them. -/
theorem numbers_append (hpos : 0 < width) (hwidth : width ≤ 64)
    (hnarrow : Word.Narrow width value) (hlength : bits.length = n * width) :
    numbers width (bits ++ (List.range width).map value.getLsbD) =
      numbers width bits ++ [value] := by
  have hwhole : bits.length / width = n := by rw [hlength, Nat.mul_div_cancel n hpos]
  have hmore : (bits ++ (List.range width).map value.getLsbD).length / width = n + 1 := by
    rw [List.length_append, List.length_map, List.length_range, hlength, ← Nat.succ_mul,
      Nat.mul_div_cancel _ hpos]
  symm
  apply eq_numbers
  · rw [List.length_append, length_numbers, hwhole, hmore, List.length_singleton]
  · intro k hk
    rw [List.length_append, length_numbers, hwhole, List.length_singleton] at hk
    rcases Nat.lt_succ_iff_lt_or_eq.mp hk with hbefore | rfl
    · rw [List.getElem?_append_left (by rwa [length_numbers, hwhole]),
        getElem?_numbers (hwhole.symm ▸ hbefore)]
      refine congrArg some (number_congr hwidth fun j hj => ?_).symm
      have hend := field_le (hwhole.symm ▸ hbefore)
      rw [List.getElem?_append_left (by omega)]
    · rw [List.getElem?_append_right (by rw [length_numbers, hwhole]), length_numbers, hwhole,
        Nat.sub_self]
      refine congrArg some (eq_number hwidth hnarrow fun j hj => ?_)
      rw [List.getElem?_append_right (by omega), hlength, Nat.add_sub_cancel_left,
        List.getElem?_map, List.getElem?_range hj]
      rfl

end

namespace FieldList

/-! ## Reading -/

section

variable {V : Type} [Bits V] {l : FieldList V} {bits : List Bool} {i : Nat}

theorem size_eq (h : (Bits.source l.backing).Reads bits) :
    l.size = (numbers l.width bits).length := by
  have hlength : Bits.length l.backing = bits.length := h.length_eq
  rw [size, hlength, length_numbers]

/-- The window of a field is its number. -/
theorem field_eq (h : (Bits.source l.backing).Reads bits) (hwidth : l.width ≤ 64) {x : Word}
    (hx : (numbers l.width bits)[i]? = some x) : l.field i = .ok x := by
  have hi : i < bits.length / l.width := by
    have hlt := (List.getElem?_eq_some_iff.mp hx).1
    rwa [length_numbers] at hlt
  rw [getElem?_numbers hi] at hx
  cases hx
  obtain ⟨w, hread, hw⟩ := h.window_eq (i * l.width) (i * l.width + l.width)
    (Nat.le_add_right _ _) (field_le hi) (by omega)
  rw [Nat.add_sub_cancel_left] at hw
  have hnumber : w = number l.width bits i := by
    apply eq_number hwidth
    · intro j hj
      rw [hw, decide_eq_false (Nat.not_lt.mpr hj), Bool.false_and]
    · intro j hj
      rw [hw, decide_eq_true hj, Bool.true_and]
  exact hnumber ▸ hread

theorem get?_eq (h : (Bits.source l.backing).Reads bits) (hwidth : l.width ≤ 64) (i : Nat) :
    l.get? i = .ok (numbers l.width bits)[i]? := by
  rw [get?, size_eq h]
  split
  · rename_i hi
    have hx := List.getElem?_eq_getElem hi
    rw [bind_of_ok (field_eq h hwidth hx), hx]
    rfl
  · rename_i hpast
    rw [List.getElem?_eq_none (Nat.le_of_not_lt hpast)]
    rfl

theorem toArray_eq (h : (Bits.source l.backing).Reads bits) (hwidth : l.width ≤ 64) :
    l.toArray = .ok (numbers l.width bits).toArray := by
  rw [toArray, walk, size_eq h]
  exact Walk.toArray_next fun _ _ => field_eq h hwidth

theorem reversed_eq (h : (Bits.source l.backing).Reads bits) (hwidth : l.width ≤ 64) :
    Walk.toArray (Walk.nextBack l.field) l.walk =
      .ok (numbers l.width bits).reverse.toArray := by
  rw [walk, size_eq h]
  exact Walk.toArray_nextBack fun _ _ => field_eq h hwidth

end

/-! ## Editing -/

section

variable {V : Type} [ResizableBits V] {holds : V → List Bool → Prop} {l : FieldList V}
  {bits : List Bool} {i : Nat} {value : Word}

/-- A number out of range is not replaced. -/
theorem set_error_index (h : (Bits.source l.backing).Reads bits)
    (hpast : (numbers l.width bits).length ≤ i) :
    set i value l = .error (.indexOutOfBounds i (numbers l.width bits).length) l := by
  have hcheck : checkIndex i l.size =
      .error (.indexOutOfBounds i (numbers l.width bits).length) := by
    rw [size_eq h]
    exact if_neg (Nat.not_lt.mpr hpast)
  exact Edit.inspect_bind_error hcheck

theorem checkValue_eq_error {width : Nat} (hwide : ¬Word.Narrow width value) :
    checkValue value width = .error (.valueTooWide value width) := by
  rw [← checkValue_eq_ok_iff, checkValue, require_eq_ok_iff] at hwide
  exact if_neg hwide

/-- A number that is too wide replaces none. -/
theorem set_error_value (h : (Bits.source l.backing).Reads bits)
    (hi : i < (numbers l.width bits).length) (hwide : ¬Word.Narrow l.width value) :
    set i value l = .error (.valueTooWide value l.width) l := by
  have hcheck : checkIndex i l.size = .ok () := require_eq_ok_iff.mpr (size_eq h ▸ hi)
  rw [set]
  refine Eq.trans (Edit.inspect_bind_ok hcheck) ?_
  rw [Edit.view_bind]
  exact Edit.bind_error (Edit.liftM_error (checkValue_eq_error hwide))

/-- A number takes the place of another. -/
theorem set_eq (h : Lawful holds) (hl : holds l.backing bits) (hwidth : l.width ≤ 64)
    (hnarrow : Word.Narrow l.width value) {old : Word}
    (hold : (numbers l.width bits)[i]? = some old) :
    ∃ w, set i value l = .ok old ⟨w, l.width⟩ ∧
      holds w (rewritten (i * l.width) (i * l.width + l.width) (fun j _ => value.getLsbD j)
        bits) := by
  have hreads := h.reads hl
  have hi : i < (numbers l.width bits).length := (List.getElem?_eq_some_iff.mp hold).1
  have hcheck : checkIndex i l.size = .ok () := require_eq_ok_iff.mpr (size_eq hreads ▸ hi)
  have hend := field_le (length_numbers ▸ hi)
  obtain ⟨w, hrun, hw⟩ := (h.setBits (i * l.width) l.width value).exists_ok hl
    (Plan.setBits_of_narrow hend hwidth hnarrow)
  refine ⟨w, ?_, hw⟩
  rw [set]
  refine Eq.trans (Edit.inspect_bind_ok hcheck) ?_
  rw [Edit.view_bind, Edit.bind_ok (Edit.liftM_ok (checkValue_eq_ok_iff.mpr hnarrow))]
  refine Eq.trans (Edit.inspect_bind_ok (field_eq hreads hwidth hold)) ?_
  rw [Edit.bind_ok ((editsPiece_onBacking _ l).ok hrun)]
  rfl

theorem editsPiece_resize (memory : Allocator) (n : Nat) (l : FieldList V) :
    (resize memory n).EditsPiece l (setFields memory n l.width) l.backing
      fun backing => ⟨backing, l.width⟩ :=
  Edit.editsPiece_congr (Edit.view_bind _) (editsPiece_onBacking _ l)

/-- A vector has the bits of `n` numbers, unless there is no memory or no number for them. -/
theorem yields_setFields (h : Lawful holds) {v : V} (hv : holds v bits)
    (memory : Allocator) (n width : Nat) :
    (setFields memory n width).Yields v (fun _ w => holds w (resized (n * width) false bits))
      fun failure _ => failure.isRefusal = true := by
  refine Edit.yields_liftM_bind (fun m hm => ?_) fun _ hproduct => times_eq_error hproduct ▸ rfl
  rw [times_eq_ok hm]
  exact ((h.setLength memory (n * width)).yields hv rfl).mono (fun _ _ hpost => hpost.2)
    fun _ _ hfailed => hfailed.1

/-- A number that is too wide is not put at the end. -/
theorem push_error (memory : Allocator) (hwide : ¬Word.Narrow l.width value) :
    push memory value l = .error (.valueTooWide value l.width) l := by
  rw [push, Edit.view_bind]
  exact Edit.bind_error (Edit.liftM_error (checkValue_eq_error hwide))

/-- A number is put where the whole fields end. -/
theorem editsPiece_push (memory : Allocator) (hnarrow : Word.Narrow l.width value) :
    (push memory value).EditsPiece l
      (do
        setFields memory l.size l.width
        ResizableBits.appendBits memory value l.width) l.backing
      fun backing => ⟨backing, l.width⟩ := by
  have hcheck := checkValue_eq_ok_iff.mpr hnarrow
  refine Edit.editsPiece_congr
    ((Edit.view_bind _).trans (Edit.bind_ok (Edit.liftM_ok hcheck))) ?_
  exact (editsPiece_resize memory l.size l).bind fun _ w => editsPiece_onBacking _ _

/-- The last number is cut off with all that follows it. -/
theorem editsPiece_pop (memory : Allocator) (hsize : l.size ≠ 0) {last : Word}
    (hlast : l.field (l.size - 1) = .ok last) :
    (pop memory).EditsPiece l
      (do
        setFields memory (l.size - 1) l.width
        return some last) l.backing
      fun backing => ⟨backing, l.width⟩ := by
  have hrun : pop memory l = (do
      resize memory (l.size - 1)
      return some last : Edit (FieldList V) (Option Word)) l := by
    rw [pop, Edit.view_bind, if_neg hsize]
    exact Edit.inspect_bind_ok hlast
  refine Edit.editsPiece_congr hrun ?_
  exact (editsPiece_resize memory (l.size - 1) l).bind fun _ w => Edit.editsPiece_pure rfl

theorem yields_push (h : Lawful holds) (hl : holds l.backing bits) (hwidth : l.width ≤ 64)
    (memory : Allocator) (hnarrow : Word.Narrow l.width value) :
    (push memory value).Yields l
      (fun _ t => holds t.backing (resized (bits.length / l.width * l.width) false bits ++
        (List.range l.width).map value.getLsbD))
      fun failure _ => failure.isRefusal = true := by
  apply (editsPiece_push memory hnarrow).yields
  rw [size_eq (h.reads hl), length_numbers]
  refine (yields_setFields h hl memory (bits.length / l.width) l.width).bind fun _ w hw => ?_
  exact ((h.appendBits memory value l.width).yields hw (Plan.appendBits_of_le value hwidth)).mono
    (fun _ _ hpost => hpost.2) fun _ _ hfailed => hfailed.1

theorem yields_pop (h : Lawful holds) (hl : holds l.backing bits) (hwidth : l.width ≤ 64)
    (memory : Allocator) {last : Word} (hlast : (numbers l.width bits).getLast? = some last) :
    (pop memory).Yields l
      (fun given t => given = some last ∧
        holds t.backing (resized ((bits.length / l.width - 1) * l.width) false bits))
      fun failure _ => failure.isRefusal = true := by
  have hreads := h.reads hl
  have hsize : l.size = bits.length / l.width := (size_eq hreads).trans length_numbers
  rw [List.getLast?_eq_getElem?, length_numbers] at hlast
  have hlt := (List.getElem?_eq_some_iff.mp hlast).1
  rw [length_numbers] at hlt
  apply (editsPiece_pop memory (by omega) (hsize ▸ field_eq hreads hwidth hlast)).yields
  rw [hsize]
  exact (yields_setFields h hl memory _ _).bind fun _ w hw => Edit.yields_pure ⟨rfl, hw⟩

theorem pop_none (memory : Allocator) (hsize : l.size = 0) : pop memory l = .ok none l := by
  rw [pop, Edit.view_bind, if_pos hsize]
  rfl

end

end FieldList

/-! ## Lists over vectors and parts -/

section

variable {V : Type} [ResizableBits V] {v : V} {bits : List Bool} {around : Surroundings}
  {width : Nat}

open FieldList

/-- A number that fits takes the place of another, and no other bit changes. -/
theorem Nested.set_number (hv : Nested v bits around) (hpos : 0 < width) (hwidth : width ≤ 64)
    {i : Nat} {x old : Word} (hx : x.toNat < 2 ^ width)
    (hold : (numbers width bits)[i]? = some old) :
    ∃ v' bits', within width (FieldList.set i x) v = .ok old v' ∧ Nested v' bits' around ∧
      bits'.length = bits.length ∧ numbers width bits' = (numbers width bits).set i x ∧
      ∀ p : Nat, ¬(i * width ≤ p ∧ p < i * width + width) → bits'[p]? = bits[p]? := by
  obtain ⟨holds, hlawful, hheld, hnested⟩ := hv.exists_lawful
  have hcheck : checkWidth width = .ok () := require_eq_ok_iff.mpr ⟨hpos, hwidth⟩
  have hnarrow := Word.narrow_iff.mpr hx
  have hi : i < bits.length / width := length_numbers ▸ (List.getElem?_eq_some_iff.mp hold).1
  have hl : holds (FieldList.mk v width).backing bits := hheld
  obtain ⟨w, hrun, hw⟩ := set_eq hlawful hl hwidth hnarrow hold
  refine ⟨w, _, (editsPiece_within _ hcheck v).ok hrun, hnested w _ hw, length_rewritten ..,
    numbers_rewritten hwidth hnarrow hi, ?_⟩
  intro p hout
  rw [getElem?_rewritten]
  simp only [if_neg hout, Option.map_id']

/-- A number that fits is put behind the whole fields, in place of what is left
there. -/
theorem Nested.push_number (hv : Nested v bits around) (hpos : 0 < width) (hwidth : width ≤ 64)
    (memory : Allocator) {x : Word} (hx : x.toNat < 2 ^ width)
    (hgranted : ¬(within width (push memory x)).Refused v) :
    ∃ v' bits', within width (push memory x) v = .ok () v' ∧ Nested v' bits' around ∧
      bits'.length = ((numbers width bits).length + 1) * width ∧
      numbers width bits' = numbers width bits ++ [x] := by
  obtain ⟨holds, hlawful, hheld, hnested⟩ := hv.exists_lawful
  have hcheck : checkWidth width = .ok () := require_eq_ok_iff.mpr ⟨hpos, hwidth⟩
  have hnarrow := Word.narrow_iff.mpr hx
  have hl : holds (FieldList.mk v width).backing bits := hheld
  have hyields : (within width (push memory x)).Yields v
      (fun _ w => holds w (resized (bits.length / width * width) false bits ++
        (List.range width).map x.getLsbD)) fun failure _ => failure.isRefusal = true :=
    (editsPiece_within _ hcheck v).yields (yields_push hlawful hl hwidth memory hnarrow)
  obtain ⟨_, w, hrun, hw⟩ := hyields.exists_ok_of_not_refused hgranted
  refine ⟨w, _, hrun, hnested w _ hw, ?_, ?_⟩
  · rw [List.length_append, length_resized, List.length_map, List.length_range, length_numbers,
      Nat.succ_mul]
  · rw [numbers_append hpos hwidth hnarrow (length_resized ..),
      numbers_resized hpos hwidth (Nat.le_refl _), ← length_numbers, List.take_length]

/-- The last number is taken off the end, and what followed it goes with it. -/
theorem Nested.pop_number (hv : Nested v bits around) (hpos : 0 < width) (hwidth : width ≤ 64)
    (memory : Allocator) {last : Word} (hlast : (numbers width bits).getLast? = some last)
    (hgranted : ¬(within width (pop memory)).Refused v) :
    ∃ v' bits', within width (pop memory) v = .ok (some last) v' ∧ Nested v' bits' around ∧
      bits'.length = ((numbers width bits).length - 1) * width ∧
      numbers width bits' = (numbers width bits).dropLast := by
  obtain ⟨holds, hlawful, hheld, hnested⟩ := hv.exists_lawful
  have hcheck : checkWidth width = .ok () := require_eq_ok_iff.mpr ⟨hpos, hwidth⟩
  have hl : holds (FieldList.mk v width).backing bits := hheld
  have hyields : (within width (pop memory)).Yields v
      (fun given w => given = some last ∧
        holds w (resized ((bits.length / width - 1) * width) false bits))
      fun failure _ => failure.isRefusal = true :=
    (editsPiece_within _ hcheck v).yields (yields_pop hlawful hl hwidth memory hlast)
  obtain ⟨_, w, hrun, rfl, hw⟩ := hyields.exists_ok_of_not_refused hgranted
  refine ⟨w, _, hrun, hnested w _ hw, ?_, ?_⟩
  · rw [length_resized, length_numbers]
  · rw [numbers_resized hpos hwidth (Nat.sub_le _ _), List.dropLast_eq_take, length_numbers]

/-- A vector, or a part at any depth, read as numbers of one width is the list of
its whole fields. A number that is replaced changes its field alone; one that is
put at the end or taken off it leaves no bits after the last field; and a number
that does not fit, or that there is none of, changes nothing. -/
theorem Nested.list_of_numbers (hv : Nested v bits around) (hpos : 0 < width)
    (hwidth : width ≤ 64) :
    let l : FieldList V := ⟨v, width⟩
    let list := numbers width bits
    FieldList.of v width = .ok l ∧ l.size = list.length ∧ (∀ i, l.get? i = .ok list[i]?) ∧
      l.toArray = .ok list.toArray ∧
      Walk.toArray (Walk.nextBack l.field) l.walk = .ok list.reverse.toArray ∧
      (∀ i x, list.length ≤ i →
        within width (FieldList.set i x) v = .error (.indexOutOfBounds i list.length) v) ∧
      (∀ i x, i < list.length → 2 ^ width ≤ x.toNat →
        within width (FieldList.set i x) v = .error (.valueTooWide x width) v) ∧
      (∀ i x old, x.toNat < 2 ^ width → list[i]? = some old →
        ∃ v' bits', within width (FieldList.set i x) v = .ok old v' ∧ Nested v' bits' around ∧
          bits'.length = bits.length ∧ numbers width bits' = list.set i x ∧
          ∀ p : Nat, ¬(i * width ≤ p ∧ p < i * width + width) → bits'[p]? = bits[p]?) ∧
      ∀ memory,
        (∀ x, 2 ^ width ≤ x.toNat →
          within width (push memory x) v = .error (.valueTooWide x width) v) ∧
        (∀ x, x.toNat < 2 ^ width → ¬(within width (push memory x)).Refused v →
          ∃ v' bits', within width (push memory x) v = .ok () v' ∧ Nested v' bits' around ∧
            bits'.length = (list.length + 1) * width ∧ numbers width bits' = list ++ [x]) ∧
        (list = [] → within width (pop memory) v = .ok none v) ∧
        ∀ last, list.getLast? = some last → ¬(within width (pop memory)).Refused v →
          ∃ v' bits', within width (pop memory) v = .ok (some last) v' ∧
            Nested v' bits' around ∧ bits'.length = (list.length - 1) * width ∧
            numbers width bits' = list.dropLast := by
  intro l list
  obtain ⟨holds, hlawful, hheld, -⟩ := hv.exists_lawful
  have hcheck : checkWidth width = .ok () := require_eq_ok_iff.mpr ⟨hpos, hwidth⟩
  have hreads : (Bits.source l.backing).Reads bits := hlawful.reads hheld
  have hwide : ∀ {x : Word}, 2 ^ width ≤ x.toNat → ¬Word.Narrow l.width x :=
    fun hx hnarrow => Nat.not_lt.mpr hx (Word.narrow_iff.mp hnarrow)
  refine ⟨bind_of_ok hcheck, size_eq hreads, get?_eq hreads hwidth,
    FieldList.toArray_eq hreads hwidth, reversed_eq hreads hwidth, ?_, ?_, ?_,
    fun memory => ⟨?_, ?_, ?_, ?_⟩⟩
  · exact fun i x hi => (editsPiece_within _ hcheck v).error (set_error_index hreads hi)
  · intro i x hi hx
    exact (editsPiece_within _ hcheck v).error (set_error_value hreads hi (hwide hx))
  · exact fun i x old hx hold => hv.set_number hpos hwidth hx hold
  · exact fun x hx => (editsPiece_within _ hcheck v).error (push_error memory (hwide hx))
  · exact fun x hx hgranted => hv.push_number hpos hwidth memory hx hgranted
  · intro hnil
    have hsize : l.size = 0 := by rw [size_eq hreads, show numbers l.width bits = [] from hnil]; rfl
    exact (editsPiece_within _ hcheck v).ok (pop_none memory hsize)
  · exact fun last hlast hgranted => hv.pop_number hpos hwidth memory hlast hgranted

/-- Three numbers of three bits each, and a bit that is left, in a part of ten
bits on a seam of words in segments. -/
theorem Nested.list_of_numbers_over_a_seam :
    let filled : Script := .andThen (.change .unlimited (.setLength 74) trivial) <|
      .andThen (.change .unlimited .flipAll trivial) <|
      .change .unlimited (.set 64 false) trivial
    let ground : WordVec (StoreKind.segmented 0).Store := filled.run.after WordVec.empty
    let v : Part (WordVec (StoreKind.segmented 0).Store) := ⟨ground, 62, 72⟩
    let bits := [true, true, false, true, true, true, true, true, true, true]
    let around : Surroundings := [(List.replicate 62 true, [true, true])]
    Nested v bits around ∧ (FieldList.mk v 3).toArray = .ok #[3#64, 7#64, 7#64] ∧
      within 3 (FieldList.set 1 8#64) v = .error (.valueTooWide 8#64 3) v ∧
      (∃ v' bits', within 3 (push .unlimited 5#64) v = .ok () v' ∧ Nested v' bits' around ∧
        bits'.length = 12 ∧ numbers 3 bits' = [3#64, 7#64, 7#64, 5#64]) ∧
      ∃ v' bits', within 3 (pop .unlimited) v = .ok (some 7#64) v' ∧ Nested v' bits' around ∧
        bits'.length = 6 ∧ numbers 3 bits' = [3#64, 7#64] := by
  intro filled ground v bits around
  have hbits : Bits.toArray ground =
      .ok (List.replicate 62 true ++ bits ++ [true, true]).toArray := by decide +kernel
  have hground : Nested ground (List.replicate 62 true ++ bits ++ [true, true]) [] :=
    .words (.segmented 0) (.script filled .empty) hbits
  have hv : Nested v bits around := .part hground
  have hnumbers : numbers 3 bits = [3#64, 7#64, 7#64] := by decide
  have hpush : ¬(within 3 (push .unlimited 5#64)).Refused v := by decide +kernel
  have hpop : ¬(within 3 (pop .unlimited)).Refused v := by decide +kernel
  obtain ⟨-, -, -, harray, -, -, hwide, -, hends⟩ :=
    Nested.list_of_numbers hv (show 0 < 3 by decide) (show 3 ≤ 64 by decide)
  obtain ⟨-, hmore, -, hless⟩ := hends .unlimited
  rw [hnumbers] at harray hwide hmore hless
  exact ⟨hv, harray, hwide 1 8#64 (by decide) (by decide), hmore 5#64 (by decide) hpush,
    hless 7#64 rfl hpop⟩

end

end PackedBits
