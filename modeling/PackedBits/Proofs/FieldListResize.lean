import Mathlib.Algebra.Group.Nat.Defs
import PackedBits.Proofs.FieldListLaw

/-!
# The length of a list of numbers

Bits past the last whole field belong to no number, but they stay where they are
when a list gets another length. So a list that grows goes on with the number that
they begin, its missing bits zeros, and with zeros from there on; only where they
are all zeros are the new numbers all zero. `Nested.resize_numbers` says so of a
vector and of a part at any depth.
-/

namespace PackedBits

/-! ## Bits that make no whole number -/

/-- The bits past the last whole field. -/
def leftover (width : Nat) (bits : List Bool) : List Bool :=
  bits.drop (bits.length / width * width)

/-- The number that the bits past the last whole field begin. -/
def remainder (width : Nat) (bits : List Bool) : Word :=
  number width bits (bits.length / width)

section

variable {width n i k : Nat} {bits : List Bool}

/-- A field past the end has no ones. -/
theorem number_past (hwidth : width ≤ 64) (hpast : bits.length ≤ k * width) :
    number width bits k = 0#64 := by
  symm
  apply eq_number hwidth
  · exact fun _ _ => BitVec.getLsbD_zero
  · intro j _
    rw [List.getElem?_eq_none (by omega), Option.getD_none, BitVec.getLsbD_zero]

/-- A field within the new length has the bits that it had, and zeros where there were none. -/
theorem number_resized (hwidth : width ≤ 64) (hk : k < n) :
    number width (resized (n * width) false bits) k = number width bits k := by
  apply eq_number hwidth (narrow_number hwidth _ k)
  intro j hj
  have hfield : k * width + width ≤ n * width := by
    rw [← Nat.succ_mul]
    exact Nat.mul_le_mul_right width hk
  rw [getLsbD_number hwidth, getD_resized, decide_eq_true hj, Bool.true_and,
    decide_eq_true (show k * width + j < n * width by omega), Bool.true_and]

/-- The bits past the last whole field are fewer than a field. -/
theorem length_le_succ_mul (hpos : 0 < width) (hk : bits.length / width < k) :
    bits.length ≤ k * width := by
  have hdiv := Nat.lt_mul_div_succ bits.length hpos
  have hmul : (bits.length / width + 1) * width ≤ k * width := Nat.mul_le_mul_right width hk
  rw [Nat.mul_comm] at hdiv
  omega

/-- The numbers of bits that are cut or padded to `n` fields are the numbers there
were, then the number that was begun, then zeros. -/
theorem numbers_resized_fields (hpos : 0 < width) (hwidth : width ≤ 64) (n : Nat)
    (bits : List Bool) :
    numbers width (resized (n * width) false bits) =
      resized n 0#64 (numbers width bits ++ [remainder width bits]) := by
  symm
  apply eq_numbers
  · rw [length_resized, length_resized, Nat.mul_div_cancel n hpos]
  · intro k hk
    rw [length_resized] at hk
    rw [getElem?_resized, if_pos hk, number_resized hwidth hk]
    rcases Nat.lt_trichotomy k (bits.length / width) with hold | rfl | hnew
    · rw [List.getElem?_append_left (by rwa [length_numbers]), getElem?_numbers hold,
        Option.getD_some]
    · rw [List.getElem?_append_right (by rw [length_numbers]), length_numbers, Nat.sub_self]
      rfl
    · have hnone : (numbers width bits ++ [remainder width bits])[k]? = none := by
        apply List.getElem?_eq_none
        rwa [List.length_append, length_numbers, List.length_singleton]
      rw [hnone, Option.getD_none, number_past hwidth (length_le_succ_mul hpos hnew)]

theorem getElem?_leftover (j : Nat) :
    (leftover width bits)[j]? = bits[bits.length / width * width + j]? := by
  rw [leftover, List.getElem?_drop]

/-- The number that is begun is zero where no bit is left that is a one. -/
theorem remainder_eq_zero_iff (hpos : 0 < width) (hwidth : width ≤ 64) :
    remainder width bits = 0#64 ↔ true ∉ leftover width bits := by
  constructor
  · intro hzero hmem
    obtain ⟨j, hone⟩ := List.mem_iff_getElem?.mp hmem
    rw [getElem?_leftover] at hone
    have hend : bits.length ≤ (bits.length / width + 1) * width :=
      length_le_succ_mul hpos (Nat.lt_succ_self _)
    have hin : bits.length / width * width + j < bits.length :=
      (List.getElem?_eq_some_iff.mp hone).1
    rw [Nat.succ_mul] at hend
    have hbit := getLsbD_number hwidth bits (bits.length / width) j
    rw [show number width bits (bits.length / width) = 0#64 from hzero, hone,
      decide_eq_true (show j < width by omega), BitVec.getLsbD_zero] at hbit
    cases hbit
  · intro hnone
    symm
    apply eq_number hwidth
    · exact fun _ _ => BitVec.getLsbD_zero
    · intro j _
      rw [BitVec.getLsbD_zero, ← getElem?_leftover]
      rcases hfound : (leftover width bits)[j]? with _ | b
      · rfl
      · cases b with
        | false => rfl
        | true => exact absurd (List.mem_of_getElem? hfound) hnone

/-- A list that is cut, or begins no number, is resized as a list of numbers is. -/
theorem resized_append_eq_iff {list : List Word} {x : Word} :
    resized n 0#64 (list ++ [x]) = resized n 0#64 list ↔ n ≤ list.length ∨ x = 0#64 := by
  constructor
  · intro hsame
    rcases Nat.lt_or_ge list.length n with hlt | hle
    · refine .inr ?_
      have hplace := congrArg (fun items => items[list.length]?) hsame
      simp only [getElem?_resized, if_pos hlt, List.getElem?_append_right (Nat.le_refl _),
        Nat.sub_self, List.getElem?_cons_zero, Option.getD_some, List.getElem?_length,
        Option.getD_none, Option.some.injEq] at hplace
      exact hplace
    · exact .inl hle
  · intro hcase
    apply List.ext_getElem?
    intro i
    rw [getElem?_resized, getElem?_resized]
    split
    · rename_i hi
      rcases Nat.lt_trichotomy i list.length with hold | rfl | hnew
      · rw [List.getElem?_append_left hold]
      · rcases hcase with hle | rfl
        · omega
        · rw [List.getElem?_append_right (Nat.le_refl _), Nat.sub_self, List.getElem?_length]
          rfl
      · rw [List.getElem?_eq_none (by rw [List.length_append, List.length_singleton]; exact hnew),
          List.getElem?_eq_none (Nat.le_of_lt hnew)]
    · rfl

end

/-! ## Another length -/

section

variable {V : Type} [ResizableBits V] {v : V} {bits : List Bool} {around : Surroundings}
  {width : Nat}

open FieldList

/-- A list of numbers that is given the length `n` and the memory for it has `n`
numbers. Those there were stay; the first new one has the bits that were left past
the last number and is otherwise zero, and so are all that follow it. So all the new
numbers are zero just where there are none or no bit that was left is a one. -/
theorem Nested.resize_numbers (hv : Nested v bits around) (hpos : 0 < width)
    (hwidth : width ≤ 64) (memory : Allocator) (n : Nat)
    (hgranted : ¬(within width (FieldList.resize memory n)).Refused v) :
    let list := numbers width bits
    ∃ v' bits', within width (FieldList.resize memory n) v = .ok () v' ∧ Nested v' bits' around ∧
      bits'.length = n * width ∧
      (FieldList.mk v' width).toArray = .ok (numbers width bits').toArray ∧
      (numbers width bits').length = n ∧
      (∀ i, i < n → i < list.length → (numbers width bits')[i]? = list[i]?) ∧
      numbers width bits' = resized n 0#64 (list ++ [remainder width bits]) ∧
      (numbers width bits' = resized n 0#64 list ↔
        n ≤ list.length ∨ true ∉ leftover width bits) := by
  intro list
  obtain ⟨holds, hlawful, hheld, hnested⟩ := hv.exists_lawful
  have hcheck : checkWidth width = .ok () := require_eq_ok_iff.mpr ⟨hpos, hwidth⟩
  have hyields : (within width (FieldList.resize memory n)).Yields v
      (fun _ w => holds w (resized (n * width) false bits))
      fun failure _ => failure.isRefusal = true := by
    apply ((editsPiece_within _ hcheck v).trans (editsPiece_resize memory n ⟨v, width⟩)).yields
    exact yields_setFields hlawful hheld memory n width
  obtain ⟨_, w, hrun, hw⟩ := hyields.exists_ok_of_not_refused hgranted
  have hlist := numbers_resized_fields hpos hwidth n bits
  refine ⟨w, _, hrun, hnested w _ hw, length_resized .., ?_, ?_, ?_, hlist, ?_⟩
  · exact FieldList.toArray_eq (l := ⟨w, width⟩) (hlawful.reads hw) hwidth
  · rw [hlist, length_resized]
  · intro i hi hold
    rw [hlist, getElem?_resized, if_pos hi, List.getElem?_append_left hold,
      List.getElem?_eq_getElem hold, Option.getD_some]
  · rw [hlist, resized_append_eq_iff, remainder_eq_zero_iff hpos hwidth]

/-- Ten ones, three numbers of three bits and a bit that is left, in a part on a seam
of words in segments: the fourth of five numbers is a one. -/
theorem Nested.resize_numbers_over_a_seam :
    let filled : Script := .andThen (.change .unlimited (.setLength 74) trivial) <|
      .change .unlimited .flipAll trivial
    let ground : WordVec (StoreKind.segmented 0).Store := filled.run.after WordVec.empty
    let v : Part (WordVec (StoreKind.segmented 0).Store) := ⟨ground, 62, 72⟩
    let around : Surroundings := [(List.replicate 62 true, [true, true])]
    Nested v (List.replicate 10 true) around ∧
      ∃ v' bits', within 3 (FieldList.resize .unlimited 5) v = .ok () v' ∧
        Nested v' bits' around ∧ numbers 3 bits' = [7#64, 7#64, 7#64, 1#64, 0#64] := by
  intro filled ground v around
  have hbits : Bits.toArray ground =
      .ok (List.replicate 62 true ++ List.replicate 10 true ++ [true, true]).toArray := by
    decide +kernel
  have hground : Nested ground
      (List.replicate 62 true ++ List.replicate 10 true ++ [true, true]) [] :=
    .words (.segmented 0) (.script filled .empty) hbits
  have hv : Nested v (List.replicate 10 true) around := .part hground
  have hgranted : ¬(within 3 (FieldList.resize .unlimited 5)).Refused v := by decide +kernel
  obtain ⟨v', bits', hrun, hv', -, -, -, -, hlist, -⟩ :=
    Nested.resize_numbers hv (show 0 < 3 by decide) (show 3 ≤ 64 by decide) .unlimited 5 hgranted
  exact ⟨hv, v', bits', hrun, hv', hlist.trans (by decide)⟩

/-- Of the four bits 1001 as numbers of three bits, the second of two numbers is new
and a one. -/
theorem resize_numbers_exposes_leftover :
    let v : WordVec Flat := ⟨⟨Buffer.ofArray #[9#64]⟩, 4⟩
    let v' : WordVec Flat := ⟨⟨Buffer.ofArray #[9#64]⟩, 6⟩
    StoreKind.flat.Reached v ∧ (FieldList.mk v 3).size = 1 ∧
      within 3 (FieldList.resize .unlimited 2) v = .ok () v' ∧
      (FieldList.mk v' 3).size = 2 ∧ (FieldList.mk v' 3).get? 1 = .ok (some 1#64) := by
  intro v v'
  have hv : StoreKind.flat.Reached v := .ofWords #[9#64] 4 rfl
  have hbuild : (within 3 (FieldList.resize .unlimited 2)).build v = .ok v' := by decide +kernel
  refine ⟨hv, ?_, Edit.build_eq_ok.mp hbuild, ?_, ?_⟩ <;> decide +kernel

end

end PackedBits
