import Mathlib.Algebra.Group.Nat.Defs
import PackedBits.Proofs.FieldListLaw
import PackedBits.Proofs.Reach

/-!
# Fields and ranges written in place

A field may lie in two words and a range in many, with a part of the first, all of those
between and a part of the last. `WordVec.Rewrites` is what any of these writes leaves: the
bits of the range changed one by one, every bit around it and the zeros past the length as
they were. `StoreKind.field_written` and `StoreKind.range_filled_and_flipped` say so for
every vector that can be made: a field reads back as it was written, writes to fields with
no position in common may change places, and a range that is flipped twice has its words
back.
-/

namespace PackedBits

section Checks

variable {lo hi length : Nat}

/-- A window does not end past the end. -/
theorem checkWindow_past (h : length < hi) :
    checkWindow lo hi length = .error (.invalidRange lo hi length) := by
  have hrange : checkRange lo hi length = .error (.invalidRange lo hi length) :=
    if_neg fun hin => Nat.not_lt.mpr hin.2 h
  rw [checkWindow, hrange]
  rfl

/-- A range of more than 64 positions is no window. -/
theorem checkWindow_wide (hhi : hi ≤ length) (hwide : 64 < hi - lo) :
    checkWindow lo hi length = .error (.spanTooWide lo hi) := by
  have hrange : checkRange lo hi length = .ok () := require_eq_ok_iff.mpr ⟨by omega, hhi⟩
  rw [checkWindow, bind_of_ok hrange]
  exact if_neg (Nat.not_le.mpr hwide)

end Checks

/-- A value can be written into a field of a vector: the field of `width` bits at `lo` lies
within its `n` bits and within a word, and the value has no one past it. -/
structure Word.FitsField (value : Word) (n lo width : Nat) : Prop where
  stop_le : lo + width ≤ n
  width_le : width ≤ 64
  value_lt : value.toNat < 2 ^ width

namespace Plan

variable {bits : List Bool} {lo width : Nat} {value : Word}

theorem setBits_of_fits (h : value.FitsField bits.length lo width) :
    setBits lo width value bits =
      .ok ((), rewritten lo (lo + width) (fun k _ => value.getLsbD k) bits) :=
  setBits_of_narrow h.stop_le h.width_le (Word.narrow_iff.mpr h.value_lt)

theorem setBits_past (h : bits.length < lo + width) (value : Word) :
    setBits lo width value bits = .error (.invalidRange lo (lo + width) bits.length) := by
  rw [setBits, checkWindow_past h]
  rfl

theorem setBits_wide (hhi : lo + width ≤ bits.length) (hwide : 64 < width) (value : Word) :
    setBits lo width value bits = .error (.spanTooWide lo (lo + width)) := by
  rw [setBits, checkWindow_wide hhi (by omega)]
  rfl

theorem setBits_of_le_value (hhi : lo + width ≤ bits.length) (hwidth : width ≤ 64)
    (hvalue : 2 ^ width ≤ value.toNat) :
    setBits lo width value bits = .error (.valueTooWide value width) := by
  have hwindow : checkWindow lo (lo + width) bits.length = .ok () :=
    checkWindow_eq_ok_iff.mpr ⟨Nat.le_add_right lo width, hhi, by omega⟩
  have hwide : ¬Word.Narrow width value :=
    fun hnarrow => Nat.not_lt.mpr hvalue (Word.narrow_iff.mp hnarrow)
  rw [setBits, bind_of_ok hwindow, FieldList.checkValue_eq_error hwide]
  rfl

end Plan

namespace WordVec

variable {S : Type} [WordStore S] [LawfulStore S] {v w : WordVec S} {bits : List Bool}
  {lo hi width : Nat} {value : Word}

/-! ## What a write leaves -/

/-- Every bit from `lo` up to `hi` is changed by `g`, which is told its place in the range;
those around it, the length and the zeros past it stay. -/
structure Rewrites (v w : WordVec S) (lo hi : Nat) (g : Nat → Bool → Bool) : Prop where
  length_eq : w.length = v.length
  tidy : w.tidy
  bit_inside (i : Nat) : lo ≤ i → i < hi →
    ∃ old, v.bit i = .ok old ∧ w.bit i = .ok (g (i - lo) old)
  bit_outside (i : Nat) : i < lo ∨ hi ≤ i → w.bit i = v.bit i

theorem Holds.rewrites [LawfulFill S] {g : Nat → Bool → Bool} (h : v.Holds bits)
    (hhi : hi ≤ bits.length) (hw : w.Holds (rewritten lo hi g bits)) : v.Rewrites w lo hi g := by
  have hlength : w.length = v.length := by rw [hw.length_eq, length_rewritten, h.length_eq]
  refine ⟨hlength, hw.tidy, fun i hfrom hbelow => ?_, fun i houtside => ?_⟩
  · have hold := List.getElem?_eq_getElem (Nat.lt_of_lt_of_le hbelow hhi)
    exact ⟨bits[i], h.bit_eq hold, WordVec.lawful.bit_rewritten hw hfrom hbelow hold⟩
  · exact WordVec.lawful.bit_rewritten_outside h hw houtside

/-! ## Fields -/

/-- A field reads back as it was written. -/
theorem Holds.window_of_written (hfits : value.FitsField bits.length lo width)
    (hw : w.Holds (rewritten lo (lo + width) (fun k _ => value.getLsbD k) bits)) :
    w.window lo (lo + width) = .ok value := by
  have hhi := hfits.stop_le
  have hwidth := hfits.width_le
  obtain ⟨x, hread, hx⟩ := hw.reads.window_eq lo (lo + width) (Nat.le_add_right lo width)
    (by rwa [length_rewritten]) (by omega)
  have hsame : x = value := by
    apply BitVec.eq_of_getLsbD_eq
    intro j _
    rw [hx, Nat.add_sub_cancel_left, getElem?_rewritten]
    rcases Nat.lt_or_ge j width with hj | hpast
    · have hlt : lo + j < bits.length := by omega
      rw [decide_eq_true hj, Bool.true_and, List.getElem?_eq_getElem hlt, Option.map_some,
        if_pos ⟨Nat.le_add_right lo j, by omega⟩, Option.getD_some, Nat.add_sub_cancel_left]
    · rw [decide_eq_false (Nat.not_lt.mpr hpast), Bool.false_and,
        Word.narrow_iff.mpr hfits.value_lt j hpast]
  exact hsame ▸ hread

/-- Fields with no position in common are written in either order. -/
theorem Holds.fields_commute {lo' width' : Nat} {value' : Word} (h : v.Holds bits)
    (hfits : value.FitsField bits.length lo width)
    (hfits' : value'.FitsField bits.length lo' width')
    (hdisjoint : ∀ i, lo ≤ i → i < lo + width → ¬(lo' ≤ i ∧ i < lo' + width'))
    (hw : w.Holds (rewritten lo (lo + width) (fun k _ => value.getLsbD k) bits)) :
    ∃ w' x y, setBits lo' width' value' v = .ok () w' ∧ setBits lo' width' value' w = .ok () x ∧
      setBits lo width value w' = .ok () y ∧ x.SameWords y := by
  obtain ⟨w', hrun', hw'⟩ := (follows_setBits lo' width' value').exists_ok h
    (Plan.setBits_of_fits hfits')
  obtain ⟨x, hrunx, hx⟩ := (follows_setBits lo' width' value').exists_ok hw
    (Plan.setBits_of_fits (by rwa [length_rewritten]))
  obtain ⟨y, hruny, hy⟩ := (follows_setBits lo width value).exists_ok hw'
    (Plan.setBits_of_fits (by rwa [length_rewritten]))
  rw [rewritten_comm hdisjoint] at hx
  exact ⟨w', x, y, hrun', hrunx, hruny, hx.sameWords hy⟩

/-! ## Ranges -/

/-- A range is flipped back, and the words are as they were. -/
theorem Holds.flip_back (h : v.Holds bits) (hle : lo ≤ hi) (hhi : hi ≤ bits.length)
    (hw : w.Holds (rewritten lo hi (fun _ b => !b) bits)) :
    ∃ back, flipRange lo hi w = .ok () back ∧ v.SameWords back := by
  obtain ⟨back, hrun, hback⟩ := (follows_flipRange lo hi).exists_ok hw
    (Plan.flipRange_of_le hle (by rwa [length_rewritten]))
  rw [rewritten_twice, rewritten_eq_self fun _ b => Bool.not_not b] at hback
  exact ⟨back, hrun, h.sameWords hback⟩

end WordVec

namespace StoreKind

/-- A value that is written into a field of a vector that can be made is read back from it,
with every other bit and the length as they were, and a field elsewhere may be written
before or after it. A field past the end, one of more than 64 bits and a value that is too
wide for it are rejected, in this order, and nothing is changed. -/
theorem field_written {kind : StoreKind} {v : WordVec kind.Store} (hv : kind.Reached v)
    (lo width : Nat) (value : Word) :
    (value.FitsField v.length lo width →
      ∃ w, MutableBits.setBits lo width value v = .ok () w ∧ w.length = v.length ∧
        Bits.window w lo (lo + width) = .ok value ∧
        (∀ i, i < lo ∨ lo + width ≤ i → Bits.bit w i = Bits.bit v i) ∧
        ∀ lo' width' value', Word.FitsField value' v.length lo' width' →
          (∀ i, lo ≤ i → i < lo + width → ¬(lo' ≤ i ∧ i < lo' + width')) →
          ∃ w' x y, MutableBits.setBits lo' width' value' v = .ok () w' ∧
            MutableBits.setBits lo' width' value' w = .ok () x ∧
            MutableBits.setBits lo width value w' = .ok () y ∧ x.SameWords y) ∧
      (v.length < lo + width → MutableBits.setBits lo width value v =
        .error (.invalidRange lo (lo + width) v.length) v) ∧
      (lo + width ≤ v.length → 64 < width → MutableBits.setBits lo width value v =
        .error (.spanTooWide lo (lo + width)) v) ∧
      (lo + width ≤ v.length → width ≤ 64 → 2 ^ width ≤ value.toNat →
        MutableBits.setBits lo width value v = .error (.valueTooWide value width) v) := by
  obtain ⟨bits, hbits⟩ := hv.exists_bits
  have hfollows : Follows (WordVec.Holds : WordVec kind.Store → List Bool → Prop)
      (fun _ => False) (WordVec.setBits lo width value) (Plan.setBits lo width value) :=
    WordVec.follows_setBits lo width value
  rw [hbits.length_eq]
  refine ⟨fun hfits => ?_, fun hpast => ?_, fun hhi hwide => ?_, fun hhi hwidth hvalue => ?_⟩
  · obtain ⟨w, hrun, hw⟩ := hfollows.exists_ok hbits (Plan.setBits_of_fits hfits)
    have hrewrites := hbits.rewrites hfits.stop_le hw
    exact ⟨w, hrun, hrewrites.length_eq.trans hbits.length_eq, hw.window_of_written hfits,
      hrewrites.bit_outside, fun lo' width' value' hfits' hdisjoint =>
        hbits.fields_commute hfits hfits' hdisjoint hw⟩
  · exact hfollows.error hbits (Plan.setBits_past hpast value)
  · exact hfollows.error hbits (Plan.setBits_wide hhi hwide value)
  · exact hfollows.error hbits (Plan.setBits_of_le_value hhi hwidth hvalue)

/-- Seventy ones in segments of one word, a field of eight bits in two of them, and one of the
sixty before it. -/
theorem field_written_over_a_seam :
    let filled : Script := .andThen (.change .unlimited (.setLength 70) trivial) <|
      .change .unlimited .flipAll trivial
    let v : WordVec (segmented 0).Store := filled.run.after WordVec.empty
    (segmented 0).Reached v ∧
      (∃ w, MutableBits.setBits 60 8 0xA5#64 v = .ok () w ∧ w.length = 70 ∧
        Bits.window w 60 68 = .ok 0xA5#64 ∧ Bits.bit w 59 = .ok true ∧ Bits.bit w 68 = .ok true ∧
        ∃ w' x y, MutableBits.setBits 0 60 0x123#64 v = .ok () w' ∧
          MutableBits.setBits 0 60 0x123#64 w = .ok () x ∧
          MutableBits.setBits 60 8 0xA5#64 w' = .ok () y ∧ x.SameWords y) ∧
      MutableBits.setBits 66 5 0#64 v = .error (.invalidRange 66 71 70) v ∧
      MutableBits.setBits 0 65 0#64 v = .error (.spanTooWide 0 65) v ∧
      MutableBits.setBits 60 4 0x10#64 v = .error (.valueTooWide 0x10#64 4) v := by
  intro filled v
  have hv : (segmented 0).Reached v := .script filled .empty
  have hlength : v.length = 70 := by decide +kernel
  have hfits : Word.FitsField 0xA5#64 v.length 60 8 := ⟨by omega, by decide, by decide⟩
  have hfits' : Word.FitsField 0x123#64 v.length 0 60 := ⟨by omega, by decide, by decide⟩
  obtain ⟨hwritten, -⟩ := field_written hv 60 8 0xA5#64
  obtain ⟨w, hrun, hsame, hread, hframe, hcommute⟩ := hwritten hfits
  obtain ⟨-, hpast, -⟩ := field_written hv 66 5 0#64
  obtain ⟨-, -, hwide, -⟩ := field_written hv 0 65 0#64
  obtain ⟨-, -, -, hvalue⟩ := field_written hv 60 4 0x10#64
  have hbefore : Bits.bit v 59 = .ok true := by decide +kernel
  have hafter : Bits.bit v 68 = .ok true := by decide +kernel
  refine ⟨hv, ⟨w, hrun, hsame.trans hlength, hread, (hframe 59 (by decide)).trans hbefore,
    (hframe 68 (by decide)).trans hafter, hcommute 0 60 0x123#64 hfits' (by omega)⟩,
    hlength ▸ hpast (by omega), hwide (by omega) (by decide),
    hvalue (by omega) (by decide) (by decide)⟩

/-- In a vector that can be made, a range that is filled holds one bit and a range that is
flipped the other of each; the bits around it, the zeros past the length and the length
are as they were, and a range that is flipped again has its words back. -/
theorem range_filled_and_flipped {kind : StoreKind} {v : WordVec kind.Store}
    (hv : kind.Reached v) {lo hi : Nat} (hle : lo ≤ hi) (hhi : hi ≤ v.length) (b : Bool) :
    (∃ w, MutableBits.fillRange lo hi b v = .ok () w ∧ w.length = v.length ∧ w.tidy ∧
      (∀ i, lo ≤ i → i < hi → Bits.bit w i = .ok b) ∧
      ∀ i, i < lo ∨ hi ≤ i → Bits.bit w i = Bits.bit v i) ∧
    ∃ w, MutableBits.flipRange lo hi v = .ok () w ∧ w.length = v.length ∧ w.tidy ∧
      (∀ i, lo ≤ i → i < hi → ∃ old, Bits.bit v i = .ok old ∧ Bits.bit w i = .ok (!old)) ∧
      (∀ i, i < lo ∨ hi ≤ i → Bits.bit w i = Bits.bit v i) ∧
      ∃ back, MutableBits.flipRange lo hi w = .ok () back ∧ v.SameWords back := by
  obtain ⟨bits, hbits⟩ := hv.exists_bits
  rw [hbits.length_eq] at hhi
  obtain ⟨filled, hfill, hfilled⟩ := (WordVec.follows_fillRange lo hi b).exists_ok hbits
    (Plan.fillRange_of_le hle hhi b)
  obtain ⟨flipped, hflip, hflipped⟩ := (WordVec.follows_flipRange lo hi).exists_ok hbits
    (Plan.flipRange_of_le hle hhi)
  have hfills := hbits.rewrites hhi hfilled
  have hflips := hbits.rewrites hhi hflipped
  refine ⟨⟨filled, hfill, hfills.length_eq, hfills.tidy, fun i hfrom hbelow => ?_,
    hfills.bit_outside⟩, flipped, hflip, hflips.length_eq, hflips.tidy, hflips.bit_inside,
    hflips.bit_outside, hbits.flip_back hle hhi hflipped⟩
  obtain ⟨-, -, hb⟩ := hfills.bit_inside i hfrom hbelow
  exact hb

/-- Two hundred bits in segments of one word, of which four near the first seam are ones, and a
range from between these over two seams to the third. -/
theorem range_filled_and_flipped_over_seams :
    let written : Script := .andThen (.change .unlimited (.setLength 200) trivial) <|
      .change .unlimited (.setBits 60 8 0xA5#64) trivial
    let v : WordVec (segmented 0).Store := written.run.after WordVec.empty
    (segmented 0).Reached v ∧ 62 ≤ 192 ∧ 192 ≤ v.length ∧
      (∃ w, MutableBits.fillRange 62 192 true v = .ok () w ∧ w.length = v.length ∧ w.tidy ∧
        (∀ i, 62 ≤ i → i < 192 → Bits.bit w i = .ok true) ∧ Bits.bit w 61 = .ok false ∧
        Bits.bit w 192 = .ok false) ∧
      ∃ w, MutableBits.flipRange 62 192 v = .ok () w ∧ w.length = v.length ∧ w.tidy ∧
        (∃ old, Bits.bit v 62 = .ok old ∧ Bits.bit w 62 = .ok (!old)) ∧
        Bits.bit w 60 = .ok true ∧
        ∃ back, MutableBits.flipRange 62 192 w = .ok () back ∧ v.SameWords back := by
  intro written v
  have hv : (segmented 0).Reached v := .script written .empty
  have hle : 62 ≤ 192 := by decide
  have hhi : 192 ≤ v.length := by decide +kernel
  have hone : Bits.bit v 60 = .ok true := by decide +kernel
  have hbefore : Bits.bit v 61 = .ok false := by decide +kernel
  have hafter : Bits.bit v 192 = .ok false := by decide +kernel
  obtain ⟨⟨filled, hfill, hlength, htidy, hfilled, hframe⟩, flipped, hflip, hlength', htidy',
    hflipped, hframe', hback⟩ := range_filled_and_flipped hv hle hhi true
  exact ⟨hv, hle, hhi,
    ⟨filled, hfill, hlength, htidy, hfilled, (hframe 61 (by decide)).trans hbefore,
      (hframe 192 (by decide)).trans hafter⟩,
    flipped, hflip, hlength', htidy', hflipped 62 (by decide) (by decide),
    (hframe' 60 (by decide)).trans hone, hback⟩

end StoreKind

end PackedBits
