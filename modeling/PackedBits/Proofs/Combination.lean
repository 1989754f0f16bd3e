import PackedBits.Proofs.Nesting
import PackedBits.Proofs.Readable

/-!
# Bits combined with those of another vector

Two vectors are combined as far as both reach, and nothing stands for the bits that one of
them lacks. `Combined` says what that leaves, position by position. A vector in words is
combined a whole word at a time, with the word that the shorter of the two ends in cut by a
mask; a part is read and written back in windows that need not begin at a word, and what is
around it must not be touched. `Readable.combined` says that both leave what they should,
whatever the other vector is and wherever it ends.
-/

namespace PackedBits

/-- In `w` each bit of `v` is combined with the bit of `other` at the same position, if there
is one, and all else is as in `v`. -/
structure Combined {V W : Type} [Bits V] [Bits W] (op : Connective) (v : V) (other : W) (w : V) :
    Prop where
  length_eq : Bits.length w = Bits.length v
  bit_common (i : Nat) : i < min (Bits.length v) (Bits.length other) →
    ∃ a b, Bits.bit v i = .ok a ∧ Bits.bit other i = .ok b ∧ Bits.bit w i = .ok (op.onBits a b)
  bit_past (i : Nat) : min (Bits.length v) (Bits.length other) ≤ i → Bits.bit w i = Bits.bit v i

variable {V W : Type} [ResizableBits V] [Bits W] {holds : V → List Bool → Prop} {v : V} {other : W}
  {bits others front middle middle' back : List Bool} {around : Surroundings} {p q : Part V}
  {lo hi : Nat}

/-- A lawful vector is combined without fail. -/
theorem Lawful.exists_combined (h : Lawful holds) (hv : holds v bits)
    (hother : (Bits.source other).Reads others) (op : Connective) :
    ∃ w bits', MutableBits.combine op (Bits.source other) v = .ok () w ∧ holds w bits' ∧
      bits'.length = bits.length ∧ Combined op v other w := by
  obtain ⟨w, hrun, hw⟩ := (h.combine op hother).exists_ok hv rfl
  have hlength := h.length_eq hv
  have hother_length : Bits.length other = others.length := hother.length_eq
  refine ⟨w, _, hrun, hw, length_rewritten .., ?_, fun i hi => ?_, fun i hi => ?_⟩
  · rw [h.length_eq hw, length_rewritten, hlength]
  · rw [hlength, hother_length] at hi
    have ha := List.getElem?_eq_getElem (show i < bits.length by omega)
    have hb := List.getElem?_eq_getElem (show i < others.length by omega)
    refine ⟨_, _, h.bit_eq hv ha, hother.bit_eq hb, ?_⟩
    rw [h.bit_rewritten hw (Nat.zero_le i) hi ha, Nat.sub_zero, hb, Option.getD_some]
  · rw [hlength, hother_length] at hi
    exact h.bit_rewritten_outside hv hw (.inr hi)

/-- The bits around a part that keeps its length are those that were there. -/
theorem Part.Framed.bit_outside (h : Lawful holds) (hp : Framed holds front back p middle)
    (hq : Framed holds front back q middle') (hlength : middle'.length = middle.length) {i : Nat}
    (houtside : i < p.start ∨ p.stop ≤ i) : Bits.bit q.backing i = Bits.bit p.backing i := by
  rw [hp.start_eq, hp.stop_eq] at houtside
  refine h.bit_congr hp.holds_backing hq.holds_backing ?_ ?_
  · simp only [List.length_append, hlength]
  · rw [getElem?_framed, getElem?_framed, hlength]
    by_cases hbefore : i < front.length
    · rw [if_pos hbefore, if_pos hbefore]
    · have hafter : ¬i < front.length + middle.length := by omega
      rw [if_neg hbefore, if_neg hbefore, if_neg hafter, if_neg hafter]

/-- A part of a vector, or of a part, is combined without fail, and the bits around it stay at
every level. -/
theorem Nested.exists_combined (hv : Nested v bits around) (hof : Part.of v lo hi = .ok p)
    (hother : (Bits.source other).Reads others) (op : Connective) :
    ∃ q bits', MutableBits.combine op (Bits.source other) p = .ok () q ∧ q.start = lo ∧
      q.stop = hi ∧ Combined op p other q ∧ Nested q.backing bits' around ∧
      ∀ i, i < lo ∨ hi ≤ i → Bits.bit q.backing i = Bits.bit v i := by
  obtain ⟨holds, hlawful, hheld, hnested⟩ := hv.exists_lawful
  have hp := Part.framed_of hheld (hlawful.length_eq hheld) hof
  obtain ⟨_, -, hof⟩ := bind_eq_ok hof
  cases hof
  obtain ⟨q, middle', hrun, hq, hlength, hcombined⟩ :=
    (Part.lawful hlawful (bits.take lo) (bits.drop hi)).exists_combined hp hother op
  refine ⟨q, _, hrun, hq.start_eq.trans hp.start_eq.symm, ?_, hcombined,
    hnested _ _ hq.holds_backing, fun i houtside => hp.bit_outside hlawful hq hlength houtside⟩
  rw [hq.stop_eq, hlength, ← hp.stop_eq]

/-- Whatever is combined with a vector that can be made, or with a part of one to any depth,
the operation does not fail: the bits that both have are combined, those past the end of
either are as they were, and so are the lengths and the bits around the part. -/
theorem Readable.combined (hother : Readable other) (op : Connective) :
    (∀ (kind : StoreKind) (v : WordVec kind.Store), kind.Reached v →
      ∃ w, MutableBits.combine op (Bits.source other) v = .ok () w ∧ Combined op v other w) ∧
    ∀ {V : Type} [ResizableBits V] {v : V} {bits : List Bool} {around : Surroundings} {p : Part V}
      (lo hi : Nat), Nested v bits around → Part.of v lo hi = .ok p →
      ∃ q bits', MutableBits.combine op (Bits.source other) p = .ok () q ∧ q.start = lo ∧
        q.stop = hi ∧ Combined op p other q ∧ Nested q.backing bits' around ∧
        ∀ i, i < lo ∨ hi ≤ i → Bits.bit q.backing i = Bits.bit v i := by
  obtain ⟨others, hreads⟩ := hother.exists_reads
  refine ⟨fun kind v hv => ?_, fun lo hi hv hof => hv.exists_combined hof hreads op⟩
  obtain ⟨bits, hbits⟩ := hv.exists_bits
  obtain ⟨w, -, hrun, -, -, hcombined⟩ :=
    WordVec.lawful.exists_combined hbits hreads op
  exact ⟨w, hrun, hcombined⟩

/-- Seventy ones in segments of one word, a part of eight bits of them on both sides of the
seam, and a part of seven bits on both sides of another seam to combine both with. -/
theorem Readable.combined_over_a_seam :
    let filled : Script := .andThen (.change .unlimited (.setLength 70) trivial) <|
      .change .unlimited .flipAll trivial
    let v : WordVec (StoreKind.segmented 0).Store := filled.run.after WordVec.empty
    let p : Part (WordVec (StoreKind.segmented 0).Store) := ⟨v, 60, 68⟩
    let ground : WordVec StoreKind.flat.Store :=
      ⟨(⟨⟨#[0xA000000000000000#64, 0x15#64], 2⟩⟩ : Flat), 70⟩
    let other : Part (WordVec StoreKind.flat.Store) := ⟨ground, 60, 67⟩
    Readable other ∧ (StoreKind.segmented 0).Reached v ∧
      Nested v (List.replicate 70 true) [] ∧ Part.of v 60 68 = .ok p ∧
      (∃ w, MutableBits.combine .both (Bits.source other) v = .ok () w ∧
        Combined .both v other w ∧ Bits.bit w 7 = .ok true) ∧
      ∃ q bits', MutableBits.combine .both (Bits.source other) p = .ok () q ∧
        q.start = 60 ∧ q.stop = 68 ∧ Combined .both p other q ∧ Nested q.backing bits' [] ∧
        Bits.bit q.backing 59 = .ok true ∧ Bits.bit q.backing 68 = .ok true := by
  intro filled v p ground other
  have hground : Readable ground :=
    .words .flat (.ofWords #[0xA000000000000000#64, 0x15#64] 70 rfl)
  have hother : Readable other := .part 60 67 hground (Part.of_eq_ok (by decide) (by decide))
  have hv : (StoreKind.segmented 0).Reached v := .script filled .empty
  have hread : Bits.toArray v = .ok (List.replicate 70 true).toArray := by decide +kernel
  have hnested : Nested v (List.replicate 70 true) [] := .words (.segmented 0) hv hread
  have hof : Part.of v 60 68 = .ok p := Part.of_eq_ok (by decide) (by decide +kernel)
  have hbit : ∀ i ∈ [7, 59, 68], Bits.bit v i = .ok true := by decide +kernel
  have hcommon : min (Bits.length v) (Bits.length other) ≤ 7 := by decide +kernel
  obtain ⟨hwords, hparts⟩ := combined hother .both
  obtain ⟨w, hrun, hcombined⟩ := hwords (.segmented 0) v hv
  obtain ⟨q, bits', hrun', hstart, hstop, hcombined', hnested', hframe⟩ :=
    hparts 60 68 hnested hof
  exact ⟨hother, hv, hnested, hof,
    ⟨w, hrun, hcombined, (hcombined.bit_past 7 hcommon).trans (hbit 7 (by decide))⟩,
    q, bits', hrun', hstart, hstop, hcombined', hnested',
    (hframe 59 (by decide)).trans (hbit 59 (by decide)),
    (hframe 68 (by decide)).trans (hbit 68 (by decide))⟩

end PackedBits
