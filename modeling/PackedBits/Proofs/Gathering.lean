import Mathlib.Data.List.DropRight
import PackedBits.Proofs.Reach
import PackedBits.Proofs.WalkLaw

/-!
# Positions put into a vector

A vector that takes in positions grows whenever one of them lies past its end, and what a
growth exposes are zeros; so in the end it has the ones that it had and those at the
positions, and is as long as the last of them needs. `gathered` says which bits that makes,
and that they go with the positions that there are, not with the order in which they come
nor how often. `StoreKind.positions_gathered` says so of every vector of words, and that a
vector made of positions lists them in order, and one made of the ones of another is that
other up to its last one.
-/

namespace PackedBits

/-! ## Bits with more ones -/

/-- Bits with a one at `i`, with zeros before it where they are too short. -/
def raised (bits : List Bool) (i : Nat) : List Bool :=
  (resized (max bits.length (i + 1)) false bits).set i true

/-- Bits with a one at every position of a list. -/
def gathered (bits : List Bool) (positions : List Nat) : List Bool := positions.foldl raised bits

section

variable {bits bits' : List Bool} {positions positions' : List Nat} {i n q : Nat}

theorem length_raised : (raised bits i).length = max bits.length (i + 1) := by
  rw [raised, List.length_set, length_resized]

theorem getElem?_raised_eq_true_iff :
    (raised bits i)[q]? = some true ↔ bits[q]? = some true ∨ q = i := by
  rw [raised, List.getElem?_set, length_resized, getElem?_resized]
  by_cases hq : i = q
  · subst hq
    rw [if_pos rfl, if_pos (by omega)]
    exact iff_of_true rfl (.inr rfl)
  · rw [if_neg hq, or_iff_left (Ne.symm hq)]
    cases hbit : bits[q]? with
    | none => split <;> exact iff_of_false nofun nofun
    | some b =>
      have hlt := lt_length_of_getElem? hbit
      rw [if_pos (by omega), Option.getD_some]

/-- The ones are those there were and those at the positions. -/
theorem getElem?_gathered_eq_true_iff :
    (gathered bits positions)[q]? = some true ↔ bits[q]? = some true ∨ q ∈ positions := by
  induction positions generalizing bits with
  | nil => exact (or_iff_left List.not_mem_nil).symm
  | cons i positions ih =>
    rw [gathered, List.foldl_cons, ← gathered, ih, getElem?_raised_eq_true_iff, or_assoc,
      List.mem_cons]

/-- No bit is there that neither the bits nor a position need. -/
theorem length_gathered_le_iff :
    (gathered bits positions).length ≤ n ↔ bits.length ≤ n ∧ ∀ i ∈ positions, i < n := by
  induction positions generalizing bits with
  | nil => exact (and_iff_left nofun).symm
  | cons i positions ih =>
    rw [gathered, List.foldl_cons, ← gathered, ih, length_raised, List.forall_mem_cons, Nat.max_le,
      and_assoc]
    exact Iff.rfl

theorem length_gathered_of_max (h : positions.max? = some n) :
    (gathered bits positions).length = max bits.length (n + 1) := by
  obtain ⟨hmem, hlargest⟩ := List.max?_eq_some_iff.mp h
  apply Nat.le_antisymm
  · refine length_gathered_le_iff.mpr ⟨Nat.le_max_left _ _, fun i hi => ?_⟩
    exact Nat.lt_of_lt_of_le (Nat.lt_succ_of_le (hlargest i hi)) (Nat.le_max_right _ _)
  · obtain ⟨hlength, hpositions⟩ :=
      (@length_gathered_le_iff bits positions _).mp (Nat.le_refl _)
    exact Nat.max_le.mpr ⟨hlength, hpositions n hmem⟩

/-- Bits are known by how many there are and where the ones are. -/
theorem eq_of_ones_iff (hlength : ∀ n, bits.length ≤ n ↔ bits'.length ≤ n)
    (hones : ∀ q : Nat, bits[q]? = some true ↔ bits'[q]? = some true) : bits = bits' := by
  have hsame : bits.length = bits'.length :=
    Nat.le_antisymm ((hlength _).mpr (Nat.le_refl _)) ((hlength _).mp (Nat.le_refl _))
  refine List.ext_getElem hsame fun q hq hq' => Bool.eq_iff_iff.mpr ?_
  have hbit := hones q
  rwa [List.getElem?_eq_getElem hq, List.getElem?_eq_getElem hq', Option.some.injEq,
    Option.some.injEq] at hbit

/-- Neither the order of the positions nor how often one comes matters. -/
theorem gathered_congr (h : ∀ q, q ∈ positions ↔ q ∈ positions') :
    gathered bits positions = gathered bits positions' := by
  refine eq_of_ones_iff (fun n => ?_) fun q => ?_
  · simp only [length_gathered_le_iff, h]
  · rw [getElem?_gathered_eq_true_iff, getElem?_gathered_eq_true_iff, h]

/-- Up to the last one, bits have all their ones and end with one of them. -/
theorem ones_rdropWhile (bits : List Bool) :
    (∀ q : Nat, (bits.rdropWhile (! ·))[q]? = some true ↔ bits[q]? = some true) ∧
      ∀ n, (bits.rdropWhile (! ·)).length ≤ n ↔ ∀ q : Nat, bits[q]? = some true → q < n := by
  induction bits using List.reverseRecOn with
  | nil => exact ⟨fun _ => Iff.rfl, fun n => iff_of_true (Nat.zero_le n) nofun⟩
  | append_singleton bits b ih =>
    cases b with
    | false =>
      have hsame : ∀ q : Nat, (bits ++ [false])[q]? = some true ↔ bits[q]? = some true := by
        intro q
        rw [List.getElem?_append]
        split
        · exact Iff.rfl
        · rename_i hpast
          rw [List.getElem?_eq_none (Nat.le_of_not_lt hpast : bits.length ≤ q),
            List.getElem?_singleton]
          split <;> exact iff_of_false nofun nofun
      rw [List.rdropWhile_concat_pos _ _ _ rfl]
      simp only [hsame]
      exact ih
    | true =>
      rw [List.rdropWhile_concat_neg _ _ _ (by decide)]
      refine ⟨fun q => Iff.rfl, fun n => ⟨fun hn q hq => ?_, fun hall => ?_⟩⟩
      · exact Nat.lt_of_lt_of_le (lt_length_of_getElem? hq) hn
      · rw [List.length_append]
        exact hall bits.length List.getElem?_concat_length

theorem mem_positionsOf_all :
    q ∈ positionsOf true bits 0 bits.length ↔ bits[q]? = some true :=
  mem_positionsOf.trans (and_iff_right_of_imp fun hq => ⟨Nat.zero_le q, lt_length_of_getElem? hq⟩)

/-- The ones of bits make the bits up to the last one. -/
theorem gathered_positionsOf (bits : List Bool) :
    gathered [] (positionsOf true bits 0 bits.length) = bits.rdropWhile (! ·) := by
  obtain ⟨hones, hlength⟩ := ones_rdropWhile bits
  refine eq_of_ones_iff (fun n => ?_) fun q => ?_
  · rw [length_gathered_le_iff, hlength]
    simp only [mem_positionsOf_all]
    exact and_iff_right (Nat.zero_le n)
  · rw [getElem?_gathered_eq_true_iff, hones, mem_positionsOf_all]
    exact or_iff_right nofun

end

/-! ## Vectors -/

namespace WordVec

variable {S : Type} [WordStore S] [LawfulStore S] {v w : WordVec S} {bits : List Bool}
  {memory : Allocator} {positions : List Nat}

theorem Holds.bit_eq_true_iff (h : v.Holds bits) {q : Nat} :
    Bits.bit v q = .ok true ↔ bits[q]? = some true := by
  cases hbit : bits[q]? with
  | none =>
    have hpast := h.bit_past (List.getElem?_eq_none_iff.mp hbit)
    exact iff_of_false (fun hread => nomatch hpast.symm.trans hread) nofun
  | some b =>
    have hread : Bits.bit v q = .ok b := h.bit_eq hbit
    rw [hread, Except.ok.injEq, Option.some.injEq]

theorem Holds.setTrue (h : v.Holds bits) {i : Nat} (hi : i < bits.length)
    {failed : Failure → WordVec S → Prop} :
    (discard (set i true)).Yields v (fun _ w => w.Holds (bits.set i true)) failed := by
  have hplan := Plan.set_of_some (List.getElem?_eq_getElem hi) true
  obtain ⟨w, hrun, hw⟩ := (follows_set i true).exists_ok h hplan
  exact (Edit.yields_of_ok hrun hw).discard

/-- A position past the end is put in behind zeros. -/
theorem Holds.includePosition (h : v.Holds bits) (i : Nat) :
    (includePosition memory i).Yields v (fun _ w => w.Holds (raised bits i))
      fun failure _ => failure.isRefusal = true := by
  refine Edit.yields_congr (Edit.view_bind WordVec.length) ?_
  rw [h.length_eq, raised]
  split
  · rename_i hpast
    rw [Nat.max_eq_right (Nat.le_succ_of_le hpast)]
    refine Edit.yields_liftM_bind (fun n hn => ?_) fun _ hsum => plus_eq_error hsum ▸ rfl
    rw [plus_eq_ok hn]
    have hlong := (follows_setLength memory (i + 1)).yields h rfl
    refine (hlong.mono (fun _ _ hw => hw.2) fun _ _ hw => hw.1).bind fun _ w hw => ?_
    exact hw.setTrue (Nat.lt_of_lt_of_eq (Nat.lt_succ_self i) (length_resized ..).symm)
  · rename_i hin
    rw [Nat.max_eq_left (Nat.lt_of_not_le hin), resized_length]
    exact h.setTrue (Nat.lt_of_not_le hin)

/-- A vector takes in positions one after the other, unless memory is refused. -/
theorem Holds.extendPositions (h : v.Holds bits) (positions : List Nat) :
    (extendPositions memory positions).Yields v (fun _ w => w.Holds (gathered bits positions))
      fun failure _ => failure.isRefusal = true := by
  refine (Edit.yields_forM (fun rest w => ∃ bits', w.Holds bits' ∧
    gathered bits' rest = gathered bits positions) ⟨bits, h, rfl⟩ ?_).imp ?_
  · rintro i rest w ⟨bits', hw, hrest⟩
    exact (hw.includePosition i).imp fun _ x hx => ⟨_, hx, hrest⟩
  · rintro _ w ⟨bits', hw, hnone⟩
    rwa [← hnone]

/-- A vector of given length with the ones of `v` and those at the positions. -/
structure Gathered (v w : WordVec S) (positions : List Nat) : Prop where
  length_eq_of_nil : positions = [] → w.length = v.length
  length_eq_of_max (last : Nat) : positions.max? = some last → w.length = max v.length (last + 1)
  bit_iff (q : Nat) : Bits.bit w q = .ok true ↔ Bits.bit v q = .ok true ∨ q ∈ positions

theorem Holds.gathered (h : v.Holds bits) (hw : w.Holds (PackedBits.gathered bits positions)) :
    v.Gathered w positions where
  length_eq_of_nil hnil := by
    subst hnil
    rw [hw.length_eq, h.length_eq]
    rfl
  length_eq_of_max last hlast := by rw [hw.length_eq, h.length_eq, length_gathered_of_max hlast]
  bit_iff q := by
    rw [hw.bit_eq_true_iff, h.bit_eq_true_iff, getElem?_gathered_eq_true_iff]

/-- A vector lists its ones, or its zeros, in increasing order. -/
theorem Holds.positions_eq (h : v.Holds bits) {b : Bool} : Walk.positions v b 0 v.length =
    .ok (positionsOf b bits 0 bits.length).toArray := by
  rw [Walk.positions, Walk.toArray_nextHolding h.faithful, h.length_eq]

/-- What is made of positions has a one at each of them, and is no longer than it must be. -/
theorem exists_ofPositions
    (hgranted : ¬(WordVec.extendPositions memory positions).Refused (empty : WordVec S)) :
    ∃ w : WordVec S, ofPositions memory positions = .ok w ∧
      w.Holds (PackedBits.gathered [] positions) := by
  obtain ⟨_, w, hrun, hw⟩ :=
    (holds_empty.extendPositions positions).exists_ok_of_not_refused hgranted
  exact ⟨w, Edit.build_eq_ok.mpr hrun, hw⟩

end WordVec

/-! ## Positions in and out -/

namespace StoreKind

open WordVec

/-- Unless memory is refused, a vector that takes in positions is as long as it was or as the
largest of them needs, and has the ones that it had and those at the positions; its words are
the same for any order of the positions, however often each comes. What is made of positions
alone lists them in increasing order, each once, and what is made of the ones that a vector
lists is that vector without the zeros after its last one. -/
theorem positions_gathered {kind kind' : StoreKind} {v : WordVec kind.Store} (hv : kind.Reached v)
    (memory : Allocator) (positions : List Nat) :
    (¬(extendPositions memory positions).Refused v → ∃ w,
      extendPositions memory positions v = .ok () w ∧ v.Gathered w positions ∧
      ∀ (memory' : Allocator) (positions' : List Nat) (v' w' : WordVec kind'.Store),
        kind'.Reached v' → Bits.toArray v' = Bits.toArray v →
        (∀ q, q ∈ positions' ↔ q ∈ positions) →
        extendPositions memory' positions' v' = .ok () w' → w.SameWords w') ∧
      (¬(extendPositions memory positions).Refused (empty : WordVec kind'.Store) →
        ∃ (w : WordVec kind'.Store) (listed : List Nat), ofPositions memory positions = .ok w ∧
          Walk.positions w true 0 w.length = .ok listed.toArray ∧
          listed.Pairwise (· < ·) ∧ ∀ q, q ∈ listed ↔ q ∈ positions) ∧
      ∃ (bits : List Bool) (ones : List Nat), Bits.toArray v = .ok bits.toArray ∧
        Walk.positions v true 0 v.length = .ok ones.toArray ∧
        (¬(extendPositions memory ones).Refused (empty : WordVec kind'.Store) →
          ∃ w : WordVec kind'.Store, ofPositions memory ones = .ok w ∧
            Bits.toArray w = .ok (bits.rdropWhile (! ·)).toArray) := by
  obtain ⟨bits, hbits⟩ := hv.exists_bits
  refine ⟨fun hgranted => ?_, fun hgranted => ?_, ?_⟩
  · obtain ⟨_, w, hrun, hw⟩ :=
      (hbits.extendPositions positions).exists_ok_of_not_refused hgranted
    refine ⟨w, hrun, hbits.gathered hw, ?_⟩
    intro memory' positions' v' w' hv' hsame hmem hrun'
    obtain ⟨bits', hbits'⟩ := hv'.exists_bits
    obtain rfl := hbits'.eq_of_toArray hbits hsame
    have hw' := (hbits'.extendPositions positions').of_ok hrun'
    rw [gathered_congr hmem] at hw'
    exact hw.sameWords hw'
  · obtain ⟨w, hmade, hw⟩ := exists_ofPositions hgranted
    refine ⟨w, _, hmade, hw.positions_eq, pairwise_positionsOf, fun q => ?_⟩
    rw [mem_positionsOf_all, getElem?_gathered_eq_true_iff]
    exact or_iff_right nofun
  · refine ⟨bits, _, hbits.reads.toArray_eq, hbits.positions_eq, fun hgranted => ?_⟩
    obtain ⟨w, hmade, hw⟩ := exists_ofPositions hgranted
    rw [gathered_positionsOf] at hw
    exact ⟨w, hmade, hw.reads.toArray_eq⟩

/-- A one and a zero that take in two positions out of order, one of them twice. -/
theorem positions_gathered_out_of_order :
    let script : Script := .andThen (.change .unlimited (.push true) trivial) <|
      .change .unlimited (.push false) trivial
    let v : WordVec (segmented 0).Store := script.run.after WordVec.empty
    (segmented 0).Reached v ∧
      (∃ w, extendPositions .unlimited [70, 3, 70] v = .ok () w ∧ w.length = 71 ∧
        ∀ w', extendPositions .unlimited [3, 70] v = .ok () w' → w.SameWords w') ∧
      (∃ (w : WordVec flat.Store) (listed : List Nat),
        ofPositions .unlimited [70, 3, 70] = .ok w ∧
        Walk.positions w true 0 w.length = .ok listed.toArray ∧ listed.Pairwise (· < ·) ∧
        ∀ q, q ∈ listed ↔ q ∈ [70, 3, 70]) ∧
      ∃ w : WordVec flat.Store, ofPositions .unlimited [0] = .ok w ∧
        Bits.toArray w = .ok #[true] := by
  intro script v
  have hv : (segmented 0).Reached v := .script script .empty
  have hlength : v.length = 2 := by decide +kernel
  obtain ⟨hextended, -⟩ :=
    @positions_gathered (segmented 0) (segmented 0) v hv .unlimited [70, 3, 70]
  obtain ⟨-, hlisted, bits, ones, hbits, hones, htrimmed⟩ :=
    @positions_gathered (segmented 0) flat v hv .unlimited [70, 3, 70]
  have hread : Bits.toArray v = .ok #[true, false] := by decide +kernel
  have hlist : Walk.positions v true 0 v.length = .ok #[0] := by decide +kernel
  obtain rfl : bits = [true, false] := by
    rw [hread] at hbits
    exact (congrArg Array.toList (Except.ok.inj hbits)).symm
  obtain rfl : ones = [0] := by
    rw [hlist] at hones
    exact (congrArg Array.toList (Except.ok.inj hones)).symm
  refine ⟨hv, ?_, hlisted (by decide +kernel), htrimmed (by decide +kernel)⟩
  obtain ⟨w, hrun, hgathered, hsame⟩ := hextended (by decide +kernel)
  refine ⟨w, hrun, ?_, fun w' hrun' => hsame .unlimited [3, 70] v w' hv rfl ?_ hrun'⟩
  · rw [hgathered.length_eq_of_max 70 (by decide), hlength]
    rfl
  · intro q
    simp only [List.mem_cons, List.not_mem_nil, or_false]
    omega

end StoreKind

end PackedBits
