import Mathlib.Data.List.InsertIdx
import PackedBits.Proofs.Growth

/-!
# Insertions and removals undo each other

An insertion moves every word after it up by one place and a removal moves them down
again, with the bit that leaves one word entering its neighbour. `StoreKind.inserts_and_removes`
says what either leaves of the bits of any vector that can be made, and that the one takes
the other back to the last word: a word that was begun for the inserted bit is dropped
again, and one that was dropped with the removed bit is begun again, with no request for
memory where the room of the store is known.
-/

namespace PackedBits

namespace WordVec

variable {S : Type} [WordStore S] [LawfulStore S] {v : WordVec S} {bits : List Bool}

/-- What is inserted is removed again, and the words are as they were. -/
theorem Holds.remove_inserted {w : WordVec S} {i : Nat} (h : v.Holds bits)
    (hle : i ≤ bits.length) (b : Bool) (hw : w.Holds (bits.insertIdx i b)) :
    ∃ u, WordVec.remove i w = .ok b u ∧ v.SameWords u := by
  have hb : (bits.insertIdx i b)[i]? = some b := List.getElem?_insertIdx_self.trans (if_pos hle)
  obtain ⟨u, hrun, hu⟩ := (follows_remove i).exists_ok hw (Plan.remove_of_some hb)
  rw [List.eraseIdx_insertIdx_self] at hu
  exact ⟨u, hrun, h.sameWords hu⟩

/-- A bit that was removed is inserted again, and the words are as they were. -/
theorem Holds.insert_removed {w : WordVec S} {memory : Allocator} {i : Nat} (h : v.Holds bits)
    (hi : i < bits.length) (hw : w.Holds (bits.eraseIdx i))
    (hgranted : ¬(WordVec.insert memory i bits[i]).Refused w) :
    ∃ u, WordVec.insert memory i bits[i] w = .ok () u ∧ v.SameWords u := by
  have hle : i ≤ (bits.eraseIdx i).length := by
    rw [List.length_eraseIdx_of_lt hi]
    omega
  obtain ⟨u, hrun, hu⟩ :=
    (follows_insert memory i bits[i]).granted hw (Plan.insert_of_le hle bits[i]) hgranted
  rw [List.insertIdx_eraseIdx_getElem hi] at hu
  exact ⟨u, hrun, h.sameWords hu⟩

/-- A removal keeps the room of the bit that it removes. -/
theorem Fitting.not_refused_after_remove [LawfulRoom S] {w : WordVec S} {i : Nat} {old : Bool}
    (h : v.Fitting bits) (hi : i < bits.length) (hrun : WordVec.remove i v = .ok old w)
    (memory : Allocator) (b : Bool) : ¬(WordVec.insert memory i b).Refused w := by
  have hroom := h.wordsFor_le_capacity
  have hremove : (WordVec.remove i).Yields v
      (fun old w => old = bits[i] ∧ w.Roomy v.store (bits.eraseIdx i)) fun _ _ => False :=
    h.roomy.remove hi (Nat.le_trans (wordsFor_mono (Nat.sub_le _ 1)) hroom)
  obtain ⟨-, hw⟩ := hremove.of_ok hrun
  have hlength : (bits.eraseIdx i).length = bits.length - 1 := List.length_eraseIdx_of_lt hi
  have hinsert : (WordVec.insert memory i b).Yields w
      (fun _ u => u.Roomy v.store ((bits.eraseIdx i).insertIdx i b)) fun _ _ => False :=
    hw.insert (by omega) b (by rwa [hlength, Nat.sub_add_cancel (by omega)])
  rintro ⟨failure, u, hfails, -⟩
  exact hinsert.of_error hfails

end WordVec

namespace StoreKind

/-- A bit inserted into a vector that can be made stands between those before its position
and those from there on, and a bit removed leaves those before it and those after it; and
the one undoes the other down to the words. Inserting may be refused memory, but not where
a bit was removed and the room of the store is known. -/
theorem inserts_and_removes {kind : StoreKind} {v : WordVec kind.Store} (hv : kind.Reached v) :
    ∃ bits : List Bool, Bits.toArray v = .ok bits.toArray ∧
      (∀ memory i b, i ≤ bits.length → ¬(ResizableBits.insert memory i b).Refused v →
        ∃ w, ResizableBits.insert memory i b v = .ok () w ∧
          Bits.toArray w = .ok (bits.take i ++ b :: bits.drop i).toArray ∧
          ∃ u, ResizableBits.remove i w = .ok b u ∧ v.SameWords u) ∧
      ∀ i (hi : i < bits.length), ∃ w, ResizableBits.remove i v = .ok bits[i] w ∧
        Bits.toArray w = .ok (bits.take i ++ bits.drop (i + 1)).toArray ∧
        ∀ memory, kind.BuiltIn ∨ ¬(ResizableBits.insert memory i bits[i]).Refused w →
          ∃ u, ResizableBits.insert memory i bits[i] w = .ok () u ∧ v.SameWords u := by
  obtain ⟨bits, hbits⟩ := hv.exists_bits
  refine ⟨bits, hbits.reads.toArray_eq, fun memory i b hle hgranted => ?_, fun i hi => ?_⟩
  · obtain ⟨w, hrun, hw⟩ := (WordVec.follows_insert memory i b).granted hbits
      (Plan.insert_of_le hle b) hgranted
    refine ⟨w, hrun, ?_, hbits.remove_inserted hle b hw⟩
    rw [← insertIdx_eq_take_append hle]
    exact hw.reads.toArray_eq
  · obtain ⟨w, hrun, hw⟩ := (WordVec.follows_remove i).exists_ok hbits
      (Plan.remove_of_some (List.getElem?_eq_getElem hi))
    refine ⟨w, hrun, ?_, fun memory hmemory => hbits.insert_removed hi hw ?_⟩
    · rw [← List.eraseIdx_eq_take_drop_succ]
      exact hw.reads.toArray_eq
    · rcases hmemory with hkind | hgranted
      · obtain ⟨room, hfits⟩ := hv.exists_room hkind
        exact WordVec.Fitting.not_refused_after_remove ⟨hbits, hfits⟩ hi hrun memory bits[i]
      · exact hgranted

/-- Among sixty-four ones in segments of one word, a zero inserted begins a second segment,
and its removal gives that back; of sixty-five ones, the removal of one empties the second
segment, and no memory is needed to begin it again. -/
theorem inserts_and_removes_over_a_seam :
    let filled (n : Nat) : Script := .andThen (.change .unlimited (.setLength n) trivial) <|
      .change .unlimited .flipAll trivial
    let v : WordVec (segmented 0).Store := (filled 64).run.after WordVec.empty
    let w : WordVec (segmented 0).Store := (filled 65).run.after WordVec.empty
    (segmented 0).Reached v ∧ (segmented 0).Reached w ∧ (segmented 0).BuiltIn ∧
      (∃ longer, ResizableBits.insert .unlimited 3 false v = .ok () longer ∧
        Bits.toArray longer =
          .ok (List.replicate 3 true ++ false :: List.replicate 61 true).toArray ∧
        ∃ back, ResizableBits.remove 3 longer = .ok false back ∧ v.SameWords back) ∧
      ∃ shorter, ResizableBits.remove 3 w = .ok true shorter ∧
        Bits.toArray shorter = .ok (List.replicate 64 true).toArray ∧
        ∃ back, ResizableBits.insert (.upTo 0) 3 true shorter = .ok () back ∧
          w.SameWords back := by
  intro filled v w
  have hv : (segmented 0).Reached v := .script (filled 64) .empty
  have hw : (segmented 0).Reached w := .script (filled 65) .empty
  have hkind : (segmented 0).BuiltIn := trivial
  have hread : Bits.toArray v = .ok (List.replicate 64 true).toArray := by decide +kernel
  have hread' : Bits.toArray w = .ok (List.replicate 65 true).toArray := by decide +kernel
  obtain ⟨bits, hbits, hinserts, -⟩ := inserts_and_removes hv
  obtain ⟨bits', hbits', -, hremoves⟩ := inserts_and_removes hw
  cases hread.symm.trans hbits
  cases hread'.symm.trans hbits'
  refine ⟨hv, hw, hkind, hinserts .unlimited 3 false (by decide) (by decide +kernel), ?_⟩
  obtain ⟨shorter, hremove, hleft, hback⟩ := hremoves 3 (by decide)
  exact ⟨shorter, hremove, hleft, hback (.upTo 0) (.inl hkind)⟩

end StoreKind

end PackedBits
