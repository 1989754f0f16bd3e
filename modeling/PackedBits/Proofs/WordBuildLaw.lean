import PackedBits.Proofs.WordResizableLaw
import PackedBits.WordVec.Build

/-!
# Vectors built from nothing hold their bits

A vector of zeros or of ones and a copy of a range of another vector hold the
bits they are named for, unless memory is refused. The ones are written a word at
a time and those past the length cleared again.
-/

namespace PackedBits

namespace WordVec

variable {S : Type} [WordStore S] [LawfulStore S]

theorem grants_withCapacity (memory : Allocator) (n : Nat) :
    Grants (withCapacity memory n : Answer (WordVec S)) fun v => v.Holds [] :=
  grants_build ((holds_empty.ensureCapacity memory n).mono (fun _ _ hw => hw) fun _ _ hw => hw.1)

theorem grants_zeros (memory : Allocator) (n : Nat) :
    Grants (zeros memory n : Answer (WordVec S)) fun v => v.Holds (List.replicate n false) := by
  refine (grants_withCapacity memory n).bind fun v hv => grants_build ?_
  have hzeros : Plan.setLength n [] = .ok ((), List.replicate n false) := by
    rw [Plan.setLength, resized, List.take_nil, List.nil_append, List.length_nil, Nat.sub_zero]
  exact ((follows_setLength memory n).yields hv hzeros).mono (fun _ _ hw => hw.2)
    fun _ _ hfailed => hfailed.1

theorem grants_ones [LawfulFill S] (memory : Allocator) (n : Nat) :
    Grants (ones memory n : Answer (WordVec S)) fun v => v.Holds (List.replicate n true) := by
  refine (grants_zeros memory n).bind fun v hv => ?_
  have hzeros := hv
  rw [Holds, List.length_replicate] at hzeros
  refine grants_build ?_
  refine Edit.Yields.bind (hzeros.fill (Nat.zero_le _) (Nat.le_refl _) true) fun _ w hw => ?_
  refine hw.clearTail.imp fun _ x hx => ?_
  rw [Holds, List.length_replicate]
  refine hx.congr fun i => ?_
  have hcount := le_wordsFor n
  by_cases hi : i < n
  · rw [decide_eq_true hi, retouched, if_pos (by omega), List.getElem?_replicate, if_pos hi]
    rfl
  · rw [decide_eq_false hi, List.getElem?_replicate, if_neg hi]
    rfl

end WordVec

/-- A copy of a range has the bits of the range. -/
theorem Source.grants_copyRange {source : Source} {bits : List Bool} (h : source.Reads bits)
    (memory : Allocator) {lo hi : Nat} (hle : lo ≤ hi) (hhi : hi ≤ bits.length) :
    Grants (source.copyRange memory lo hi) fun copy => copy.Holds ((bits.take hi).drop lo) := by
  have hcheck : checkRange lo hi source.length = .ok () :=
    require_eq_ok_iff.mpr ⟨hle, h.length_eq ▸ hhi⟩
  have hchecked : Grants (checkRange lo hi source.length) fun _ => True := by
    rw [hcheck]
    trivial
  refine hchecked.bind fun _ _ => ?_
  refine (WordVec.grants_withCapacity memory (hi - lo)).bind fun copy hcopy => ?_
  have happend : ∀ (v : WordVec Flat) front w count, v.Holds front → count ≤ 64 →
      front.length + count ≤ ([] : List Bool).length + (hi - lo) →
      (WordVec.appendBits memory w count).Yields v
        (fun _ x => x.Holds (front ++ (List.range count).map w.getLsbD))
        fun failure _ => failure.isRefusal = true := fun v front w count hv hcount _ =>
    ((WordVec.follows_appendBits memory w count).yields_appendBits hv hcount).mono
      (fun _ _ hx => hx) fun _ _ hfailed => hfailed.1
  exact grants_build ((yields_copyWindows h hle hhi happend (fun _ _ => rfl) hcopy).imp
    fun _ _ hw => hw.1)

end PackedBits
