import PackedBits.Proofs.Growth
import PackedBits.Proofs.Readable

/-!
# Having the bits of another vector

A vector is given the bits of another in two steps, each of them whole or not at all: it
is emptied, and the other is put at its end. Emptying keeps the room, so what fits in it is
always taken over; where the request of the second step is refused, the bits are gone
already. `StoreKind.replace_decided` says both, for every vector that can be read.
-/

namespace PackedBits

namespace WordVec

variable {S : Type} [WordStore S] [LawfulStore S] [LawfulRoom S] {v : WordVec S}
  {bits : List Bool}

/-- Emptying asks for nothing and gives no room back. -/
theorem Fitting.clear (h : v.Fitting bits) (memory : Allocator) :
    ∃ cleared, ResizableBits.clear memory v = .ok () cleared ∧ cleared.Roomy v.store [] := by
  have hcut : (WordVec.setLength memory 0).Yields v
      (fun _ w => w.Roomy v.store (resized 0 false bits)) fun _ _ => False :=
    h.roomy.setLength (Nat.zero_le _)
  rw [resized_zero] at hcut
  obtain ⟨_, cleared, hrun, hcleared⟩ := hcut.exists_ok
  exact ⟨cleared, hrun, hcleared⟩

end WordVec

namespace StoreKind

/-- A vector of words that is to have the bits of another is emptied, and one request for
room for all of them decides: granted, they are its bits; refused, it has none, so it is as
it was only where it had none before. What fits in the room there was is not refused. -/
theorem replace_decided {kind : StoreKind} (hkind : kind.BuiltIn) {v : WordVec kind.Store}
    (hv : kind.Reached v) {W : Type} [Bits W] {other : W} {bits : List Bool}
    (hother : Readable other) (hbits : Bits.toArray other = .ok bits.toArray)
    (memory : Allocator) :
    let replace := ResizableBits.replace memory (Bits.source other) v
    ∃ cleared, ResizableBits.clear memory v = .ok () cleared ∧
      (∀ failure w, WordVec.reserve memory bits.length cleared = .error failure w →
        replace = .error (.cannotGrow bits.length) w ∧ Bits.toArray w = .ok #[] ∧
          (Bits.toArray w = Bits.toArray v ↔ v.length = 0)) ∧
      (∀ made, WordVec.reserve memory bits.length cleared = .ok () made →
        ∃ w, replace = .ok () w ∧ Bits.toArray w = .ok bits.toArray) ∧
      (wordsFor bits.length ≤ WordStore.capacity v.store →
        ∃ w, replace = .ok () w ∧ Bits.toArray w = .ok bits.toArray) := by
  intro replace
  obtain ⟨room, hwrapped⟩ := exists_lawfulRoom hkind
  obtain ⟨held, hheld⟩ := hv.exists_bits
  have hfits : LawfulRoom.Fits v.store :=
    WordVec.Reached.steady hv WordVec.steady_fits hwrapped
  have hreads := hother.reads hbits
  obtain ⟨cleared, hclear, hcleared⟩ := WordVec.Fitting.clear ⟨hheld, hfits⟩ memory
  have hrun : replace = WordVec.append memory (Bits.source other) cleared := Edit.bind_ok hclear
  -- The bits of the other vector alone can always be counted.
  have hsum : plus ([] : List Bool).length bits.length = .ok bits.length := zero_plus bits.length
  have hdecides : WordVec.Decides memory bits.length (WordVec.append memory (Bits.source other))
      cleared (.cannotGrow bits.length) bits :=
    Growth.decides ⟨hcleared.holds, hcleared.room.fits⟩ memory
      (g := .append (Bits.source other) bits hreads) rfl (hreads.length_eq ▸ hsum)
  refine ⟨cleared, hclear, fun failure w hrefused => ?_, fun made hgranted => ?_, fun hroom => ?_⟩
  · have hw : w.Holds [] :=
      ((WordVec.Image.reserve hcleared.holds memory _).of_error hrefused).2
    have hnone : Bits.toArray w = .ok #[] := hw.reads.toArray_eq
    refine ⟨hrun.trans (hdecides.refused hrefused), hnone, ?_⟩
    rw [hnone, hheld.reads.toArray_eq, hheld.length_eq, Except.ok.injEq, List.length_eq_zero_iff]
    constructor
    · intro hsame
      exact (congrArg Array.toList hsame).symm
    · rintro rfl
      rfl
  · obtain ⟨_, w, hdone, hw⟩ := (hdecides.granted hgranted).exists_ok
    exact ⟨w, hrun.trans hdone, hw.holds.reads.toArray_eq⟩
  · have happend : (WordVec.append memory (Bits.source other)).Yields cleared
        (fun _ w => w.Roomy v.store bits) fun _ _ => False :=
      hcleared.append hreads hsum ((Nat.zero_add bits.length).symm ▸ hroom)
    obtain ⟨_, w, hdone, hw⟩ := happend.exists_ok
    exact ⟨w, hrun.trans hdone, hw.holds.reads.toArray_eq⟩

/-- A vector of seventy ones in segments of one word, which is to have the bits of a part of
a vector of zeros in one piece: of seventy of its bits, the room is there; of a hundred and
fifty, a third segment is refused. -/
theorem replace_decided_in_segments :
    let filled : Script := .andThen (.change .unlimited (.setLength 70) trivial) <|
      .change .unlimited .flipAll trivial
    let v : WordVec (segmented 0).Store := filled.run.after WordVec.empty
    let scarce : Allocator := ⟨fun request => request != .words 2 1⟩
    let zeros : Script := .change .unlimited (.setLength 200) trivial
    let ground : WordVec flat.Store := zeros.run.after WordVec.empty
    let short : Part (WordVec flat.Store) := ⟨ground, 3, 73⟩
    let long : Part (WordVec flat.Store) := ⟨ground, 3, 153⟩
    (segmented 0).BuiltIn ∧ (segmented 0).Reached v ∧ Readable short ∧ Readable long ∧
      (∃ w, ResizableBits.replace scarce (Bits.source short) v = .ok () w ∧
        Bits.toArray w = .ok (List.replicate 70 false).toArray) ∧
      ∃ w, ResizableBits.replace scarce (Bits.source long) v = .error (.cannotGrow 150) w ∧
        Bits.toArray w = .ok #[] := by
  intro filled v scarce zeros ground short long
  have hkind : (segmented 0).BuiltIn := trivial
  have hv : (segmented 0).Reached v := .script filled .empty
  have hground : Readable ground := .words flat (.script zeros .empty)
  have hshort : Readable short := .part 3 73 hground (Part.of_eq_ok (by decide) (by decide +kernel))
  have hlong : Readable long := .part 3 153 hground (Part.of_eq_ok (by decide) (by decide +kernel))
  have hbits : Bits.toArray short = .ok (List.replicate 70 false).toArray := by decide +kernel
  have hbits' : Bits.toArray long = .ok (List.replicate 150 false).toArray := by decide +kernel
  obtain ⟨-, -, -, -, hfits⟩ := replace_decided hkind hv hshort hbits scarce
  obtain ⟨cleared, hclear, hrefused, -⟩ :=
    replace_decided hkind hv hlong hbits' scarce
  have hasked : (do
      ResizableBits.clear scarce
      WordVec.reserve scarce 150 : Edit (WordVec (segmented 0).Store) Unit).Refused v := by
    decide +kernel
  obtain ⟨failure, w, hrun, -⟩ := hasked
  have hreserve := (Edit.bind_ok hclear).symm.trans hrun
  obtain ⟨hdone, hnone, -⟩ := hrefused failure w hreserve
  exact ⟨hkind, hv, hshort, hlong, hfits (by decide +kernel), w, hdone, hnone⟩

/-- The four bits 1001, which are to be a thousand ones and are refused the room, are lost. -/
theorem replace_loses_bits :
    let v : WordVec Flat := ⟨⟨Buffer.ofArray #[9#64]⟩, 4⟩
    let w : WordVec Flat := ⟨⟨⟨#[], 1⟩⟩, 0⟩
    let other : Uniform := ⟨1000, true⟩
    flat.Reached v ∧ Readable other ∧ Bits.toArray v = .ok #[true, false, false, true] ∧
      ResizableBits.replace (.upTo 64) (Bits.source other) v = .error (.cannotGrow 1000) w ∧
      Bits.toArray w = .ok #[] := by
  intro v w other
  have hv : flat.Reached v := .ofWords #[9#64] 4 rfl
  have hfails : (ResizableBits.replace (.upTo 64) (Bits.source other)).build v =
      .error (.cannotGrow 1000) := by decide +kernel
  have hleft : (ResizableBits.replace (.upTo 64) (Bits.source other)).after v = w := by
    decide +kernel
  have hrun := Edit.build_eq_error.mp hfails
  rw [hleft] at hrun
  exact ⟨hv, .uniform other, by decide +kernel, hrun, rfl⟩

end StoreKind

end PackedBits
