import PackedBits.Proofs.Growth
import PackedBits.Proofs.Readable

/-!
# Bits put behind bits, and copies

The bits of a word or of another vector are put at the end a word at a time. Where the
length is no multiple of 64 each piece goes into two words of the vector, and where the
other one is a part it may come out of two words of what is behind it; neither shows in
the bits. A copy is the same from nothing, once there is room for all of it; a copy of a
range also adds 64 to the position that each window begins at, which near the largest
position is too much. `StoreKind.appends_and_copies` says so for every vector that can be
made and every vector that can be read.
-/

namespace PackedBits

namespace WordVec

variable {S : Type} [WordStore S] [LawfulStore S] [LawfulRoom S] {v : WordVec S}
  {memory : Allocator} {n : Nat}

/-- A vector that is made with a capacity has no bits and room for so many. -/
theorem roomy_of_withCapacity (h : withCapacity memory n = .ok v) :
    v.Roomy v.store [] ∧ wordsFor n ≤ WordStore.capacity v.store := by
  rw [withCapacity, Edit.build_eq_ok, ensureCapacity, Edit.reword_eq_ok] at h
  exact fitting_empty.made h

end WordVec

namespace Source

variable {s : Source} {memory : Allocator} {v : WordVec Flat} {lo hi : Nat}

/-! ## Copies -/

/-- A copy asks for nothing but the room for its bits. -/
theorem Reads.copy_eq_ok {bits : List Bool} (h : s.Reads bits)
    (hmade : WordVec.withCapacity memory bits.length = .ok v) :
    ∃ w, s.copy memory = .ok w ∧ w.Holds bits := by
  obtain ⟨hroomy, hroom⟩ := WordVec.roomy_of_withCapacity hmade
  have happend : (WordVec.append memory s).Yields v (fun _ w => w.Roomy v.store bits)
      fun _ _ => False :=
    hroomy.append h (zero_plus bits.length) ((Nat.zero_add bits.length).symm ▸ hroom)
  obtain ⟨_, w, hrun, hw⟩ := happend.exists_ok
  rw [← h.length_eq] at hmade
  refine ⟨w, ?_, hw.holds⟩
  rw [copy, bind_of_ok hmade, Edit.build_eq_ok]
  exact hrun

/-- A copy of a range is found in the room for the bits of the range if its last full window
ends at a position, and is given up otherwise. -/
theorem Reads.copyRange_eq {bits : List Bool} (h : s.Reads bits) (hle : lo ≤ hi)
    (hhi : hi ≤ bits.length) (hmade : WordVec.withCapacity memory (hi - lo) = .ok v) :
    (∃ w, s.copyRange memory lo hi = .ok w ∧ w.Holds ((bits.take hi).drop lo) ∧
        hi ≤ windowsEnd lo) ∨
      s.copyRange memory lo hi = .error (.overflow .sum) ∧ windowsEnd lo < hi := by
  obtain ⟨hroomy, hroom⟩ := WordVec.roomy_of_withCapacity hmade
  have hcheck : checkRange lo hi s.length = .ok () :=
    require_eq_ok_iff.mpr ⟨hle, h.length_eq ▸ hhi⟩
  -- nothing is refused, so only a window that ends past the largest position is left to fail
  let failed : Failure → WordVec Flat → Prop := fun failure _ =>
    failure = .overflow .sum ∧ windowsEnd lo < hi
  -- each window finds its room in that for the whole range
  have happend : ∀ (w : WordVec Flat) front (x : Word) count, w.Roomy v.store front →
      count ≤ 64 → front.length + count ≤ ([] : List Bool).length + (hi - lo) →
      (WordVec.appendBits memory x count).Yields w
        (fun _ u => u.Roomy v.store (front ++ (List.range count).map x.getLsbD)) failed := by
    intro w front x count hw hcount hfront
    rw [List.length_nil, Nat.zero_add] at hfront
    exact hw.appendBits x hcount (Nat.le_trans (wordsFor_mono hfront) hroom)
  have hwindows := yields_copyWindows h hle hhi happend (fun hpast _ => ⟨rfl, hpast⟩) hroomy
  rw [copyRange, bind_of_ok hcheck, bind_of_ok hmade]
  obtain ⟨w, hrun, hw, hend⟩ | ⟨_, hrun, rfl, hpast⟩ := hwindows.build
  · exact .inl ⟨w, hrun, hw.holds, hend⟩
  · exact .inr ⟨hrun, hpast⟩

/-- A copy is a vector that can be made. -/
theorem reached_of_copy {wrapped : WordVec Flat → Prop} (h : s.copy memory = .ok v) :
    WordVec.Reached wrapped v := by
  obtain ⟨made, hmade, hrun⟩ := bind_eq_ok h
  exact (WordVec.Reached.kept.append memory s).build (.withCapacity memory _ hmade) hrun

theorem reached_of_copyRange {wrapped : WordVec Flat → Prop}
    (h : s.copyRange memory lo hi = .ok v) : WordVec.Reached wrapped v := by
  obtain ⟨_, -, h⟩ := bind_eq_ok h
  obtain ⟨made, hmade, hrun⟩ := bind_eq_ok h
  have hwindows : (visitWindows lo hi fun first last => (do
      checkWindowEnd first
      WordVec.appendBits memory (← s.window first last) (last - first) :
        Edit (WordVec Flat) Unit)).Keeps (WordVec.Reached wrapped) := by
    refine Edit.keeps_visitWindows (fun first last => (Edit.keeps_liftM _).bind fun _ => ?_) lo hi
    refine (Edit.keeps_liftM _).bind fun w => ?_
    exact WordVec.Reached.kept.appendBits memory w (last - first)
  exact hwindows.build (.withCapacity memory _ hmade) hrun

end Source

namespace StoreKind

/-- Behind the bits of a vector that can be made stand the low bits of a word that were put
there, with none of its high ones, or all the bits of a vector that can be read; and a copy
of such a vector, or of a range of it, has its bits or those of the range. What may be
missing is memory: for the copies, that of the one request that they begin with. A copy of
a range whose last full window would end past the largest position is given up, however
little room the range needs. -/
theorem appends_and_copies {kind : StoreKind} {v : WordVec kind.Store} (hv : kind.Reached v)
    {W : Type} [Bits W] {other : W} (hother : Readable other) (memory : Allocator) :
    ∃ bits others : List Bool, Bits.toArray v = .ok bits.toArray ∧
      Bits.toArray other = .ok others.toArray ∧
      (∀ x count, count ≤ 64 → ¬(ResizableBits.appendBits memory x count).Refused v →
        ∃ w, ResizableBits.appendBits memory x count v = .ok () w ∧
          Bits.toArray w = .ok (bits ++ (List.range count).map x.getLsbD).toArray) ∧
      (¬(ResizableBits.append memory (Bits.source other)).Refused v →
        ∃ w, ResizableBits.append memory (Bits.source other) v = .ok () w ∧
          Bits.toArray w = .ok (bits ++ others).toArray) ∧
      (∀ made : WordVec flat.Store, WordVec.withCapacity memory others.length = .ok made →
        ∃ w : WordVec flat.Store, (Bits.source other).copy memory = .ok w ∧ flat.Reached w ∧
          Bits.toArray w = .ok others.toArray) ∧
      ∀ lo hi, lo ≤ hi → hi ≤ others.length →
        ∀ made : WordVec flat.Store, WordVec.withCapacity memory (hi - lo) = .ok made →
          (hi ≤ windowsEnd lo →
            ∃ w : WordVec flat.Store, (Bits.source other).copyRange memory lo hi = .ok w ∧
              flat.Reached w ∧ Bits.toArray w = .ok ((others.take hi).drop lo).toArray) ∧
          (windowsEnd lo < hi →
            (Bits.source other).copyRange memory lo hi = .error (.overflow .sum)) := by
  obtain ⟨bits, hbits⟩ := hv.exists_bits
  obtain ⟨others, hreads⟩ := hother.exists_reads
  refine ⟨bits, others, hbits.reads.toArray_eq, hreads.toArray_eq, ?_, ?_, ?_, ?_⟩
  · intro x count hcount hgranted
    obtain ⟨w, hrun, hw⟩ := (WordVec.follows_appendBits memory x count).granted hbits
      (Plan.appendBits_of_le x hcount) hgranted
    exact ⟨w, hrun, hw.reads.toArray_eq⟩
  · intro hgranted
    obtain ⟨w, hrun, hw⟩ := (WordVec.follows_append memory hreads).granted hbits rfl hgranted
    exact ⟨w, hrun, hw.reads.toArray_eq⟩
  · intro made hmade
    obtain ⟨w, hrun, hw⟩ := hreads.copy_eq_ok hmade
    exact ⟨w, hrun, Source.reached_of_copy hrun, hw.reads.toArray_eq⟩
  · intro lo hi hle hhi made hmade
    obtain ⟨w, hrun, hw, hend⟩ | ⟨hrun, hpast⟩ := hreads.copyRange_eq hle hhi hmade
    · have hgood := hw.reads.toArray_eq
      exact ⟨fun _ => ⟨w, hrun, Source.reached_of_copyRange hrun, hgood⟩,
        fun hpast => absurd hend (Nat.not_le.mpr hpast)⟩
    · exact ⟨fun hend => absurd hend (Nat.not_le.mpr hpast), fun _ => hrun⟩

/-- Sixty-two ones in segments of one word, and a part of seven bits on both sides of the seam
of two words. The low five bits of a word of ones begin a second segment behind the
sixty-two, and so does the part; a copy of the part, or of the middle of it, needs room for
the four words that a vector begins with. -/
theorem appends_and_copies_over_a_seam :
    let filled : Script := .andThen (.change .unlimited (.setLength 62) trivial) <|
      .change .unlimited .flipAll trivial
    let v : WordVec (segmented 0).Store := filled.run.after WordVec.empty
    let ground : WordVec flat.Store := ⟨(⟨⟨#[0xA000000000000000#64, 0x15#64], 2⟩⟩ : Flat), 70⟩
    let other : Part (WordVec flat.Store) := ⟨ground, 60, 67⟩
    let before := List.replicate 62 true
    (segmented 0).Reached v ∧ Readable other ∧
      (∃ w, ResizableBits.appendBits .unlimited (BitVec.allOnes 64) 5 v = .ok () w ∧
        Bits.toArray w = .ok (before ++ [true, true, true, true, true]).toArray) ∧
      (∃ w, ResizableBits.append .unlimited (Bits.source other) v = .ok () w ∧
        Bits.toArray w =
          .ok (before ++ [false, true, false, true, true, false, true]).toArray) ∧
      (∃ w : WordVec flat.Store, (Bits.source other).copy (.upTo 32) = .ok w ∧ flat.Reached w ∧
        Bits.toArray w = .ok #[false, true, false, true, true, false, true]) ∧
      ∃ w : WordVec flat.Store, (Bits.source other).copyRange (.upTo 32) 2 6 = .ok w ∧
        flat.Reached w ∧ Bits.toArray w = .ok #[false, true, true, false] := by
  intro filled v ground other before
  have hv : (segmented 0).Reached v := .script filled .empty
  have hground : Readable ground := .words flat (.ofWords #[0xA000000000000000#64, 0x15#64] 70 rfl)
  have hother : Readable other :=
    .part 60 67 hground (Part.of_eq_ok (by decide) (by decide))
  have hread : Bits.toArray v = .ok before.toArray := by decide +kernel
  have hread' : Bits.toArray other = .ok [false, true, false, true, true, false, true].toArray := by
    decide +kernel
  obtain ⟨bits, others, hbits, hothers, hword, happend, -, -⟩ :=
    appends_and_copies hv hother .unlimited
  cases hread.symm.trans hbits
  cases hread'.symm.trans hothers
  obtain ⟨-, others, -, hothers, -, -, hcopy, hcopyRange⟩ :=
    appends_and_copies hv hother (.upTo 32)
  cases hread'.symm.trans hothers
  let room : WordVec flat.Store := ⟨(⟨⟨#[], 4⟩⟩ : Flat), 0⟩
  have hroom : WordVec.withCapacity (.upTo 32) 4 = .ok room := rfl
  exact ⟨hv, hother, hword (BitVec.allOnes 64) 5 (by decide) (by decide +kernel),
    happend (by decide +kernel), hcopy room rfl,
    (hcopyRange 2 6 (by decide) (by decide) room hroom).1 (by decide)⟩

/-- The last ten of as many ones as there can be are not copied, though a vector has room for
them: the one window that they lie in would end past the largest position if it were full. -/
theorem copyRange_given_up :
    let other : Uniform := ⟨maxPosition, true⟩
    let lo := maxPosition - 10
    Readable other ∧ checkRange lo maxPosition (Bits.source other).length = .ok () ∧
      (WordVec.withCapacity .unlimited (maxPosition - lo) : Answer (WordVec flat.Store)).isOk ∧
      (Bits.source other).copyRange .unlimited lo maxPosition = .error (.overflow .sum) :=
  ⟨.uniform _, by decide +kernel, by decide +kernel, by decide +kernel⟩

end StoreKind

end PackedBits
