import PackedBits.Proofs.Lasting
import PackedBits.Proofs.Reach

/-!
# Parts of parts

`Nested v bits around` says that `v` has the bits `bits`, and that it is a vector
on its own, where `around` is empty, or a part, to any depth, where `around` lists
the bits before and after the part at each level, the innermost first. What a
change does through a part it does to the bits of the part alone, the same that
it does to a vector on its own: every level keeps the bits around it, and its
bounds move with the bits inside. `Nested.run_part` is that statement.
-/

namespace PackedBits

/-- The bits before a part and the bits after it. -/
abbrev Surroundings := List (List Bool × List Bool)

/-- A vector in good order, its bits, and the bits around it at each level. -/
inductive Nested : ∀ {V : Type} [ResizableBits V], V → List Bool → Surroundings → Prop where
  | words (kind : StoreKind) {v : WordVec kind.Store} {bits : List Bool} : kind.Reached v →
    Bits.toArray v = .ok bits.toArray → Nested v bits []
  | listed (v : BitList) : Nested v v.bits.toList []
  | part {V : Type} [ResizableBits V] {v : V} {front middle back : List Bool}
    {around : Surroundings} : Nested v (front ++ middle ++ back) around →
    Nested (Part.mk v front.length (front.length + middle.length)) middle ((front, back) :: around)

/-- A vector that begins with bits, and the bits before it at each level: what is known
of it where the bits after them may be gone. -/
inductive Rooted : ∀ {V : Type} [ResizableBits V], V → List Bool → List (List Bool) → Prop where
  | words (kind : StoreKind) {v : WordVec kind.Store} {bits more : List Bool} : kind.Reached v →
    Bits.toArray v = .ok (bits ++ more).toArray → Rooted v bits []
  | listed (v : BitList) {bits more : List Bool} : v.bits.toList = bits ++ more → Rooted v bits []
  | part {V : Type} [ResizableBits V] {v : V} {front middle : List Bool} {stop : Nat}
    {fronts : List (List Bool)} : Rooted v (front ++ middle) fronts →
    front.length + middle.length ≤ stop → Rooted (Part.mk v front.length stop) middle (front :: fronts)

namespace Nested

variable {V W : Type} [ResizableBits V] [ResizableBits W] {v : V} {w : W}
  {bits front middle back : List Bool} {around around' : Surroundings}

/-- Whatever the depth, the vector is lawful and its bits last: a vector that holds
other bits in the same way has the same bits around it, and one that begins with bits
has the same bits before it. -/
theorem exists_lasting (h : Nested v bits around) :
    ∃ holds begins : V → List Bool → Prop, Lasting holds begins ∧ holds v bits ∧
      (∀ v' bits', holds v' bits' → Nested v' bits' around) ∧
      ∀ v' bits', begins v' bits' → Rooted v' bits' (around.map Prod.fst) := by
  induction h with
  | @words kind v bits hreached hbits =>
    refine ⟨_, _, WordVec.lasting.and_kept WordVec.Reached.kept, ⟨hreached, ?_⟩, ?_, ?_⟩
    · obtain ⟨held, hheld⟩ := hreached.exists_bits
      rw [hheld.reads.toArray_eq] at hbits
      cases hbits
      exact hheld
    · exact fun v' bits' h => .words kind h.1 h.2.reads.toArray_eq
    · rintro v' bits' ⟨hreached', more, hmore⟩
      exact .words kind hreached' hmore.reads.toArray_eq
  | listed v =>
    refine ⟨_, _, BitList.lasting, rfl, fun v' bits' h => ?_, fun v' bits' h => ?_⟩
    · have hbits : v'.bits.toList = bits' := h
      exact hbits ▸ .listed v'
    · obtain ⟨more, hmore⟩ := h
      exact .listed v' hmore
  | @part V _ v front middle back around _ ih =>
    obtain ⟨holds, begins, hlasting, hv, hnested, hrooted⟩ := ih
    refine ⟨_, _, Part.lasting hlasting front back, ⟨hv, rfl, rfl⟩, ?_, ?_⟩
    · rintro ⟨v', start, stop⟩ middle' ⟨hv', hstart, hstop⟩
      cases (hstart : start = _)
      cases (hstop : stop = _)
      exact .part (hnested v' _ hv')
    · rintro ⟨v', start, stop⟩ middle' ⟨hv', hstart, hstop⟩
      cases (hstart : start = _)
      exact .part (hrooted v' _ hv') hstop

theorem exists_lawful (h : Nested v bits around) :
    ∃ holds : V → List Bool → Prop, Lawful holds ∧ holds v bits ∧
      ∀ v' bits', holds v' bits' → Nested v' bits' around := by
  obtain ⟨holds, _, hlasting, hv, hnested, _⟩ := h.exists_lasting
  exact ⟨holds, hlasting.lawful, hv, hnested⟩

theorem toArray_eq (h : Nested v bits around) : Bits.toArray v = .ok bits.toArray := by
  obtain ⟨holds, hlawful, hv, _⟩ := h.exists_lawful
  exact (hlawful.reads hv).toArray_eq

/-- A range of a vector is a part. -/
theorem part_of (h : Nested v (front ++ middle ++ back) around) :
    Part.of v front.length (front.length + middle.length) =
      .ok ⟨v, front.length, front.length + middle.length⟩ := by
  obtain ⟨holds, hlawful, hv, _⟩ := h.exists_lawful
  have hrange : checkRange front.length (front.length + middle.length) (Bits.length v) =
      .ok () := by
    rw [checkRange, require_eq_ok_iff, hlawful.length_eq hv, List.length_append,
      List.length_append]
    omega
  rw [Part.of, hrange]
  rfl

/-- A change made through a part does to the bits of the part what it does to
a vector on its own that has those bits: it gives the same reply, keeps the bits
before and after the part at every level and moves its end with the bits; and
what the vector on its own rejects, the part rejects for the same reason with
nothing changed. -/
theorem run_part (hv : Nested v (front ++ middle ++ back) around) (hw : Nested w middle around')
    {c : Change} (hc : c.Lawful) :
    let p : Part V := ⟨v, front.length, front.length + middle.length⟩
    Part.of v front.length (front.length + middle.length) = .ok p ∧
      (∀ memory memory' reply w', c.run memory' w = .ok reply w' → ¬(c.run memory).Refused p →
        ∃ v' middle', c.run memory p = .ok reply
            ⟨v', front.length, front.length + middle'.length⟩ ∧
          Nested v' (front ++ middle' ++ back) around ∧ Nested w' middle' around' ∧
          Bits.toArray v' = .ok (front ++ middle' ++ back).toArray ∧
          Bits.toArray w' = .ok middle'.toArray) ∧
      ∀ memory memory' failure w', c.run memory' w = .error failure w' →
        failure.isRefusal = false →
        failure.isValidation = true ∧ w' = w ∧ c.run memory p = .error failure p := by
  intro p
  obtain ⟨holds, hlawful, hheld, hnested⟩ := hv.exists_lawful
  obtain ⟨alone, halone, hw, hnested'⟩ := hw.exists_lawful
  have hframed : Part.Framed holds front back p middle := ⟨hheld, rfl, rfl⟩
  have hpart := Part.lawful hlawful front back
  refine ⟨hv.part_of, ?_, ?_⟩
  · intro memory memory' reply w' hrun hgranted
    obtain ⟨middle', hplan, hw'⟩ := c.plan_of_run_ok halone hc hw hrun
    obtain ⟨hrun', hframed'⟩ := c.run_of_plan hpart hc hframed hgranted hplan
    rcases hafter : (c.run memory).after p with ⟨v', start, stop⟩
    rw [hafter] at hrun' hframed'
    obtain ⟨hheld', hstart, hstop⟩ := hframed'
    cases (hstart : start = _)
    cases (hstop : stop = _)
    have hv' := hnested v' _ hheld'
    have hw' := hnested' w' middle' hw'
    exact ⟨v', middle', hrun', hv', hw', hv'.toArray_eq, hw'.toArray_eq⟩
  · intro memory memory' failure w' hrun hfailure
    obtain ⟨hplan, hsame⟩ := c.plan_of_run_error halone hc hw hrun hfailure
    exact ⟨c.validates_plan middle failure hplan, hsame,
      (c.follows_run hpart memory hc).error hframed hplan⟩

/-- A part of one bit in a part of three over a seam of words in segments, made
two bits longer. -/
theorem run_part_over_a_seam :
    let filled : Script := .andThen (.change .unlimited (.setLength 66) trivial)
      (.change .unlimited .flipAll trivial)
    let ground : WordVec (StoreKind.segmented 0).Store := filled.run.after WordVec.empty
    let v : Part (WordVec (StoreKind.segmented 0).Store) := ⟨ground, 62, 65⟩
    let p : Part (Part (WordVec (StoreKind.segmented 0).Store)) := ⟨v, 1, 2⟩
    let w : BitList := ⟨#[true], by decide⟩
    let w' : BitList := ⟨#[true, false, false], by decide⟩
    let c : Change := .setLength 3
    let around : Surroundings := [(List.replicate 62 true, [true])]
    Nested v ([true] ++ [true] ++ [true]) around ∧ Nested w [true] [] ∧ c.Lawful ∧
      c.run .unlimited w = .ok .done w' ∧ ¬(c.run .unlimited).Refused p ∧
      ∃ v' middle', c.run .unlimited p = .ok .done ⟨v', 1, 1 + middle'.length⟩ ∧
        Nested v' ([true] ++ middle' ++ [true]) around ∧ Nested w' middle' [] ∧
        Bits.toArray v' = .ok ([true] ++ middle' ++ [true]).toArray ∧
        Bits.toArray w' = .ok middle'.toArray := by
  intro filled ground v p w w' c around
  have hbits : Bits.toArray ground = .ok (List.replicate 66 true).toArray := by decide +kernel
  have hground : Nested ground (List.replicate 62 true ++ [true, true, true] ++ [true]) [] :=
    .words (.segmented 0) (.script filled .empty) hbits
  have hv : Nested v ([true] ++ [true] ++ [true]) around := .part hground
  have hw : Nested w [true] [] := .listed w
  have hrun : c.run .unlimited w = .ok .done w' := rfl
  have hgranted : ¬(c.run .unlimited).Refused p := by decide +kernel
  obtain ⟨_, hnext, _⟩ := run_part hv hw (c := c) trivial
  exact ⟨hv, hw, trivial, hrun, hgranted, hnext _ _ _ _ hrun hgranted⟩

end Nested

end PackedBits
