import PackedBits.Proofs.Growth

/-!
# Changes of length that are refused through a part

A change of length through a part works out its new end, copies the bits after the part
and takes them off before it asks for room. Where the end or the copy is refused nothing has
changed; where a later step is, the bits before the part and those of the part that the change keeps are where
they were, at every level, and the bits after it may be gone. `Nested.refused_length`
says so of a part at any depth, and `StoreKind.refused_length_exact` tells exactly what is
left of a vector of words behind a part: of its own bits, none after the part.
-/

namespace PackedBits

open PositionSet (Cut)

/-! ## Changes of length -/

/-- An edit that sets the length of a vector, or may lengthen it to a position. -/
inductive Stretch where
  | setLength (n : Nat)
  | insertPosition (cuts : List Cut) (i : Nat)
  | resizeNumbers (width n : Nat)

namespace Stretch

/-- The length that is asked for. -/
def length : Stretch → Nat
  | setLength n => n
  | insertPosition _ i => i + 1
  | resizeNumbers width n => n * width

/-- Makes the edit. -/
def run (memory : Allocator) : Stretch → ∀ {V : Type} [ResizableBits V], Edit V Unit
  | setLength n => ResizableBits.setLength memory n
  | insertPosition cuts i => discard (PositionSet.inside cuts (PositionSet.insert memory i))
  | resizeNumbers width n => FieldList.within width (FieldList.resize memory n)

variable {V : Type} [ResizableBits V] {holds : V → List Bool → Prop} {memory : Allocator}
  {v w : V} {bits : List Bool} {failure : Failure}

/-- A position is only refused where the vector has to be made longer for it. -/
theorem yields_raise_or (h : Lawful holds) (hv : holds v bits) (i : Nat) :
    (discard (PositionSet.raise memory i) : Edit V Unit).Yields v (fun _ _ => True)
      fun failure w => ResizableBits.setLength memory (i + 1) v = .error failure w := by
  refine Edit.Yields.discard (Edit.Yields.imp (PositionSet.yields_raise hv (h.length_eq hv)
    (fun _ => ?_) fun w front old hw hold => PositionSet.yields_put h hw hold) fun _ _ _ => trivial)
  have hgrow := (h.setLength memory (i + 1)).yields hv rfl
  rcases hrun : ResizableBits.setLength memory (i + 1) v with ⟨_, w⟩ | ⟨failure, w⟩
  · exact Edit.yields_of_ok hrun (hgrow.of_ok hrun).2
  · exact Edit.yields_of_error hrun rfl

/-- Whichever edit is refused, the vector itself was refused the length, unless a machine
word does not count it, which is found before anything is changed. -/
theorem setLength_of_refused (h : Lawful holds) (hv : holds v bits) {g : Stretch}
    (hrun : g.run memory v = .error failure w) (hrefused : failure.isRefusal = true) :
    ResizableBits.setLength memory g.length v = .error failure w ∨ w = v := by
  cases g with
  | setLength n => exact .inl hrun
  | insertPosition cuts i =>
    by_cases hin : PositionSet.Admitted cuts i
    · have hsame := Edit.discard_congr (PositionSet.inside_insert_eq memory v hin)
      exact .inl ((yields_raise_or h hv i).of_error (hsame.symm.trans hrun))
    · have hrejected : run memory (insertPosition cuts i) v = _ :=
        Edit.map_error (PositionSet.inside_insert_error memory v hin)
      cases hrejected.symm.trans hrun
      cases hrefused
  | resizeNumbers width n =>
    rcases hwidth : FieldList.checkWidth width with wrong | _
    · have hrejected : run memory (resizeNumbers width n) v = .error wrong v := by
        simp only [run, FieldList.within, hwidth]
      cases hrejected.symm.trans hrun
      rw [(require_eq_error_iff.mp hwidth).2.symm] at hrefused
      cases hrefused
    · have hsame : run memory (resizeNumbers width n) v = FieldList.setFields memory n width v :=
        ((FieldList.editsPiece_within _ hwidth v).trans
          (FieldList.editsPiece_resize memory n ⟨v, width⟩)).run_eq
      have hfields := hsame.symm.trans hrun
      cases hproduct : times n width with
      | ok m =>
        have hset : FieldList.setFields memory n width v = ResizableBits.setLength memory m v :=
          Edit.bind_ok (Edit.liftM_ok hproduct)
        rw [length, ← times_eq_ok hproduct]
        exact .inl (hset.symm.trans hfields)
      | error overflow =>
        have hset : FieldList.setFields memory n width v = .error overflow v :=
          Edit.bind_error (Edit.liftM_error hproduct)
        cases hset.symm.trans hfields
        exact .inr rfl

end Stretch

/-! ## At any depth -/

/-- The bits that a vector begins with are read at their positions. -/
theorem Rooted.bit_eq {V : Type} [ResizableBits V] {v : V} {bits : List Bool}
    {fronts : List (List Bool)} (h : Rooted v bits fronts) {i : Nat} {b : Bool}
    (hb : bits[i]? = some b) : Bits.bit v i = .ok b := by
  induction h generalizing i with
  | @words kind v bits more hreached hbits =>
    obtain ⟨held, hheld⟩ := hreached.exists_bits
    rw [hheld.reads.toArray_eq] at hbits
    cases hbits
    have hi : i < bits.length := (List.getElem?_eq_some_iff.mp hb).1
    exact hheld.reads.bit_eq ((List.getElem?_append_left hi).trans hb)
  | @listed v bits more hbits =>
    have hi : i < bits.length := (List.getElem?_eq_some_iff.mp hb).1
    exact BitList.Holds.bit_eq hbits ((List.getElem?_append_left hi).trans hb)
  | @part V _ v front middle stop fronts _ hstop ih =>
    have hi : i < middle.length := (List.getElem?_eq_some_iff.mp hb).1
    have hcheck : checkIndex i (stop - front.length) = .ok () :=
      require_eq_ok_iff.mpr (by omega)
    have hbit : Bits.bit (Part.mk v front.length stop) i = Bits.bit v (front.length + i) :=
      bind_of_ok hcheck
    have hplace : (front ++ middle)[front.length + i]? = some b := by
      rw [List.getElem?_append_right (Nat.le_add_right _ _), Nat.add_sub_cancel_left, hb]
    exact hbit.trans (ih hplace)

variable {V : Type} [ResizableBits V] {v : V} {front middle back : List Bool}
  {around : Surroundings} {memory : Allocator}

/-- Where the bits after a part cannot be copied, its length is not changed. -/
theorem Part.setLength_of_copy_error {p : Part V} {failure : Failure} {n : Nat}
    (hstop : p.stop ≠ Bits.length p.backing)
    (hcopy : (Bits.source p.backing).copyRange memory p.stop (Bits.length p.backing) =
      .error failure) :
    ∃ cause, Part.setLength memory n p = .error cause p := by
  rcases hsum : plus p.start n with cause | m
  · exact ⟨cause, (Edit.view_bind Part.start).trans (Edit.bind_error (Edit.liftM_error hsum))⟩
  refine ⟨failure, (Edit.view_bind Part.start).trans ?_⟩
  refine (Edit.bind_ok (Edit.liftM_ok hsum)).trans ?_
  refine (Edit.bind_ok rfl :
    _ = (if p.stop = Bits.length p.backing then _ else _ : Edit _ _) p).trans ?_
  rw [if_neg hstop]
  exact Edit.inspect_bind_error hcopy

/-- A change of length that is refused memory through a part, at any depth: the bits
before the part at every level and those of the part that the change keeps are where they
were, and where the bits after the part could not be copied, everything is. -/
theorem Nested.refused_length (hv : Nested v (front ++ middle ++ back) around)
    (memory : Allocator) (g : Stretch) {failure : Failure} {q : Part V}
    (hrun : g.run memory (⟨v, front.length, front.length + middle.length⟩ : Part V) =
      .error failure q) (hrefused : failure.isRefusal = true) :
    Rooted q (middle.take g.length) (front :: around.map Prod.fst) ∧
      q.start = front.length ∧
      (∀ i b, i < g.length → middle[i]? = some b → Bits.bit q i = .ok b) ∧
      (back ≠ [] → ∀ cause, (Bits.source v).copyRange memory (front.length + middle.length)
        (Bits.length v) = .error cause →
          q = ⟨v, front.length, front.length + middle.length⟩) := by
  obtain ⟨holds, begins, hlasting, hheld, -, hrooted⟩ := hv.exists_lasting
  have hpart := Part.lasting hlasting front back
  have hframed : Part.Framed holds front back
      ⟨v, front.length, front.length + middle.length⟩ middle := ⟨hheld, rfl, rfl⟩
  have hfails := Stretch.setLength_of_refused hpart.lawful hframed hrun hrefused
  have hrest : Part.Begins begins front q (middle.take g.length) := by
    obtain hset | rfl := hfails
    · exact ((hpart.setLength memory g.length hframed).of_error hset).2
    · have hsplit : Part.Framed holds front back
          ⟨v, front.length, front.length + middle.length⟩
          (middle.take g.length ++ middle.drop g.length) := by
        rwa [List.take_append_drop]
      exact hpart.of_holds hsplit
  have hroots : Rooted q (middle.take g.length) (front :: around.map Prod.fst) := by
    obtain ⟨v', start, stop⟩ := q
    obtain ⟨hbegins, hstart, hstop⟩ := hrest
    cases (hstart : start = _)
    exact .part (hrooted v' _ hbegins) hstop
  refine ⟨hroots, hrest.start_eq, fun i b hi hb => ?_, fun hback cause hcopy => ?_⟩
  · exact hroots.bit_eq ((List.getElem?_take_of_lt hi).trans hb)
  · obtain hset | rfl := hfails
    swap
    · rfl
    have hlength : Bits.length v = (front ++ middle ++ back).length := by
      exact hlasting.lawful.length_eq hheld
    have hpos := List.length_pos_iff.mpr hback
    rw [List.length_append, List.length_append] at hlength
    obtain ⟨_, hsame⟩ := Part.setLength_of_copy_error (n := g.length)
      (p := ⟨v, front.length, front.length + middle.length⟩)
      (show front.length + middle.length ≠ Bits.length v by omega) hcopy
    cases hsame.symm.trans hset
    rfl

/-- A part of one bit in a part of three over a seam of words in segments, asked for a
thousand bits: the bits after both parts are gone, and those before them and in the
part are there. -/
theorem Nested.refused_length_over_a_seam :
    let filled : Script := .andThen (.change .unlimited (.setLength 66) trivial)
      (.change .unlimited .flipAll trivial)
    let ground : WordVec (StoreKind.segmented 0).Store := filled.run.after WordVec.empty
    let v : Part (WordVec (StoreKind.segmented 0).Store) := ⟨ground, 62, 65⟩
    let p : Part (Part (WordVec (StoreKind.segmented 0).Store)) := ⟨v, 1, 2⟩
    ∃ failure q, Stretch.run (.upTo 64) (.setLength 1000) p = .error failure q ∧
      failure.isRefusal = true ∧ Rooted q [true] [[true], List.replicate 62 true] ∧
      q.backing.backing.length = 64 := by
  intro filled ground v p
  have hbits : Bits.toArray ground = .ok (List.replicate 66 true).toArray := by decide +kernel
  have hground : Nested ground (List.replicate 62 true ++ [true, true, true] ++ [true]) [] :=
    .words (.segmented 0) (.script filled .empty) hbits
  have hv : Nested v ([true] ++ [true] ++ [true]) [(List.replicate 62 true, [true])] :=
    .part hground
  have hrefuses : ((Stretch.setLength 1000).run (.upTo 64)).Refused p := by decide +kernel
  have hlength : (((Stretch.setLength 1000).run (.upTo 64)).after p).backing.backing.length =
      64 := by decide +kernel
  obtain ⟨failure, q, hrun, hrefused⟩ := hrefuses
  rw [Edit.after_of_error hrun] at hlength
  obtain ⟨hroots, -⟩ := Nested.refused_length hv (.upTo 64) (.setLength 1000) hrun hrefused
  exact ⟨failure, q, hrun, hrefused, hroots, hlength⟩

/-- Of the four bits 1001, a part of the first one is refused a thousand bits, and the
three bits after it are lost. -/
theorem refused_length_loses_tail :
    let v : WordVec Flat := ⟨⟨Buffer.ofArray #[9#64]⟩, 4⟩
    let w : WordVec Flat := ⟨⟨Buffer.ofArray #[1#64]⟩, 1⟩
    StoreKind.flat.Reached v ∧ Part.of v 0 1 = .ok ⟨v, 0, 1⟩ ∧
      Bits.toArray v = .ok #[true, false, false, true] ∧
      (Stretch.setLength 1000).run (.upTo 64) (⟨v, 0, 1⟩ : Part (WordVec Flat)) =
        .error (.cannotGrow 1000) ⟨w, 0, 1⟩ ∧
      Bits.toArray w = .ok #[true] := by
  intro v w
  have hv : StoreKind.flat.Reached v := .ofWords #[9#64] 4 rfl
  have hfails : ((Stretch.setLength 1000).run (.upTo 64)).build (⟨v, 0, 1⟩ : Part (WordVec Flat)) =
      .error (.cannotGrow 1000) := by decide +kernel
  have hleft : ((Stretch.setLength 1000).run (.upTo 64)).after (⟨v, 0, 1⟩ : Part (WordVec Flat)) =
      ⟨w, 0, 1⟩ := by decide +kernel
  have hrun := Edit.build_eq_error.mp hfails
  rw [hleft] at hrun
  exact ⟨hv, rfl, by decide +kernel, hrun, by decide +kernel⟩

/-! ## Over words -/

/-- What is left of a part of a vector of words that was refused a length: everything,
where the bits after it could not be copied or its end would be past the largest position;
else the bits before it and its own, as they were or with the new length, and none of those
after it. -/
theorem StoreKind.refused_length_exact {kind : StoreKind} (hkind : kind.BuiltIn)
    {v : WordVec kind.Store} (hv : kind.Reached v)
    (hbits : Bits.toArray v = .ok (front ++ middle ++ back).toArray) (memory : Allocator)
    (g : Stretch) {failure : Failure} {q : Part (WordVec kind.Store)}
    (hrun : g.run memory (⟨v, front.length, front.length + middle.length⟩ :
      Part (WordVec kind.Store)) = .error failure q) (hrefused : failure.isRefusal = true) :
    q = ⟨v, front.length, front.length + middle.length⟩ ∨
      q.start = front.length ∧
        (q.stop = front.length + middle.length ∧
          Bits.toArray q.backing = .ok (front ++ middle).toArray ∨
        q.stop = front.length + g.length ∧
          Bits.toArray q.backing = .ok (front ++ resized g.length false middle).toArray) := by
  obtain ⟨room, hfits⟩ := hv.exists_room hkind
  obtain ⟨held, hheld⟩ := hv.exists_bits
  rw [hheld.reads.toArray_eq] at hbits
  cases hbits
  have hp : Part.Framed WordVec.Fitting front back
      ⟨v, front.length, front.length + middle.length⟩ middle := ⟨⟨hheld, hfits⟩, rfl, rfl⟩
  obtain hfails | rfl := Stretch.setLength_of_refused (Part.lawful WordVec.lawful front back)
    ⟨hheld, rfl, rfl⟩ hrun hrefused
  swap
  · exact .inl rfl
  have hset : (Part.setLength memory g.length).Yields
      (⟨v, front.length, front.length + middle.length⟩ : Part (WordVec kind.Store))
      (fun _ q => Part.Framed WordVec.Fitting front back q (resized g.length false middle))
      fun _ q => q = ⟨v, front.length, front.length + middle.length⟩ ∨
        q.start = front.length ∧
          (q.stop = front.length + middle.length ∧ q.backing.Fitting (front ++ middle) ∨
          q.stop = front.length + g.length ∧
            q.backing.Fitting (front ++ resized g.length false middle)) := by
    refine Edit.yields_congr (Edit.view_bind Part.start) ?_
    refine Edit.yields_liftM_bind (fun stop hstop => ?_) fun _ _ => .inl rfl
    cases plus_eq_ok hstop
    refine hp.yields_endSteps (fun hw => hw.holds.reads) memory (fun _ _ => .inl rfl) ?_
      (fun w hw => ?_) fun w tail htail hw => ?_
    · -- Cutting asks for no room.
      have hshort : (WordVec.setLength memory (front.length + middle.length)).Yields v
          (fun _ w => w.Holds (front ++ middle)) fun _ _ => False := by
        rw [← hp.resized_stop]
        refine hheld.setLength fun hlonger => ?_
        rw [List.length_append, List.length_append] at hlonger
        omega
      have hcut := hshort.both ((WordVec.steady_fits.kept.setLength memory
        (front.length + middle.length)).yields hfits)
      exact hcut.mono (fun _ _ hw => ⟨hw.1, hw.2⟩) fun _ _ hw => hw.1.elim
    · have hgrow := hw.setLength_or memory (front.length + g.length)
      rw [resized_length_add_append] at hgrow
      exact hgrow.mono (fun _ _ hx => hx) fun _ x hx => .inr ⟨rfl, .inl ⟨rfl, hx.2⟩⟩
    · refine (hw.append_or memory htail).mono (fun _ _ hx => hx) fun _ x hx => ?_
      exact .inr ⟨rfl, .inr ⟨by rw [length_resized], hx.2⟩⟩
  refine (hset.of_error hfails).imp_right fun hleft => ⟨hleft.1, hleft.2.imp ?_ ?_⟩
  · exact fun hkept => ⟨hkept.1, hkept.2.holds.reads.toArray_eq⟩
  · exact fun hgrown => ⟨hgrown.1, hgrown.2.holds.reads.toArray_eq⟩

end PackedBits
