import PackedBits.Part
import PackedBits.Proofs.WordBuildLaw

/-!
# A part of a lawful vector is lawful

The bits of the vector behind are the bits before the part, the bits of the part
and the bits after it. A part follows the plans for its own bits and leaves the
other two stretches as they are, also where the bits after it are taken off and
put back. As the vector behind may itself be a part, this holds of parts of
parts to any depth.
-/

namespace PackedBits

namespace Part

variable {V : Type}

/-! ## The bits of a part -/

/-- A part has the bits `middle` of a vector that has the bits `front`, `middle`
and `back`. -/
structure Framed (holds : V → List Bool → Prop) (front back : List Bool) (p : Part V)
    (middle : List Bool) : Prop where
  holds_backing : holds p.backing (front ++ middle ++ back)
  start_eq : p.start = front.length
  stop_eq : p.stop = front.length + middle.length

variable {holds : V → List Bool → Prop} {refused : Part V → Prop} {front back middle : List Bool}
  {p : Part V} {α : Type}

theorem Framed.length_eq [Bits V] (hp : Framed holds front back p middle) :
    p.length = middle.length := by
  rw [Part.length, hp.start_eq, hp.stop_eq, Nat.add_sub_cancel_left]

theorem Framed.bit_eq [Bits V]
    (hreads : ∀ {v bits}, holds v bits → (Bits.source v).Reads bits)
    (hp : Framed holds front back p middle) {i : Nat} {b : Bool} (hb : middle[i]? = some b) :
    p.bit i = .ok b := by
  have hi : i < middle.length := (List.getElem?_eq_some_iff.mp hb).1
  have hcheck : checkIndex i p.length = .ok () := require_eq_ok_iff.mpr (hp.length_eq ▸ hi)
  rw [Part.bit, hcheck, hp.start_eq]
  exact (hreads hp.holds_backing).bit_eq
    ((getElem?_framed_add front middle back hi).trans hb)

theorem Framed.bit_past [Bits V] (hp : Framed holds front back p middle) {i : Nat}
    (hi : middle.length ≤ i) : p.bit i = .error (.indexOutOfBounds i middle.length) := by
  have hcheck : checkIndex i p.length = .error (.indexOutOfBounds i middle.length) :=
    require_eq_error_iff.mpr ⟨Nat.not_lt.mpr (hp.length_eq ▸ hi), by rw [hp.length_eq]⟩
  rw [Part.bit, hcheck]
  rfl

theorem Framed.reads [Bits V]
    (hreads : ∀ {v bits}, holds v bits → (Bits.source v).Reads bits)
    (hp : Framed holds front back p middle) : (Bits.source p).Reads middle where
  length_eq := hp.length_eq
  bit_eq hb := hp.bit_eq hreads hb
  window_eq lo hi hle hhi hspan := by
    have hcheck : checkWindow lo hi p.length = .ok () :=
      checkWindow_eq_ok_iff.mpr ⟨hle, hp.length_eq ▸ hhi, hspan⟩
    obtain ⟨w, hread, hw⟩ := (hreads hp.holds_backing).window_eq (front.length + lo)
      (front.length + hi) (by omega) (by rw [List.length_append, List.length_append]; omega)
      (by omega)
    refine ⟨w, ?_, fun j => ?_⟩
    · have hwindow : Bits.window p lo hi = p.window lo hi := rfl
      rw [Bits.window_source, hwindow, Part.window, hcheck, hp.start_eq]
      exact hread
    · rw [hw, show front.length + hi - (front.length + lo) = hi - lo by omega]
      rcases Nat.lt_or_ge j (hi - lo) with hj | hj
      · rw [Nat.add_assoc, getElem?_framed_add front middle back (by omega)]
      · rw [decide_eq_false (Nat.not_lt.mpr hj), Bool.false_and, Bool.false_and]

theorem Framed.resized_stop (hp : Framed holds front back p middle) :
    resized p.stop false (front ++ middle ++ back) = front ++ middle := by
  rw [hp.stop_eq, ← List.length_append, resized_length_append]

/-! ## Changing in place -/

theorem editsPiece_onBacking (edit : Edit V α) (p : Part V) :
    (onBacking edit).EditsPiece p edit p.backing
      fun backing => ⟨backing, p.start, p.stop⟩ where
  ok hrun := by simp only [Part.onBacking, hrun]
  error hrun := by simp only [Part.onBacking, hrun]

theorem editsPiece_onBackingFrom (edit : Nat → Edit V α) (p : Part V) :
    (onBackingFrom edit).EditsPiece p (edit p.start) p.backing
      fun backing => ⟨backing, p.start, p.stop⟩ where
  ok hrun := (editsPiece_onBacking _ p).ok hrun
  error hrun := (editsPiece_onBacking _ p).error hrun

/-- What an edit of the vector behind does to the part, where its plan says the
same of the bits of the part. -/
theorem Framed.onBackingFrom (hp : Framed holds front back p middle) {edit : Nat → Edit V α}
    {outer plan : Plan α} (h : Follows holds (fun _ => False) (edit front.length) outer)
    (hplan : outer (front ++ middle ++ back) =
      (do let (a, bits) ← plan middle; return (a, front ++ bits ++ back)))
    (hlength : ∀ a bits, plan middle = .ok (a, bits) → bits.length = middle.length) :
    FollowsAt (Framed holds front back) (fun _ => False) (onBackingFrom edit) plan p middle := by
  obtain ⟨backing, start, stop⟩ := p
  obtain ⟨hbacking, hstart, hstop⟩ := hp
  have hstart : start = front.length := hstart
  subst hstart
  have hpiece := editsPiece_onBackingFrom edit (⟨backing, front.length, stop⟩ : Part V)
  rcases hmiddle : plan middle with failure | ⟨a, bits⟩
  · rw [hmiddle] at hplan
    exact followsAt_error (hpiece.error (h.error hbacking hplan)) hmiddle
  · rw [hmiddle] at hplan
    obtain ⟨w, hrun, hw⟩ := h.exists_ok hbacking hplan
    refine followsAt_of_yields hmiddle (Edit.yields_of_ok (hpiece.ok hrun) ⟨rfl, hw, rfl, ?_⟩)
    rw [hlength a bits hmiddle]
    exact hstop

/-- An edit of the vector behind leaves the bounds alone, also where it fails. -/
theorem yields_onBacking {edit : Edit V α} {post : α → V → Prop}
    {failed : Failure → Part V → Prop}
    (h : edit.Yields p.backing post fun failure w => failed failure ⟨w, p.start, p.stop⟩) :
    (onBacking edit).Yields p (fun a q => post a q.backing ∧ q.start = p.start ∧ q.stop = p.stop)
      failed := by
  refine (editsPiece_onBacking edit p).yields (h.imp fun a w hw => ?_)
  exact ⟨hw, rfl, rfl⟩

theorem Framed.yields_onBackingFrom (hp : Framed holds front back p middle)
    (edit : Nat → Edit V α) {plan : Plan α} {refused : V → Prop} {a : α} {bits : List Bool}
    (h : Follows holds refused (edit front.length) plan)
    (hplan : plan (front ++ middle ++ back) = .ok (a, bits)) :
    (Part.onBackingFrom edit).Yields p
      (fun b q => b = a ∧ holds q.backing bits ∧ q.start = front.length ∧
        q.stop = front.length + middle.length)
      fun failure q => failure.isRefusal = true ∧ refused q.backing := by
  have hrun : Part.onBackingFrom edit p = onBacking (edit front.length) p := by
    rw [← hp.start_eq]
    rfl
  refine Edit.yields_congr hrun ((yields_onBacking (h.yields hp.holds_backing hplan)).imp ?_)
  rintro b q ⟨hq, hstart, hstop⟩
  exact ⟨hq.1, hq.2, hstart.trans hp.start_eq, hstop.trans hp.stop_eq⟩

/-- A position past the end of the part is refused before anything is done. -/
theorem Framed.inspectIndex [Bits V] (hp : Framed holds front back p middle)
    {edit : Edit (Part V) α} {plan : Plan α} {i : Nat}
    (hpast : middle.length ≤ i → plan middle = .error (.indexOutOfBounds i middle.length))
    (hin : i < middle.length → FollowsAt (Framed holds front back) refused edit plan p middle) :
    FollowsAt (Framed holds front back) refused
      (do Edit.inspect fun p : Part V => checkIndex i p.length; edit) plan p middle := by
  rcases Nat.lt_or_ge i middle.length with hi | hi
  · have hcheck : checkIndex i p.length = .ok () := require_eq_ok_iff.mpr (hp.length_eq ▸ hi)
    exact followsAt_congr (Edit.inspect_bind_ok hcheck) rfl (hin hi)
  · have hcheck : checkIndex i p.length = .error (.indexOutOfBounds i middle.length) :=
      require_eq_error_iff.mpr ⟨Nat.not_lt.mpr (hp.length_eq ▸ hi), by rw [hp.length_eq]⟩
    exact followsAt_error (Edit.inspect_bind_error hcheck) (hpast hi)

section

variable [ResizableBits V]

theorem follows_set (h : Lawful holds) (i : Nat) (b : Bool) :
    Follows (Framed holds front back) (fun _ => False) (set i b) (Plan.set i b) := by
  intro p middle hp
  refine hp.inspectIndex (fun hpast => ?_) fun hi => ?_
  · exact Plan.set_past hpast b
  · have hold := List.getElem?_eq_getElem hi
    refine hp.onBackingFrom (h.set (front.length + i) b) ?_ ?_
    · rw [Plan.set, Plan.set, getElem?_framed_add front middle back hi, hold,
        set_framed front middle back b hi]
      rfl
    · intro a bits hplan
      cases (Plan.set_of_some hold b).symm.trans hplan
      exact List.length_set

theorem follows_setBits (h : Lawful holds) (lo width : Nat) (value : Word) :
    Follows (Framed holds front back) (fun _ => False) (setBits lo width value)
      (Plan.setBits lo width value) := by
  intro p middle hp
  refine followsAt_inspect (checkWindow lo (lo + width)) hp.length_eq fun hwindow => ?_
  obtain ⟨hle, hhi, hspan⟩ := checkWindow_eq_ok_iff.mp hwindow
  refine hp.onBackingFrom (h.setBits (front.length + lo) width value) ?_ ?_
  · have houter : checkWindow (front.length + lo) (front.length + lo + width)
        (front ++ middle ++ back).length = .ok () := by
      rw [checkWindow_eq_ok_iff, List.length_append, List.length_append]
      omega
    rw [Plan.setBits, houter, Nat.add_assoc, rewritten_framed front middle back _ _ hhi]
    cases checkValue value width <;> rfl
  · intro a bits hplan
    cases hvalue : checkValue value width with
    | error failure =>
      rw [hvalue] at hplan
      cases hplan
    | ok _ =>
      rw [hvalue] at hplan
      cases hplan
      exact length_rewritten ..

/-- A range of the part is a range of the vector behind. -/
theorem Framed.onRange (hp : Framed holds front back p middle) (edit : Nat → Edit V Unit)
    (g : Bool → Bool) (lo hi : Nat) (h : Follows holds (fun _ => False) (edit front.length)
      fun bits => do
        checkRange (front.length + lo) (front.length + hi) bits.length
        return ((), rewritten (front.length + lo) (front.length + hi) (fun _ => g) bits)) :
    FollowsAt (Framed holds front back) (fun _ => False)
      (do Edit.inspect fun p : Part V => checkRange lo hi p.length; Part.onBackingFrom edit)
      (fun bits => do
        checkRange lo hi bits.length
        return ((), rewritten lo hi (fun _ => g) bits)) p middle := by
  refine followsAt_inspect (checkRange lo hi) hp.length_eq fun hrange => ?_
  obtain ⟨hle, hhi⟩ := require_eq_ok_iff.mp hrange
  refine hp.onBackingFrom h ?_ ?_
  · have houter : checkRange (front.length + lo) (front.length + hi)
        (front ++ middle ++ back).length = .ok () := by
      rw [checkRange, require_eq_ok_iff, List.length_append, List.length_append]
      omega
    rw [houter, rewritten_framed front middle back _ _ hhi]
    rfl
  · intro a bits hplan
    cases hplan
    exact length_rewritten ..

theorem follows_fillRange (h : Lawful holds) (lo hi : Nat) (b : Bool) :
    Follows (Framed holds front back) (fun _ => False) (fillRange lo hi b)
      (Plan.fillRange lo hi b) :=
  fun _ _ hp => hp.onRange (fun start => MutableBits.fillRange (start + lo) (start + hi) b)
    (fun _ => b) lo hi (h.fillRange _ _ b)

theorem follows_flipRange (h : Lawful holds) (lo hi : Nat) :
    Follows (Framed holds front back) (fun _ => False) (flipRange lo hi)
      (Plan.flipRange lo hi) :=
  fun _ _ hp => hp.onRange (fun start => MutableBits.flipRange (start + lo) (start + hi))
    (fun b => !b) lo hi (h.flipRange _ _)

/-- A window of a part is combined with the same window of a source and written
back as a field. -/
theorem Framed.combineWindow (h : Lawful holds) (hp : Framed holds front back p middle)
    (op : Connective) {source : Source} {other : List Bool} (hsource : source.Reads other)
    {lo hi : Nat} (hle : lo ≤ hi) (hhi : hi ≤ middle.length) (hhi' : hi ≤ other.length)
    (hspan : hi - lo ≤ 64) {failed : Failure → Part V → Prop} :
    (do
      let mine ← Edit.inspect fun p : Part V => p.window lo hi
      setBits lo (hi - lo) (op.onWords mine (← source.window lo hi)) : Edit (Part V) Unit).Yields p
      (fun _ q => Framed holds front back q
        (rewritten lo hi (fun k b => op.onBits b (other[lo + k]?.getD false)) middle)) failed := by
  obtain ⟨mine, hmine, hbits⟩ := (hp.reads h.reads).window_eq lo hi hle hhi hspan
  obtain ⟨theirs, htheirs, hbits'⟩ := hsource.window_eq lo hi hle hhi' hspan
  have hnarrow : Word.Narrow (hi - lo) (op.onWords mine theirs) :=
    op.narrow_onWords (Word.narrow_of_window hbits) (Word.narrow_of_window hbits')
  obtain ⟨q, hrun, hq⟩ := (follows_setBits h lo (hi - lo) (op.onWords mine theirs)).exists_ok hp
    (Plan.setBits_of_narrow (by omega) hspan hnarrow)
  refine Edit.yields_inspect_bind hmine ?_
  refine Edit.yields_liftM_bind_ok htheirs (Edit.yields_of_ok hrun ?_)
  rw [Nat.add_sub_cancel' hle] at hq
  rwa [rewritten_congr fun k b hk hb => ?_] at hq
  rw [Connective.getLsbD_onWords, hbits, hbits', hb, decide_eq_true hk, Bool.true_and,
    Bool.true_and, Option.getD_some]

/-- The part is combined window by window. -/
theorem follows_combine (h : Lawful holds) (op : Connective) {source : Source} {other : List Bool}
    (hsource : source.Reads other) :
    Follows (Framed holds front back) (fun _ => False) (combine op source)
      (Plan.combine op other) := by
  intro p middle hp
  refine followsAt_view rfl (followsAt_of_yields rfl ?_)
  rw [hsource.length_eq, hp.length_eq]
  refine (Edit.yields_visitWindows (fun m (q : Part V) => Framed holds front back q
    (rewritten 0 m (fun k b => op.onBits b (other[k]?.getD false)) middle))
    (Nat.zero_le _) ?_ ?_).imp fun _ q hq => ⟨rfl, hq⟩
  · rwa [rewritten_of_le (Nat.le_refl 0)]
  · intro k hk q hq
    have hlength : (rewritten 0 (0 + 64 * k) (fun k b => op.onBits b (other[k]?.getD false))
        middle).length = middle.length := length_rewritten ..
    refine (hq.combineWindow h op hsource (by omega) (by omega) (by omega) (by omega)).imp
      fun _ r hr => ?_
    rwa [rewritten_rewritten (by omega) fun i b hlo _ _ => by rw [Nat.add_sub_cancel' hlo]] at hr

/-! ## Growing and shrinking -/

theorem follows_insert (h : Lawful holds) (memory : Allocator) (i : Nat) (b : Bool) :
    Follows (Framed holds front back) (fun _ => True) (insert memory i b) (Plan.insert i b) := by
  intro p middle hp
  refine followsAt_inspect (checkInsertIndex i) hp.length_eq fun hcheck => ?_
  have hle : i ≤ middle.length := require_eq_ok_iff.mp hcheck
  have houter : Plan.insert (front.length + i) b (front ++ middle ++ back) =
      .ok ((), front ++ middle.insertIdx i b ++ back) := by
    have hinside : front.length + i ≤ (front ++ middle ++ back).length := by
      rw [List.length_append, List.length_append]
      omega
    rw [Plan.insert_of_le hinside, insertIdx_framed front middle back b hle]
  apply followsAt_of_yields rfl
  refine ((hp.yields_onBackingFrom
    (fun start => ResizableBits.insert memory (start + i) b) (h.insert memory _ b) houter).mono
    (fun _ _ hq => hq) fun _ _ hfailed => ⟨hfailed.1, trivial⟩).bind fun _ q hq => ?_
  refine Edit.yields_modify ⟨rfl, hq.2.1, hq.2.2.1, ?_⟩
  rw [List.length_insertIdx_of_le_length hle, ← Nat.add_assoc]
  exact congrArg (· + 1) hq.2.2.2

theorem follows_remove (h : Lawful holds) (i : Nat) :
    Follows (Framed holds front back) (fun _ => False) (remove i) (Plan.remove i) := by
  intro p middle hp
  refine hp.inspectIndex (fun hpast => ?_) fun hi => ?_
  · exact Plan.remove_past hpast
  · have hold := List.getElem?_eq_getElem hi
    have houter : Plan.remove (front.length + i) (front ++ middle ++ back) =
        .ok (middle[i], front ++ middle.eraseIdx i ++ back) := by
      rw [Plan.remove_of_some ((getElem?_framed_add front middle back hi).trans hold),
        eraseIdx_framed front middle back hi]
    refine followsAt_of_yields (Plan.remove_of_some hold) ?_
    refine ((hp.yields_onBackingFrom (fun start => ResizableBits.remove (start + i)) (h.remove _)
      houter).mono
      (fun _ _ hq => hq) fun _ _ hfailed => hfailed).bind fun _ q hq => ?_
    refine Edit.yields_bind_ok rfl (Edit.yields_pure ⟨hq.1, hq.2.1, hq.2.2.1, ?_⟩)
    rw [List.length_eraseIdx_of_lt hi, ← Nat.add_sub_assoc (by omega)]
    exact congrArg (· - 1) hq.2.2.2

section EndEdit

variable {edit : Edit V Unit} {bits : List Bool} {failed : Failure → Part V → Prop}

/-- The end of a part that ends with the vector behind is moved by an edit of the
end of that vector. -/
theorem yields_reachEnd (hlength : ∀ {v bits}, holds v bits → Bits.length v = bits.length)
    (hedit : edit.Yields p.backing (fun _ w => holds w (front ++ bits))
      fun failure w => failed failure ⟨w, p.start, p.stop⟩)
    (hstart : p.start = front.length) :
    (onBacking edit >>= fun _ => reachEnd).Yields p (fun _ q => Framed holds front [] q bits)
      failed := by
  refine (yields_onBacking hedit).bind ?_
  rintro _ q ⟨hq, hstart', -⟩
  refine Edit.yields_modify ⟨?_, hstart'.trans hstart, ?_⟩
  · rw [List.append_nil]
    exact hq
  · exact (hlength hq).trans List.length_append

/-- The bits after a part are taken off, and put back behind its new end. A step
that fails leaves the part with the bounds that it had at that step. -/
theorem Framed.yields_detached (hlength : ∀ {v bits}, holds v bits → Bits.length v = bits.length)
    (hp : Framed holds front back p middle) (memory : Allocator) {tail : Source}
    (hcut : (ResizableBits.setLength memory p.stop).Yields p.backing
      (fun _ w => holds w (front ++ middle)) fun failure w => failed failure ⟨w, p.start, p.stop⟩)
    (hedit : ∀ w, holds w (front ++ middle) → edit.Yields w (fun _ x => holds x (front ++ bits))
      fun failure x => failed failure ⟨x, p.start, p.stop⟩)
    (happend : ∀ w, holds w (front ++ bits) → (ResizableBits.append memory tail).Yields w
      (fun _ x => holds x (front ++ bits ++ back))
      fun failure x => failed failure ⟨x, p.start, front.length + bits.length⟩) :
    (do
      onBacking (ResizableBits.setLength memory p.stop)
      onBacking edit
      reachEnd
      onBacking (ResizableBits.append memory tail) : Edit (Part V) Unit).Yields p
      (fun _ q => Framed holds front back q bits) failed := by
  refine (yields_onBacking hcut).bind ?_
  rintro _ q ⟨hq, hstart, hstop⟩
  have hedit' := hedit q.backing hq
  rw [← hstart, ← hstop] at hedit'
  rw [← bind_assoc]
  refine (yields_reachEnd hlength hedit' (hstart.trans hp.start_eq)).bind fun _ r hr => ?_
  have hbits := hr.holds_backing
  rw [List.append_nil] at hbits
  have happend' := happend r.backing hbits
  rw [hp.start_eq.trans hr.start_eq.symm, ← hr.stop_eq] at happend'
  refine (yields_onBacking happend').imp ?_
  rintro _ x ⟨hx, hstart', hstop'⟩
  exact ⟨hx, hstart'.trans hr.start_eq, hstop'.trans hr.stop_eq⟩

/-- An edit of the end of a part, step by step: the bits after the part are copied
and cut off, the vector behind is edited, and the copy is put back. -/
theorem Framed.yields_endSteps
    (hreads : ∀ {v bits}, holds v bits → (Bits.source v).Reads bits)
    (hp : Framed holds front back p middle) (memory : Allocator)
    (hcopy : ∀ failure, failure.isRefusal = true → failed failure p)
    (hcut : (ResizableBits.setLength memory p.stop).Yields p.backing
      (fun _ w => holds w (front ++ middle)) fun failure w => failed failure ⟨w, p.start, p.stop⟩)
    (hedit : ∀ w, holds w (front ++ middle) → edit.Yields w (fun _ x => holds x (front ++ bits))
      fun failure x => failed failure ⟨x, p.start, p.stop⟩)
    (happend : ∀ w tail, Source.Reads tail back → holds w (front ++ bits) →
      (ResizableBits.append memory tail).Yields w (fun _ x => holds x (front ++ bits ++ back))
        fun failure x => failed failure ⟨x, p.start, front.length + bits.length⟩) :
    (editEnd memory edit).Yields p (fun _ q => Framed holds front back q bits) failed := by
  have hstop := hp.stop_eq
  have hbits : (front ++ middle ++ back).length = front.length + middle.length + back.length := by
    rw [List.length_append, List.length_append]
  have hbacking := hp.holds_backing
  have hlength : Bits.length p.backing = (front ++ middle ++ back).length :=
    (hreads hbacking).length_eq
  refine Edit.yields_bind_ok rfl ?_
  show Edit.Yields (if p.stop = Bits.length p.backing then _ else _) p _ _
  split
  · have hnone : back = [] := List.eq_nil_of_length_eq_zero (by omega)
    subst hnone
    rw [List.append_nil] at hbacking
    exact yields_reachEnd (fun hv => (hreads hv).length_eq) (hedit p.backing hbacking) hp.start_eq
  · have hgrants := Source.grants_copyRange (hreads hbacking) memory
      (show p.stop ≤ (front ++ middle ++ back).length by omega) (Nat.le_refl _)
    rw [← hlength] at hgrants
    refine hgrants.yields_inspect rfl (fun tail htail => ?_) hcopy
    have hback : ((front ++ middle ++ back).take (Bits.length p.backing)).drop p.stop = back := by
      rw [hlength, List.take_length, List.drop_left' (by rw [List.length_append, hstop])]
    rw [hback] at htail
    exact hp.yields_detached (fun hv => (hreads hv).length_eq) memory hcut hedit fun w hw =>
      happend w _ htail.reads hw

end EndEdit

/-- An edit of the end of the part leaves the bits before it and after it. -/
theorem Framed.yields_editEnd (h : Lawful holds) (hp : Framed holds front back p middle)
    (memory : Allocator) {edit : Edit V Unit} {plan : Plan Unit}
    (hedit : Follows holds (fun _ => True) edit plan) {bits : List Bool}
    (hplan : plan (front ++ middle) = .ok ((), front ++ bits)) :
    (editEnd memory edit).Yields p (fun _ q => Framed holds front back q bits)
      fun failure _ => failure.isRefusal = true ∧ True := by
  refine hp.yields_endSteps h.reads memory (fun _ hrefused => ⟨hrefused, trivial⟩) ?_
    (fun w hw => ?_) fun w tail htail hw => ?_
  · have hcut := (h.setLength memory p.stop).yields hp.holds_backing rfl
    rw [hp.resized_stop] at hcut
    exact hcut.imp fun _ _ hx => hx.2
  · exact (hedit.yields hw hplan).imp fun _ _ hx => hx.2
  · exact ((h.append memory htail).yields hw rfl).imp fun _ _ hx => hx.2

theorem follows_setLength (h : Lawful holds) (memory : Allocator) (n : Nat) :
    Follows (Framed holds front back) (fun _ => True) (setLength memory n) (Plan.setLength n) := by
  intro p middle hp
  refine followsAt_view hp.start_eq (followsAt_of_yields rfl ?_)
  refine Edit.yields_liftM_bind (fun stop hstop => ?_) fun _ hsum =>
    ⟨plus_eq_error hsum ▸ rfl, trivial⟩
  have hplan : Plan.setLength stop (front ++ middle) =
      .ok ((), front ++ resized n false middle) := by
    rw [Plan.setLength, plus_eq_ok hstop, resized_length_add_append]
  exact (hp.yields_editEnd h memory (h.setLength memory _) hplan).imp fun _ _ hq => ⟨rfl, hq⟩

theorem follows_appendBits (h : Lawful holds) (memory : Allocator) (w : Word) (count : Nat) :
    Follows (Framed holds front back) (fun _ => True) (appendBits memory w count)
      (Plan.appendBits w count) := by
  intro p middle hp
  refine followsAt_view hp.length_eq (followsAt_liftM rfl fun hcount => ?_)
  apply followsAt_of_yields rfl
  have hplan : Plan.appendBits w count (front ++ middle) =
      .ok ((), front ++ (middle ++ (List.range count).map w.getLsbD)) := by
    rw [Plan.appendBits_of_le w (require_eq_ok_iff.mp hcount), List.append_assoc]
  exact (hp.yields_editEnd h memory (h.appendBits memory w count) hplan).imp fun _ _ hq => ⟨rfl, hq⟩

/-- A part of a lawful vector is lawful, whatever stands before and after it. -/
theorem lawful (h : Lawful holds) (front back : List Bool) :
    Lawful (Framed holds front back) where
  reads hp := hp.reads h.reads
  bit_past hp hpast := hp.bit_past hpast
  set := follows_set h
  setBits := follows_setBits h
  fillRange := follows_fillRange h
  flipRange := follows_flipRange h
  combine op _ _ hsource := follows_combine h op hsource
  remove := follows_remove h
  setLength := follows_setLength h
  insert := follows_insert h
  push memory := follows_default_push Framed.length_eq memory (follows_insert h memory)
  appendBits := follows_appendBits h
  append memory _ _ hsource := follows_default_append memory (follows_appendBits h memory) hsource

end

end Part

end PackedBits
