import PackedBits.Proofs.PartSecure

/-!
# Walks, sets of positions and lists of numbers are safe

What stands on a vector that is safe to work on is safe: walks over its bits and over
the positions that hold a bit, stepped from either end in any order, the positions of
its ones as a set, within any bounds, and its bits as numbers of any width.
-/

namespace PackedBits

/-! ## Walks -/

theorem Edit.SafeAt.ask {V α : Type} {inv : V → Prop} {guarded plain : Edit V α} {v : V}
    {post : α → V → Prop} (h : Edit.SafeAt inv guarded plain v post) :
    SafeAnswer (guarded.ask v) (plain.ask v) := by
  have hsame := h.same
  have hyields := h.yields
  unfold Edit.ask
  rw [hsame]
  rcases hrun : plain v with ⟨a, w⟩ | ⟨failure, w⟩
  · exact safeAnswer_ok (a, w)
  · exact safeAnswer_of_ordinary (ordinary_error (hyields.of_error hrun).1)

theorem Edit.SafeAt.of_ask {V α : Type} {inv : V → Prop} {guarded plain : Edit V α} {v w : V}
    {a : α} {post : α → V → Prop} (h : Edit.SafeAt inv guarded plain v post)
    (hask : plain.ask v = .ok (a, w)) : inv w := by
  have hyields := h.yields
  unfold Edit.ask at hask
  rcases hrun : plain v with ⟨b, x⟩ | ⟨failure, x⟩
  · rw [hrun] at hask
    cases hask
    exact (hyields.of_ok hrun).1
  · rw [hrun] at hask
    cases hask

namespace Walk

variable {α : Type} {inv : Walk → Prop}

/-- A walk is as safe as its steps. -/
theorem safe_steps {next next' nextBack nextBack' : Edit Walk (Option α)}
    (hnext : Edit.Safe inv next next') (hback : Edit.Safe inv nextBack nextBack')
    (ends : List End) :
    Edit.Safe inv (steps next nextBack ends) (steps next' nextBack' ends) := by
  induction ends with
  | nil => exact Edit.safe_pure []
  | cons step ends ih =>
    cases step with
    | front => exact hnext.bind fun a => ih.bind fun items => Edit.safe_pure (a :: items)
    | back => exact hback.bind fun a => ih.bind fun items => Edit.safe_pure (a :: items)

/-- A walk whose front is not past its back. -/
def InOrder (w : Walk) : Prop := w.front ≤ w.back

theorem safe_next {read : Nat → Answer α} (hread : ∀ i, Ordinary (read i)) :
    Edit.Safe InOrder (next read) (next read) := by
  rintro w hw
  refine Edit.safeAt_of_yields ?_
  by_cases hdone : w.back ≤ w.front
  · exact Edit.yields_of_ok (if_pos hdone) ⟨hw, trivial⟩
  · have hleft : InOrder ⟨w.front + 1, w.back⟩ := Nat.lt_of_not_le hdone
    rcases hrun : read w.front with failure | a
    · refine Edit.yields_of_error (w := ⟨w.front + 1, w.back⟩) ?_ ⟨hread _ _ hrun, hleft⟩
      simp only [next, if_neg hdone, hrun]
    · refine Edit.yields_of_ok (a := some a) (w := ⟨w.front + 1, w.back⟩) ?_ ⟨hleft, trivial⟩
      simp only [next, if_neg hdone, hrun]

theorem safe_nextBack {read : Nat → Answer α} (hread : ∀ i, Ordinary (read i)) :
    Edit.Safe InOrder (guardedNextBack read) (nextBack read) := by
  rintro w hw
  rw [guardedNextBack_eq]
  refine Edit.safeAt_of_yields ?_
  by_cases hdone : w.back ≤ w.front
  · exact Edit.yields_of_ok (if_pos hdone) ⟨hw, trivial⟩
  · have hleft : InOrder ⟨w.front, w.back - 1⟩ := Nat.le_sub_one_of_lt (Nat.lt_of_not_le hdone)
    rcases hrun : read (w.back - 1) with failure | a
    · refine Edit.yields_of_error (w := ⟨w.front, w.back - 1⟩) ?_ ⟨hread _ _ hrun, hleft⟩
      simp only [nextBack, if_neg hdone, hrun]
    · refine Edit.yields_of_ok (a := some a) (w := ⟨w.front, w.back - 1⟩) ?_ ⟨hleft, trivial⟩
      simp only [nextBack, if_neg hdone, hrun]

/-- A walk over the first positions is stepped and its positions left are counted. -/
theorem safe_visit {read read' : Nat → Answer α} (hread : ∀ i, SafeAnswer (read i) (read' i))
    (ends : List End) (n : Nat) :
    SafeAnswer (guardedVisit read ends n) (visit read' ends n) := by
  obtain rfl : read = read' := funext fun i => (hread i).same
  have hsteps := safe_steps (safe_next fun i => (hread i).ordinary)
    (safe_nextBack fun i => (hread i).ordinary) ends (upTo n) (Nat.zero_le n)
  refine hsteps.ask.bind fun taken htaken => ?_
  have hleft : guardedRemaining taken.2 = .ok taken.2.remaining :=
    minus_of_le (hsteps.of_ask htaken)
  rw [hleft]
  exact safeAnswer_ok _

/-! ### Over the positions that hold a bit -/

section Holding

variable {V : Type} [Bits V] {v : V} {b : Bool} {w w' : Walk} {failure : Failure}

/-- A step from the front fails only where the scan does. -/
theorem next_of_nextHolding_error (h : nextHolding v b w = .error failure w') :
    Bits.next v b w.front = .error failure := by
  obtain ⟨front, back⟩ := w
  unfold nextHolding at h
  dsimp only at h
  split at h
  · cases h
  · split at h
    · rename_i hscan
      cases h
      exact hscan
    · cases h
    · split at h <;> cases h

theorem previous_of_nextBackHolding_error (h : nextBackHolding v b w = .error failure w') :
    Bits.previous v b w.back = .error failure := by
  obtain ⟨front, back⟩ := w
  unfold nextBackHolding at h
  dsimp only at h
  split at h
  · cases h
  · split at h
    · rename_i hscan
      cases h
      exact hscan
    · cases h
    · split at h <;> cases h

end Holding

end Walk

variable {V α : Type} {inv : V → Prop} {guarded : GuardedBits V} {plain : ResizableBits V}

namespace Secure

variable {v : V}

theorem safe_nextHolding (h : Secure guarded plain inv) (hv : inv v) (b : Bool) :
    Edit.Safe (fun _ => True) (@Walk.nextHolding V guarded.toBits v b) (Walk.nextHolding v b) := by
  have hsame : @Walk.nextHolding V guarded.toBits v b = Walk.nextHolding v b := by
    funext w
    simp only [Walk.nextHolding, fun i => (h.next b i v hv).same]
  rw [hsame]
  exact Edit.safe_of_errors fun w failure _ hrun =>
    (h.next b w.front v hv).ordinary failure (Walk.next_of_nextHolding_error hrun)

theorem safe_nextBackHolding (h : Secure guarded plain inv) (hv : inv v) (b : Bool) :
    Edit.Safe (fun _ => True) (@Walk.nextBackHolding V guarded.toBits v b)
      (Walk.nextBackHolding v b) := by
  have hsame : @Walk.nextBackHolding V guarded.toBits v b = Walk.nextBackHolding v b := by
    funext w
    simp only [Walk.nextBackHolding, fun i => (h.previous b i v hv).same]
  rw [hsame]
  exact Edit.safe_of_errors fun w failure _ hrun =>
    (h.previous b w.back v hv).ordinary failure (Walk.previous_of_nextBackHolding_error hrun)

theorem safe_visitHolding (h : Secure guarded plain inv) (hv : inv v) (b : Bool)
    (ends : List Walk.End) (w : Walk) :
    SafeAnswer (@Walk.visitHolding V guarded.toBits v b ends w) (Walk.visitHolding v b ends w) := by
  have hsteps := Walk.safe_steps (h.safe_nextHolding hv b) (h.safe_nextBackHolding hv b) ends
  exact (hsteps w trivial).ask.map Prod.fst

theorem safe_visitBits (h : Secure guarded plain inv) (hv : inv v) (ends : List Walk.End) (n : Nat) :
    SafeAnswer (Walk.guardedVisit (guarded.bit v) ends n) (Walk.visit (Bits.bit v) ends n) :=
  Walk.safe_visit (fun i => h.bit i v hv) ends n

theorem guardedBetween_eq (h : Secure guarded plain inv) (hv : inv v) (lo hi : Nat) :
    Walk.guardedBetween v lo hi = .ok (Walk.between v lo hi) :=
  bind_of_ok (h.measure hv)

end Secure

/-! ## Sets of positions -/

namespace PositionSet

variable {s : PositionSet V}

theorem guarded_reach (h : Secure guarded plain inv) (hs : inv s.backing) :
    Guarded.reach s = .ok s.reach :=
  bind_of_ok (h.measure hs)

theorem guarded_admits (h : Secure guarded plain inv) (hs : inv s.backing) (i : Nat) :
    Guarded.admits s i = .ok (s.admits i) :=
  bind_of_ok (guarded_reach h hs)

theorem safe_contains (h : Secure guarded plain inv) (hs : inv s.backing) (i : Nat) :
    SafeAnswer (Guarded.contains s i) (s.contains i) := by
  refine .given (guarded_admits h hs i) ?_
  unfold contains
  split
  · exact h.bit i s.backing hs
  · exact safeAnswer_ok false

theorem safe_size (h : Secure guarded plain inv) (hs : inv s.backing) :
    SafeAnswer (Guarded.size s) s.size := by
  refine .given (guarded_reach h hs) ?_
  unfold size
  split
  · exact safeAnswer_ok 0
  · refine (Part.safe_of h hs s.lower s.reach).bind fun p hp => ?_
    exact (Part.ordered_of_of hs hp).safe_countOnes h

theorem safe_first (h : Secure guarded plain inv) (hs : inv s.backing) :
    SafeAnswer (Guarded.first s) s.first :=
  .given (guarded_reach h hs) ((h.next true s.lower s.backing hs).map _)

theorem safe_last (h : Secure guarded plain inv) (hs : inv s.backing) :
    SafeAnswer (Guarded.last s) s.last :=
  .given (guarded_reach h hs) ((h.previous true s.reach s.backing hs).map _)

theorem safe_isEmpty (h : Secure guarded plain inv) (hs : inv s.backing) :
    SafeAnswer (Guarded.isEmpty s) s.isEmpty :=
  (safe_first h hs).map _

theorem guarded_walkFrom (h : Secure guarded plain inv) (hs : inv s.backing) (lo : Nat) :
    Guarded.walkFrom s lo = .ok (s.walkFrom lo) :=
  (bind_of_ok (guarded_reach h hs)).trans (h.guardedBetween_eq hs _ _)

/-! ### Editing -/

theorem safeAt_onBacking {edit edit' : Edit V α} (hs : inv s.backing)
    (hedit : Edit.Safe inv edit edit') :
    Edit.SafeAt (fun s => inv s.backing) (onBacking edit) (onBacking edit') s fun _ _ => True :=
  (hedit s.backing hs).piece (editsPiece_onBacking edit s) (editsPiece_onBacking edit' s)
    (fun _ hw => hw) fun _ _ _ _ => trivial

theorem safe_remove (h : Secure guarded plain inv) (i : Nat) :
    Edit.Safe (fun s : PositionSet V => inv s.backing) (Guarded.remove i) (remove i) := by
  refine Edit.safe_given (fun _ hs => guarded_admits h hs i) fun admitted => ?_
  split
  · exact fun _ hs => safeAt_onBacking hs (h.set i false)
  · exact Edit.safe_pure false

theorem safe_clear (h : Secure guarded plain inv) :
    Edit.Safe (fun s : PositionSet V => inv s.backing) Guarded.clear clear := by
  intro s hs
  have hguarded : Guarded.clear s =
      (if s.lower < s.reach then onBacking (guarded.fillRange s.lower s.reach false)
        else pure () : Edit _ _) s :=
    (Edit.view_bind PositionSet.lower).trans (Edit.inspect_bind_ok (guarded_reach h hs))
  have hplain : clear s =
      (if s.lower < s.reach then onBacking (MutableBits.fillRange s.lower s.reach false)
        else pure () : Edit _ _) s :=
    Edit.bind_ok rfl
  refine Edit.SafeAt.congr ?_ hguarded hplain
  split
  · exact safeAt_onBacking hs (h.fillRange s.lower s.reach false)
  · exact Edit.safe_pure () s hs

theorem safe_insert (h : Secure guarded plain inv) (memory : Allocator) (i : Nat) :
    Edit.Safe (fun s : PositionSet V => inv s.backing) (Guarded.insert memory i)
      (insert memory i) := by
  have hput : Edit.Safe (fun s : PositionSet V => inv s.backing)
      (do return !(← onBacking (guarded.set i true)))
      (do return !(← onBacking (MutableBits.set i true))) :=
    Edit.Safe.bind (fun _ hs => safeAt_onBacking hs (h.set i true)) fun old => Edit.safe_pure (!old)
  refine (Edit.safe_inspect fun _ _ => ?_).bind fun _ => ?_
  · exact safeAnswer_of_ordinary (ordinary_require _ rfl)
  · refine Edit.safe_given (fun _ hs => h.measure hs) fun n => ?_
    split
    · exact Edit.Safe.bind (fun _ hs => safeAt_onBacking hs (h.resize memory (i + 1))) fun _ => hput
    · exact hput

theorem safe_extend (h : Secure guarded plain inv) (memory : Allocator) (positions : List Nat) :
    Edit.Safe (fun s : PositionSet V => inv s.backing) (Guarded.extend memory positions)
      (extend memory positions) :=
  Edit.safe_forM (fun i => (safe_insert h memory i).discard) positions

/-- An edit of a set within bounds is an edit of the vector behind. -/
theorem safe_inside {edit edit' : Edit (PositionSet V) α} (cuts : List Cut)
    (hedit : Edit.Safe (fun s => inv s.backing) edit edit') :
    Edit.Safe inv (inside cuts edit) (inside cuts edit') := by
  intro v hv
  have hs : inv (cuts.foldl Cut.apply (of v)).backing := by
    rwa [backing_foldl_apply]
  exact (hedit _ hs).piece (editsPiece_inside cuts edit v)
    (editsPiece_inside cuts edit' v) (fun _ hs => hs) fun _ _ _ _ => trivial

end PositionSet

/-! ## Lists of numbers -/

namespace FieldList

variable {l : FieldList V}

theorem guarded_size (h : Secure guarded plain inv) (hl : inv l.backing) :
    Guarded.size l = .ok l.size :=
  bind_of_ok (h.measure hl)

theorem safe_field (h : Secure guarded plain inv) (hl : inv l.backing) (i : Nat) :
    SafeAnswer (@field V guarded.toBits l i) (l.field i) :=
  h.window (i * l.width) (i * l.width + l.width) l.backing hl

theorem safe_get? (h : Secure guarded plain inv) (hl : inv l.backing) (i : Nat) :
    SafeAnswer (Guarded.get? l i) (l.get? i) := by
  refine .given (guarded_size h hl) ?_
  unfold get?
  split
  · exact (safe_field h hl i).map some
  · exact safeAnswer_ok none

/-! ### Editing -/

theorem safeAt_onBacking {edit edit' : Edit V α} (hl : inv l.backing)
    (hedit : Edit.Safe inv edit edit') :
    Edit.SafeAt (fun l => inv l.backing) (onBacking edit) (onBacking edit') l fun _ _ => True :=
  (hedit l.backing hl).piece (editsPiece_onBacking edit l) (editsPiece_onBacking edit' l)
    (fun _ hw => hw) fun _ _ _ _ => trivial

theorem safe_set (h : Secure guarded plain inv) (i : Nat) (value : Word) :
    Edit.Safe (fun l : FieldList V => inv l.backing) (Guarded.set i value) (set i value) := by
  refine (Edit.safe_inspect fun _ hl => .given (guarded_size h hl) ?_).bind fun _ => ?_
  · exact safeAnswer_of_ordinary (ordinary_require _ rfl)
  · rw [Word.guardedCheckValue_eq]
    refine Edit.safe_view_bind fun l _ => (Edit.safe_liftM (ordinary_require _ rfl)).bind fun _ => ?_
    refine (Edit.safe_inspect fun _ hl => safe_field h hl i).bind fun old => ?_
    exact Edit.Safe.bind (fun _ hl => safeAt_onBacking hl (h.setBits _ _ value)) fun _ =>
      Edit.safe_pure old

theorem safe_setFields (h : Secure guarded plain inv) (memory : Allocator) (n width : Nat) :
    Edit.Safe inv (@setFields V guarded.toResizableBits memory n width)
      (setFields memory n width) :=
  (Edit.safe_liftM (ordinary_times n width)).bind fun bits => h.resize memory bits

theorem safe_resize (h : Secure guarded plain inv) (memory : Allocator) (n : Nat) :
    Edit.Safe (fun l : FieldList V => inv l.backing)
      (@resize V guarded.toResizableBits memory n) (resize memory n) :=
  Edit.safe_view_bind fun l _ _ hl => safeAt_onBacking hl (safe_setFields h memory n l.width)

theorem safe_push (h : Secure guarded plain inv) (memory : Allocator) (value : Word) :
    Edit.Safe (fun l : FieldList V => inv l.backing) (Guarded.push memory value)
      (push memory value) := by
  intro l hl
  unfold Guarded.push
  rw [Word.guardedCheckValue_eq]
  refine Edit.SafeAt.congr ?_
    ((Edit.view_bind FieldList.width).trans (Edit.inspect_bind_ok (guarded_size h hl)))
    (Edit.bind_ok rfl)
  refine Edit.Safe.bind (Edit.safe_liftM (ordinary_require _ rfl)) (fun _ => ?_) l hl
  refine (safe_resize h memory l.size).bind fun _ _ hl => ?_
  exact safeAt_onBacking hl (h.extend memory value l.width)

theorem safe_pop (h : Secure guarded plain inv) (memory : Allocator) :
    Edit.Safe (fun l : FieldList V => inv l.backing) (Guarded.pop memory) (pop memory) := by
  refine Edit.safe_given (fun _ hl => guarded_size h hl) fun n => ?_
  split
  · exact Edit.safe_pure none
  · rename_i hne
    rw [minus_of_le (Nat.pos_of_ne_zero hne), Edit.liftM_ok_bind]
    refine (Edit.safe_inspect fun _ hl => safe_field h hl (n - 1)).bind fun number => ?_
    exact (safe_resize h memory (n - 1)).bind fun _ => Edit.safe_pure (some number)

theorem safe_extend (h : Secure guarded plain inv) (memory : Allocator) (values : List Word) :
    Edit.Safe (fun l : FieldList V => inv l.backing) (Guarded.extend memory values)
      (extend memory values) :=
  Edit.safe_forM (safe_push h memory) values

/-- An edit of a list of numbers is an edit of the vector behind. -/
theorem safe_within {edit edit' : Edit (FieldList V) α} (width : Nat)
    (hedit : Edit.Safe (fun l => inv l.backing) edit edit') :
    Edit.Safe inv (within width edit) (within width edit') := by
  intro v hv
  rcases hwidth : checkWidth width with failure | _
  · have hfailed : ∀ edit : Edit (FieldList V) α, within width edit v = .error failure v :=
      fun edit => by simp only [within, hwidth]
    have hordinary := ordinary_require _ (show (Failure.invalidWidth width).isOrdinary = true from rfl)
      failure hwidth
    exact ⟨(hfailed edit).trans (hfailed edit').symm,
      Edit.yields_of_error (hfailed edit') ⟨hordinary, hv⟩⟩
  · exact (hedit ⟨v, width⟩ hv).piece (editsPiece_within edit hwidth v)
      (editsPiece_within edit' hwidth v) (fun _ hl => hl) fun _ _ _ _ => trivial

end FieldList

end PackedBits
