import PackedBits.Proofs.Readable
import PackedBits.Source.Compare

/-!
# The order of vectors is that of their bits

Two vectors are compared a window at a time, and the lowest place at which two
words differ is the first position at which the bits do. From that, the order,
the common prefix and the equality of two vectors of whatever types are those of
their lists of bits. `Readable.order` says so, and that the order is total.
-/

namespace PackedBits

/-! ## Lists of bits -/

section

variable {A B : List Bool} {b : Bool} {lo hi p : Nat}

/-- Two lists have the same bits from `lo` up to `hi`. -/
def Agree (A B : List Bool) (lo hi : Nat) : Prop := ∀ p, lo ≤ p → p < hi → A[p]? = B[p]?

/-- From `lo` on, two lists of bits are the same up to `p` and differ there; the
first of them has the bit `b`. -/
structure DifferAt (A B : List Bool) (lo p : Nat) (b : Bool) : Prop where
  agree : Agree A B lo p
  left : A[p]? = some b
  right : B[p]? = some (!b)

theorem Agree.drop_take_eq (h : Agree A B lo hi) :
    (A.take hi).drop lo = (B.take hi).drop lo := by
  apply List.ext_getElem?
  intro p
  rw [List.getElem?_drop, List.getElem?_drop, List.getElem?_take, List.getElem?_take]
  by_cases hp : lo + p < hi
  · rw [if_pos hp, if_pos hp, h (lo + p) (Nat.le_add_right lo p) hp]
  · rw [if_neg hp, if_neg hp]

/-- Whether two lists are the same up to `hi` is settled by the full windows from `lo` on:
they reach as far, or there is a difference where they reach. -/
def Settled (A B : List Bool) (lo hi : Nat) : Prop :=
  hi ≤ windowsEnd lo ∨ ¬Agree A B lo (windowsEnd lo)

/-- How two lists compare is settled by the full windows from the first position on. -/
def Comparable (A B : List Bool) : Prop := Settled A B 0 (min A.length B.length)

theorem not_settled (hlt : windowsEnd lo < hi) (hagree : Agree A B lo (windowsEnd lo)) :
    ¬Settled A B lo hi := by
  rintro (hle | hdiffer)
  · exact Nat.not_lt.mpr hle hlt
  · exact hdiffer hagree

theorem DifferAt.settled (h : DifferAt A B lo p b) (hlo : lo ≤ p) (hp : p < windowsEnd lo) :
    Settled A B lo hi := by
  refine .inr fun hagree => ?_
  have hsame := hagree p hlo hp
  rw [h.left, h.right] at hsame
  cases b <;> cases hsame

/-- A list differs nowhere from itself. -/
theorem comparable_self_iff : Comparable A A ↔ A.length ≤ windowsEnd 0 := by
  rw [Comparable, Settled, Nat.min_self]
  exact or_iff_left fun hdiffer => hdiffer fun _ _ _ => rfl

theorem Agree.symm (h : Agree A B lo hi) : Agree B A lo hi := fun p hlo hhi => (h p hlo hhi).symm

theorem Comparable.symm (h : Comparable A B) : Comparable B A := by
  rw [Comparable, Nat.min_comm]
  exact h.imp_right fun hdiffer hagree => hdiffer hagree.symm

/-- An answer is `a` if the full windows settle it, and else they run past the largest
position. -/
def GivenIf {α : Type} (settled : Prop) (answer : Answer α) (a : α) : Prop :=
  (settled → answer = .ok a) ∧ (¬settled → answer = .error (.overflow .sum))

theorem givenIf_of_ok {α : Type} {settled : Prop} {answer : Answer α} {a : α} (h : settled)
    (hok : answer = .ok a) : GivenIf settled answer a :=
  ⟨fun _ => hok, fun hnot => absurd h hnot⟩

theorem givenIf_of_error {α : Type} {settled : Prop} {answer : Answer α} {a : α} (h : ¬settled)
    (herror : answer = .error (.overflow .sum)) : GivenIf settled answer a :=
  ⟨fun hsettled => absurd hsettled h, fun _ => herror⟩

/-- What is answered is what the windows settle. -/
theorem GivenIf.eq_ok_iff {α : Type} {settled : Prop} {answer : Answer α} {a other : α}
    (h : GivenIf settled answer a) : answer = .ok other ↔ settled ∧ a = other := by
  by_cases hsettled : settled
  · rw [h.1 hsettled, Except.ok.injEq, and_iff_right hsettled]
  · rw [h.2 hsettled]
    exact iff_of_false nofun fun hboth => hsettled hboth.1

theorem DifferAt.drop_take_ne (h : DifferAt A B lo p b) (hlo : lo ≤ p) (hp : p < hi) :
    (A.take hi).drop lo ≠ (B.take hi).drop lo := by
  intro hsame
  have hbit := congrArg (fun bits : List Bool => bits[p - lo]?) hsame
  simp only [List.getElem?_drop, Nat.add_sub_cancel' hlo, List.getElem?_take, if_pos hp, h.left,
    h.right] at hbit
  cases b <;> cases hbit

/-- Lists that differ have what is before the difference in common. -/
theorem DifferAt.exists_eq_append (h : DifferAt A B 0 p b) :
    ∃ common rest rest', A = common ++ b :: rest ∧ B = common ++ (!b) :: rest' ∧
      common.length = p := by
  have hA := lt_length_of_getElem? h.left
  have hB := lt_length_of_getElem? h.right
  have hcommon : A.take p = B.take p := by
    have hsame := h.agree.drop_take_eq
    rwa [List.drop_zero, List.drop_zero] at hsame
  refine ⟨A.take p, A.drop (p + 1), B.drop (p + 1), ?_, ?_, ?_⟩
  · rw [← (List.getElem?_eq_some_iff.mp h.left).2, ← List.drop_eq_getElem_cons hA,
      List.take_append_drop]
  · rw [hcommon, ← (List.getElem?_eq_some_iff.mp h.right).2, ← List.drop_eq_getElem_cons hB,
      List.take_append_drop]
  · rw [List.length_take_of_le (Nat.le_of_lt hA)]

/-- Of two lists that agree as far as both reach, one is a prefix of the other. -/
theorem Agree.either_isPrefix (h : Agree A B 0 (min A.length B.length)) :
    A <+: B ∨ B <+: A := by
  have hsame := h.drop_take_eq
  rw [List.drop_zero, List.drop_zero] at hsame
  rcases Nat.le_total A.length B.length with hle | hle
  · rw [Nat.min_eq_left hle, List.take_length] at hsame
    exact .inl (List.prefix_iff_eq_take.mpr hsame)
  · rw [Nat.min_eq_right hle, List.take_length] at hsame
    exact .inr (List.prefix_iff_eq_take.mpr hsame.symm)

theorem compare_append_left (common rest rest' : List Bool) :
    Ord.compare (common ++ rest) (common ++ rest') = Ord.compare rest rest' := by
  induction common with
  | nil => rfl
  | cons b common ih =>
    have hsame : Ord.compare b b = .eq := Std.ReflCmp.compare_self
    rw [List.cons_append, List.cons_append, List.compare_cons_cons, hsame, Ordering.eq_then, ih]

/-- Lists that differ first at a place are in the order of the bits there. -/
theorem compare_append_cons (common rest rest' : List Bool) (b : Bool) :
    Ord.compare (common ++ b :: rest) (common ++ (!b) :: rest') = if b then .gt else .lt := by
  rw [compare_append_left, List.compare_cons_cons]
  cases b <;> rfl

/-- A prefix comes first; what has the prefix and no more is the same. -/
theorem compare_of_isPrefix (h : A <+: B) : Ord.compare A B = Ord.compare A.length B.length := by
  obtain ⟨rest, rfl⟩ := h
  have hleft := compare_append_left A [] rest
  rw [List.append_nil] at hleft
  rw [hleft, List.length_append]
  cases rest with
  | nil =>
    have hsame : Ord.compare A.length A.length = .eq := Std.ReflCmp.compare_self
    exact hsame.symm
  | cons b rest =>
    rw [List.compare_nil_cons, Nat.compare_eq_lt.mpr]
    exact Nat.lt_add_of_pos_right (Nat.succ_pos _)

theorem compare_of_either_isPrefix (h : A <+: B ∨ B <+: A) :
    Ord.compare A B = Ord.compare A.length B.length := by
  rcases h with hstarts | hstarts
  · exact compare_of_isPrefix hstarts
  · have hswap : Ord.compare A B = (Ord.compare B A).swap := Std.OrientedCmp.eq_swap
    rw [hswap, compare_of_isPrefix hstarts]
    exact Std.OrientedCmp.eq_swap.symm

/-- The order of lists of bits: a proper prefix comes first, and else a zero where
the other list has a one, at the first place at which they differ. -/
theorem compare_eq_lt_iff : Ord.compare A B = .lt ↔
    (A <+: B ∧ A ≠ B) ∨
      ∃ common rest rest', A = common ++ false :: rest ∧ B = common ++ true :: rest' := by
  constructor
  · intro h
    induction A generalizing B with
    | nil =>
      cases B with
      | nil => cases h
      | cons b B => exact .inl ⟨List.nil_prefix, nofun⟩
    | cons a A ih =>
      cases B with
      | nil => cases h
      | cons b B =>
        rw [List.compare_cons_cons] at h
        by_cases hab : a = b
        · subst hab
          have hsame : Ord.compare a a = .eq := Std.ReflCmp.compare_self
          rw [hsame, Ordering.eq_then] at h
          rcases ih h with ⟨hstarts, hne⟩ | ⟨common, rest, rest', rfl, rfl⟩
          · refine .inl ⟨List.cons_prefix_cons.mpr ⟨rfl, hstarts⟩, fun he => ?_⟩
            exact hne (List.cons.inj he).2
          · exact .inr ⟨a :: common, rest, rest', rfl, rfl⟩
        · cases a <;> cases b
          · cases hab rfl
          · exact .inr ⟨[], A, B, rfl, rfl⟩
          · cases h
          · cases hab rfl
  · rintro (⟨hstarts, hne⟩ | ⟨common, rest, rest', rfl, rfl⟩)
    · rw [compare_of_isPrefix hstarts, Nat.compare_eq_lt]
      exact Nat.lt_of_le_of_ne hstarts.length_le fun he => hne (hstarts.eq_of_length he)
    · exact compare_append_cons common rest rest' false

end

/-! ## Words -/

namespace Word

variable {left right : Word} {place : Nat}

/-- Words that differ do so at a lowest place. -/
theorem exists_lowest?_xor (hne : left ≠ right) :
    ∃ place, (left ^^^ right).lowest? = some place ∧
      right.getLsbD place = !left.getLsbD place ∧
      ∀ j, j < place → left.getLsbD j = right.getLsbD j := by
  cases hlowest : (left ^^^ right).lowest? with
  | none => exact absurd (BitVec.xor_eq_zero_iff.mp (eq_zero_of_lowest?_eq_none hlowest)) hne
  | some place =>
    obtain ⟨hone, hbelow⟩ := lowest?_eq_some hlowest
    refine ⟨place, rfl, ?_, fun j hj => ?_⟩
    · rw [BitVec.getLsbD_xor] at hone
      cases hleft : left.getLsbD place <;> simp_all
    · have hzero := hbelow j hj
      rw [BitVec.getLsbD_xor] at hzero
      exact bne_eq_false_iff_eq.mp hzero

theorem zeroFirst_eq (h : (left ^^^ right).lowest? = some place) :
    zeroFirst left right = !left.getLsbD place := by
  rw [zeroFirst, h]

end Word

/-! ## Windows -/

namespace Source

variable {a b : Source} {A B : List Bool} {lo hi : Nat}

/-- A window of one source and the same window of another are equal words where
the bits agree, and differ first where the bits do. -/
theorem Reads.window_differs (ha : a.Reads A) (hb : b.Reads B) (hle : lo ≤ hi)
    (hA : hi ≤ A.length) (hB : hi ≤ B.length) (hspan : hi - lo ≤ 64) :
    ∃ left right, a.window lo hi = .ok left ∧ b.window lo hi = .ok right ∧
      (left = right → Agree A B lo hi) ∧
      (left ≠ right → ∃ place, (left ^^^ right).lowest? = some place ∧ lo + place < hi ∧
        DifferAt A B lo (lo + place) (left.getLsbD place)) := by
  obtain ⟨left, hleft, hleftbits⟩ := ha.window_eq lo hi hle hA hspan
  obtain ⟨right, hright, hrightbits⟩ := hb.window_eq lo hi hle hB hspan
  have hreadA : ∀ j, lo + j < hi → A[lo + j]? = some (left.getLsbD j) := by
    intro j hj
    rw [hleftbits, decide_eq_true (by omega), Bool.true_and,
      List.getElem?_eq_getElem (by omega), Option.getD_some]
  have hreadB : ∀ j, lo + j < hi → B[lo + j]? = some (right.getLsbD j) := by
    intro j hj
    rw [hrightbits, decide_eq_true (by omega), Bool.true_and,
      List.getElem?_eq_getElem (by omega), Option.getD_some]
  refine ⟨left, right, hleft, hright, ?_, fun hne => ?_⟩
  · rintro rfl p hlo hhi
    obtain ⟨j, rfl⟩ := Nat.exists_eq_add_of_le hlo
    rw [hreadA j hhi, hreadB j hhi]
  · obtain ⟨place, hlowest, hdiffer, hbelow⟩ := Word.exists_lowest?_xor hne
    have hin : lo + place < hi := by
      apply Nat.lt_of_not_le
      intro hout
      rw [Word.narrow_of_window hleftbits place (by omega),
        Word.narrow_of_window hrightbits place (by omega)] at hdiffer
      cases hdiffer
    refine ⟨place, hlowest, hin, ?_, hreadA place hin, ?_⟩
    · intro p hlo hp
      obtain ⟨j, rfl⟩ := Nat.exists_eq_add_of_le hlo
      rw [hreadA j (by omega), hreadB j (by omega), hbelow j (by omega)]
    · rw [hreadB place hin, hdiffer]

/-- A search for the first window that differs comes up with none where the bits
agree, and else with the window of the first position at which they differ, unless
full windows do not reach as far. -/
theorem Reads.searchWindows_differs {α : Type} (ha : a.Reads A) (hb : b.Reads B) (hle : lo ≤ hi)
    (hA : hi ≤ A.length) (hB : hi ≤ B.length) (answer : Nat → Word → Word → α) :
    let ask : Nat → Nat → Answer (Option α) := fun first last => do
      let left ← a.window first last
      let right ← b.window first last
      return if left = right then none else some (answer first left right)
    (searchWindows lo hi ask = .ok none ∧ Agree A B lo hi ∧ hi ≤ windowsEnd lo) ∨
      (∃ found, searchWindows lo hi ask = .ok (some found) ∧
        ∃ first left right place, found = answer first left right ∧
          (left ^^^ right).lowest? = some place ∧ lo ≤ first ∧
          first + place < min hi (windowsEnd lo) ∧
          DifferAt A B lo (first + place) (left.getLsbD place)) ∨
      searchWindows lo hi ask = .error (.overflow .sum) ∧ Agree A B lo (windowsEnd lo) ∧
        windowsEnd lo < hi := by
  intro ask
  apply searchWindows_invariant (Agree A B lo) _ hle
  · exact fun p hlo hhi => absurd hhi (Nat.not_lt.mpr hlo)
  · intro first last hfirst hspan hlast hreached hwidth hclear
    obtain ⟨left, right, hleft, hright, hsame, hdiffer⟩ :=
      ha.window_differs hb hspan (Nat.le_trans hlast hA) (Nat.le_trans hlast hB) hwidth
    have hask : ask first last =
        .ok (if left = right then none else some (answer first left right)) :=
      (bind_of_ok hleft).trans (bind_of_ok hright)
    rw [hask]
    by_cases heq : left = right
    · rw [if_pos heq]
      refine .inl ⟨rfl, fun p hlo hhi => ?_⟩
      rcases Nat.lt_or_ge p first with hbefore | hafter
      · exact hclear p hlo hbefore
      · exact hsame heq p hafter hhi
    · rw [if_neg heq]
      obtain ⟨place, hlowest, hplace, hat⟩ := hdiffer heq
      refine .inr ⟨_, rfl, first, left, right, place, rfl, hlowest, hfirst, by omega, ?_⟩
      refine ⟨fun p hlo hhi => ?_, hat.left, hat.right⟩
      rcases Nat.lt_or_ge p first with hbefore | hafter
      · exact hclear p hlo hbefore
      · exact hat.agree p hafter hhi

/-! ## Comparing -/

/-- What a search for the first difference comes up with: nothing if one list is
a prefix of the other, and else the words that decide. -/
inductive FirstDifference (A B : List Bool) : Option (Nat × Word × Word) → Prop where
  | absent : A <+: B ∨ B <+: A → FirstDifference A B none
  | present {common rest rest' : List Bool} {first place : Nat} {left right : Word} :
    A = common ++ left.getLsbD place :: rest → B = common ++ (!left.getLsbD place) :: rest' →
    common.length = first + place → (left ^^^ right).lowest? = some place →
    FirstDifference A B (some (first, left, right))

theorem Reads.firstDifference_eq (ha : a.Reads A) (hb : b.Reads B) :
    (∃ found, firstDifference a b (min A.length B.length) = .ok found ∧
      FirstDifference A B found ∧ Comparable A B) ∨
      firstDifference a b (min A.length B.length) = .error (.overflow .sum) ∧
        ¬Comparable A B := by
  obtain ⟨hrun, hagree, hend⟩ | ⟨_, hrun, first, left, right, place, rfl, hlowest, -, hlt, hat⟩ |
      ⟨hrun, hagree, hpast⟩ :=
    ha.searchWindows_differs hb (Nat.zero_le _) (Nat.min_le_left _ _) (Nat.min_le_right _ _)
      fun first left right => (first, left, right)
  · exact .inl ⟨none, hrun, .absent hagree.either_isPrefix, .inl hend⟩
  · obtain ⟨common, rest, rest', hA, hB, hlength⟩ := hat.exists_eq_append
    exact .inl ⟨_, hrun, .present hA hB hlength hlowest,
      hat.settled (Nat.zero_le _) (Nat.lt_of_lt_of_le hlt (Nat.min_le_right _ _))⟩
  · exact .inr ⟨hrun, not_settled hpast hagree⟩

/-- The order of two sources is that of their bits. -/
theorem Reads.compare_eq (ha : a.Reads A) (hb : b.Reads B) :
    GivenIf (Comparable A B) (a.compare b) (Ord.compare A B) := by
  rw [compare, ha.length_eq, hb.length_eq]
  obtain ⟨found, hrun, hfound, hsettled⟩ | ⟨hrun, hpast⟩ := ha.firstDifference_eq hb
  · refine givenIf_of_ok hsettled ?_
    rw [bind_of_ok hrun]
    cases hfound with
    | absent hstarts =>
      rw [compare_of_either_isPrefix hstarts]
      rfl
    | @present _ _ _ _ place left right hA hB _ hlowest =>
      have hzero : left.zeroFirst right = !left.getLsbD place := Word.zeroFirst_eq hlowest
      rw [hA, hB, compare_append_cons]
      simp only [hzero]
      cases left.getLsbD place <;> rfl
  · refine givenIf_of_error hpast ?_
    rw [hrun]
    rfl

/-- What two lists that differ have in common. -/
theorem prefix_of_prefix_append_cons {common rest rest' other : List Bool} {b : Bool}
    (hA : other <+: common ++ b :: rest) (hB : other <+: common ++ (!b) :: rest') :
    other <+: common := by
  rcases Nat.lt_or_ge common.length other.length with hlonger | hshorter
  · have hnext : ∀ {c : Bool} {tail : List Bool}, other <+: common ++ c :: tail →
        other[common.length]? = some c := by
      rintro c tail ⟨after, hafter⟩
      rw [← List.getElem?_append_left hlonger, hafter, List.getElem?_append_right (Nat.le_refl _),
        Nat.sub_self]
      rfl
    have hboth := (hnext hA).symm.trans (hnext hB)
    cases b <;> cases hboth
  · exact List.prefix_of_prefix_length_le hA (List.prefix_append common _) hshorter

/-- Two lists have a longest common prefix. -/
theorem exists_longest_isPrefix (A B : List Bool) : ∃ common : List Bool, common <+: A ∧
    common <+: B ∧ ∀ other, other <+: A → other <+: B → other <+: common := by
  induction A generalizing B with
  | nil => exact ⟨[], List.prefix_rfl, List.nil_prefix, fun _ hA _ => hA⟩
  | cons a A ih =>
    cases B with
    | nil => exact ⟨[], List.nil_prefix, List.prefix_rfl, fun _ _ hB => hB⟩
    | cons b B =>
      by_cases hab : a = b
      · subst hab
        obtain ⟨common, hA, hB, hlongest⟩ := ih B
        refine ⟨a :: common, List.cons_prefix_cons.mpr ⟨rfl, hA⟩,
          List.cons_prefix_cons.mpr ⟨rfl, hB⟩, fun other hotherA hotherB => ?_⟩
        cases other with
        | nil => exact List.nil_prefix
        | cons o other =>
          obtain ⟨rfl, hrestA⟩ := List.cons_prefix_cons.mp hotherA
          have hrestB := (List.cons_prefix_cons.mp hotherB).2
          exact List.cons_prefix_cons.mpr ⟨rfl, hlongest other hrestA hrestB⟩
      · refine ⟨[], List.nil_prefix, List.nil_prefix, fun other hotherA hotherB => ?_⟩
        cases other with
        | nil => exact List.prefix_rfl
        | cons o other =>
          have hfirstA := (List.cons_prefix_cons.mp hotherA).1
          exact absurd (hfirstA.symm.trans (List.cons_prefix_cons.mp hotherB).1) hab

theorem Reads.commonPrefix_eq (ha : a.Reads A) (hb : b.Reads B) :
    ∃ common : List Bool, GivenIf (Comparable A B) (a.commonPrefix b) common.length ∧
      common <+: A ∧ common <+: B ∧ ∀ other, other <+: A → other <+: B → other <+: common := by
  rw [commonPrefix, ha.length_eq, hb.length_eq]
  obtain ⟨found, hrun, hfound, hsettled⟩ | ⟨hrun, hpast⟩ := ha.firstDifference_eq hb
  · rw [bind_of_ok hrun]
    cases hfound with
    | absent hstarts =>
      rcases hstarts with hstarts | hstarts
      · refine ⟨A, givenIf_of_ok hsettled ?_, List.prefix_rfl, hstarts, fun other hA _ => hA⟩
        rw [Nat.min_eq_left hstarts.length_le]
        rfl
      · refine ⟨B, givenIf_of_ok hsettled ?_, hstarts, List.prefix_rfl, fun other _ hB => hB⟩
        rw [Nat.min_eq_right hstarts.length_le]
        rfl
    | @present common rest rest' first place left right hA hB hlength hlowest =>
      refine ⟨common, givenIf_of_ok hsettled ?_, ?_, ?_, ?_⟩
      · simp only [hlowest, hlength]
        rfl
      · exact hA ▸ List.prefix_append common _
      · exact hB ▸ List.prefix_append common _
      · intro other hotherA hotherB
        rw [hA] at hotherA
        rw [hB] at hotherB
        exact prefix_of_prefix_append_cons hotherA hotherB
  · obtain ⟨common, hA, hB, hlongest⟩ := exists_longest_isPrefix A B
    exact ⟨common, givenIf_of_error hpast (by rw [hrun]; rfl), hA, hB, hlongest⟩

theorem Reads.isPrefixOf_eq (ha : a.Reads A) (hb : b.Reads B) :
    GivenIf (A.length ≤ B.length → Comparable A B) (a.isPrefixOf b) (decide (A <+: B)) := by
  rw [isPrefixOf, ha.length_eq, hb.length_eq]
  split
  case isTrue hshort =>
    obtain ⟨common, hrun, hA, hB, hlongest⟩ := ha.commonPrefix_eq hb
    by_cases hsettled : Comparable A B
    · refine givenIf_of_ok (fun _ => hsettled) ?_
      rw [bind_of_ok (hrun.1 hsettled)]
      by_cases hstarts : A <+: B
      · have hall : A <+: common := hlongest A List.prefix_rfl hstarts
        rw [decide_eq_true hstarts, Nat.le_antisymm hA.length_le hall.length_le, beq_self_eq_true]
        rfl
      · have hpart : common.length ≠ A.length := by
          intro hlength
          rw [hA.eq_of_length hlength] at hB
          exact hstarts hB
        rw [decide_eq_false hstarts, beq_eq_false_iff_ne.mpr hpart]
        rfl
    · refine givenIf_of_error (fun h => hsettled (h hshort)) ?_
      rw [hrun.2 hsettled]
      rfl
  case isFalse hlonger =>
    refine givenIf_of_ok (fun hshort => absurd hshort hlonger) ?_
    rw [decide_eq_false fun hstarts : A <+: B => hlonger hstarts.length_le]
    rfl

theorem Reads.isProperPrefixOf_eq (ha : a.Reads A) (hb : b.Reads B) :
    GivenIf (A.length < B.length → Comparable A B) (a.isProperPrefixOf b)
      (decide (A <+: B ∧ A ≠ B)) := by
  rw [isProperPrefixOf, ha.length_eq, hb.length_eq]
  split
  case isTrue hshorter =>
    have hne : A ≠ B := fun hsame => absurd hshorter (hsame ▸ Nat.lt_irrefl _)
    have hstarts := ha.isPrefixOf_eq hb
    rw [decide_eq_decide.mpr (and_iff_left (a := A <+: B) hne)]
    exact ⟨fun h => hstarts.1 fun _ => h hshorter,
      fun h => hstarts.2 fun hall => h fun _ => hall (Nat.le_of_lt hshorter)⟩
  case isFalse hlonger =>
    have hnot : ¬(A <+: B ∧ A ≠ B) := by
      rintro ⟨hstarts, hne⟩
      exact hlonger (Nat.lt_of_le_of_ne hstarts.length_le fun he => hne (hstarts.eq_of_length he))
    refine givenIf_of_ok (fun hshorter => absurd hshorter hlonger) ?_
    rw [decide_eq_false hnot]
    rfl

/-- Ranges that both sources have are the same when their bits are. -/
theorem Reads.equalOn_eq (ha : a.Reads A) (hb : b.Reads B) (hle : lo ≤ hi) (hA : hi ≤ A.length)
    (hB : hi ≤ B.length) :
    GivenIf (Settled A B lo hi) (a.equalOn b lo hi)
      (decide ((A.take hi).drop lo = (B.take hi).drop lo)) := by
  have hcheckA : checkRange lo hi a.length = .ok () :=
    require_eq_ok_iff.mpr ⟨hle, ha.length_eq ▸ hA⟩
  have hcheckB : checkRange lo hi b.length = .ok () :=
    require_eq_ok_iff.mpr ⟨hle, hb.length_eq ▸ hB⟩
  rw [equalOn, bind_of_ok hcheckA, bind_of_ok hcheckB]
  obtain ⟨hrun, hagree, hend⟩ | ⟨_, hrun, first, left, right, place, rfl, -, hfirst, hlt, hat⟩ |
      ⟨hrun, hagree, hpast⟩ := ha.searchWindows_differs hb hle hA hB fun _ _ _ => ()
  · refine givenIf_of_ok (.inl hend) ?_
    rw [bind_of_ok hrun, decide_eq_true hagree.drop_take_eq]
    rfl
  · refine givenIf_of_ok (hat.settled (by omega) (by omega)) ?_
    rw [bind_of_ok hrun, decide_eq_false (hat.drop_take_ne (by omega) (by omega))]
    rfl
  · refine givenIf_of_error (not_settled hpast hagree) ?_
    rw [hrun]
    rfl

theorem Reads.equal_eq (ha : a.Reads A) (hb : b.Reads B) :
    GivenIf (A.length = B.length → Comparable A B) (a.equal b) (decide (A = B)) := by
  rw [equal, ha.length_eq, hb.length_eq]
  split
  case isTrue hlength =>
    have hrange := ha.equalOn_eq hb (Nat.zero_le _) (Nat.le_refl _) (Nat.le_of_eq hlength)
    have hleft : (A.take A.length).drop 0 = A := List.take_length
    have hright : (B.take A.length).drop 0 = B := List.take_of_length_le (Nat.le_of_eq hlength.symm)
    have hsettled : Settled A B 0 A.length ↔ Comparable A B := by
      rw [Comparable, ← hlength, Nat.min_self]
    rw [hleft, hright, hsettled] at hrange
    exact ⟨fun h => hrange.1 (h hlength), fun h => hrange.2 fun hall => h fun _ => hall⟩
  case isFalse hlength =>
    refine givenIf_of_ok (fun hsame => absurd hsame hlength) ?_
    rw [decide_eq_false fun hsame : A = B => hlength (congrArg List.length hsame)]
    rfl

/-- Sources that are found to be equal have the same bits. -/
theorem Reads.eq_of_equal (ha : a.Reads A) (hb : b.Reads B) (h : a.equal b = .ok true) : A = B :=
  of_decide_eq_true ((ha.equal_eq hb).eq_ok_iff.mp h).2

end Source

/-! ## The order -/

/-- Two vectors of any types are in the lexicographic order of their bits, a zero
before a one and a proper prefix first, which is total over all the types taken
together; their longest common prefix is that of the bits, and one is a prefix of
the other, or the two are equal, when the bits are, wholly or in a range. All of
this is answered where the full windows settle it, as they always do for vectors of
no more than `windowsEnd 0` bits; where they do not, the largest position is passed. -/
theorem Readable.order {U V W : Type} [Bits U] [Bits V] [Bits W] {u : U} {v : V} {w : W}
    {A B C : List Bool} (hu : Readable u) (hv : Readable v) (hw : Readable w)
    (hA : Bits.toArray u = .ok A.toArray) (hB : Bits.toArray v = .ok B.toArray)
    (hC : Bits.toArray w = .ok C.toArray) :
    let a := Bits.source u
    let b := Bits.source v
    let c := Bits.source w
    GivenIf (Comparable A B) (a.compare b) (Ord.compare A B) ∧
      (Comparable A B → (a.compare b = .ok .lt ↔ (A <+: B ∧ A ≠ B) ∨
        ∃ common rest rest', A = common ++ false :: rest ∧ B = common ++ true :: rest')) ∧
      GivenIf (A.length ≤ windowsEnd 0) (a.compare a) .eq ∧
      (∀ order, a.compare b = .ok order → b.compare a = .ok order.swap) ∧
      (∀ order order', a.compare b = .ok order → b.compare a = .ok order' →
        order.isLE = true → order'.isLE = true → A = B) ∧
      (∀ order order' order'', a.compare b = .ok order → b.compare c = .ok order' →
        a.compare c = .ok order'' → order.isLE = true → order'.isLE = true →
        order''.isLE = true) ∧
      (∃ common, GivenIf (Comparable A B) (a.commonPrefix b) common.length ∧ common <+: A ∧
        common <+: B ∧ ∀ other, other <+: A → other <+: B → other <+: common) ∧
      GivenIf (A.length ≤ B.length → Comparable A B) (a.isPrefixOf b) (decide (A <+: B)) ∧
      GivenIf (A.length < B.length → Comparable A B) (a.isProperPrefixOf b)
        (decide (A <+: B ∧ A ≠ B)) ∧
      GivenIf (A.length = B.length → Comparable A B) (a.equal b) (decide (A = B)) ∧
      (Comparable A B → (a.equal b = .ok true ↔ a.compare b = .ok .eq)) ∧
      ∀ lo hi, lo ≤ hi → hi ≤ A.length → hi ≤ B.length →
        GivenIf (Settled A B lo hi) (a.equalOn b lo hi)
          (decide ((A.take hi).drop lo = (B.take hi).drop lo)) := by
  intro a b c
  have ha : a.Reads A := hu.reads hA
  have hb : b.Reads B := hv.reads hB
  have hc : c.Reads C := hw.reads hC
  have hab := ha.compare_eq hb
  have hba := hb.compare_eq ha
  have hbc := hb.compare_eq hc
  have hac := ha.compare_eq hc
  have hswap : Ord.compare B A = (Ord.compare A B).swap := Std.OrientedCmp.eq_swap
  refine ⟨hab, ?_, ?_, ?_, ?_, ?_, ha.commonPrefix_eq hb, ha.isPrefixOf_eq hb,
    ha.isProperPrefixOf_eq hb, ha.equal_eq hb, ?_, fun lo hi => ha.equalOn_eq hb⟩
  · intro hsettled
    rw [hab.1 hsettled, Except.ok.injEq, compare_eq_lt_iff]
  · have hself : Ord.compare A A = .eq := Std.ReflCmp.compare_self
    have haa := ha.compare_eq ha
    rwa [comparable_self_iff, hself] at haa
  · intro order horder
    obtain ⟨hsettled, rfl⟩ := hab.eq_ok_iff.mp horder
    rw [hba.1 hsettled.symm, hswap]
  · intro order order' horder horder' hle hle'
    obtain ⟨-, rfl⟩ := hab.eq_ok_iff.mp horder
    obtain ⟨-, rfl⟩ := hba.eq_ok_iff.mp horder'
    exact Std.LawfulEqCmp.eq_of_compare (Std.OrientedCmp.isLE_antisymm hle hle')
  · intro order order' order'' horder horder' horder'' hle hle'
    obtain ⟨-, rfl⟩ := hab.eq_ok_iff.mp horder
    obtain ⟨-, rfl⟩ := hbc.eq_ok_iff.mp horder'
    obtain ⟨-, rfl⟩ := hac.eq_ok_iff.mp horder''
    exact Std.TransCmp.isLE_trans hle hle'
  · intro hsettled
    rw [(ha.equal_eq hb).1 fun _ => hsettled, hab.1 hsettled, Except.ok.injEq, Except.ok.injEq,
      decide_eq_true_iff]
    exact Std.LawfulEqCmp.compare_eq_iff_eq.symm

/-- Seventy ones but for a zero in their second word, kept in segments; seventy
ones that are stored nowhere; and seventy-one of them kept one by one. -/
theorem Readable.order_over_a_seam :
    let script : Script := .andThen (.change .unlimited (.setLength 70) trivial) <|
      .andThen (.change .unlimited .flipAll trivial) <|
      .change .unlimited (.set 66 false) trivial
    let u : WordVec (StoreKind.segmented 0).Store := script.run.after WordVec.empty
    let v : Uniform := ⟨70, true⟩
    let w : BitList := ⟨Array.replicate 71 true, by decide⟩
    let A := List.replicate 66 true ++ [false, true, true, true]
    let B := List.replicate 70 true
    Readable u ∧ Readable v ∧ Readable w ∧ Bits.toArray u = .ok A.toArray ∧
      Bits.toArray v = .ok B.toArray ∧ Bits.toArray w = .ok (List.replicate 71 true).toArray ∧
      (Bits.source u).compare (Bits.source v) = .ok (Ord.compare A B) ∧
      (Bits.source u).isPrefixOf (Bits.source v) = .ok (decide (A <+: B)) ∧
      (Bits.source u).equalOn (Bits.source v) 3 66 =
        .ok (decide ((A.take 66).drop 3 = (B.take 66).drop 3)) ∧
      ∃ order, (Bits.source u).compare (Bits.source w) = .ok order ∧ order.isLE = true := by
  intro script u v w A B
  have hu : Readable u := .words (.segmented 0) (.script script .empty)
  have hv : Readable v := .uniform v
  have hw : Readable w := w.readable
  have hA : Bits.toArray u = .ok A.toArray := by decide +kernel
  have hB : Bits.toArray v = .ok B.toArray := by decide +kernel
  have hC : Bits.toArray w = .ok (List.replicate 71 true).toArray := by decide +kernel
  have huv : (Bits.source u).compare (Bits.source v) = .ok .lt := by decide +kernel
  have hvw : (Bits.source v).compare (Bits.source w) = .ok .lt := by decide +kernel
  have huw : (Bits.source u).compare (Bits.source w) = .ok .lt := by decide +kernel
  have hsettled : Comparable A B := .inl (by decide)
  obtain ⟨horder, -, -, -, -, htrans, -, hstarts, -, -, -, hrange⟩ :=
    Readable.order hu hv hw hA hB hC
  exact ⟨hu, hv, hw, hA, hB, hC, horder.1 hsettled, hstarts.1 fun _ => hsettled,
    (hrange 3 66 (by decide) (by decide) (by decide)).1 (.inl (by decide)),
    .lt, huw, htrans .lt .lt .lt huv hvw huw rfl rfl⟩

/-- The last ten of as many ones as there can be are not found equal to themselves: their
one window would end past the largest position if it were full. -/
theorem Readable.order_unsettled :
    let v : Uniform := ⟨maxPosition, true⟩
    let a := Bits.source v
    Readable v ∧ checkRange (maxPosition - 10) maxPosition a.length = .ok () ∧
      a.equalOn a (maxPosition - 10) maxPosition = .error (.overflow .sum) :=
  ⟨.uniform _, by decide +kernel, by decide +kernel⟩

end PackedBits
