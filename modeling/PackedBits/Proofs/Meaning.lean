import PackedBits.Bits.Resizable
import PackedBits.Proofs.Listed
import PackedBits.Proofs.Outcome
import PackedBits.Proofs.WordImage

/-!
# What operations mean for the bits

A `Plan` says what an operation means for a list of bits: why it is refused, or
what it answers and which bits it leaves. `Follows` ties an operation on a
vector to its plan: what the plan refuses is refused for the same reason before
anything is changed, and what it admits is done, unless memory is refused on the
way. A vector is lawful when the operations that its type may give a way of its
own all follow their plans; the others then do too.
-/

namespace PackedBits

/-- What an operation means for a list of bits. -/
abbrev Plan (α : Type) := List Bool → Answer (α × List Bool)

namespace Plan

/-! ## Plans -/

def set (i : Nat) (b : Bool) : Plan Bool := fun bits =>
  match bits[i]? with
  | some old => .ok (old, bits.set i b)
  | none => .error (.indexOutOfBounds i bits.length)

def flip (i : Nat) : Plan Bool := fun bits =>
  match bits[i]? with
  | some old => .ok (old, bits.set i (!old))
  | none => .error (.indexOutOfBounds i bits.length)

def setBits (lo width : Nat) (value : Word) : Plan Unit := fun bits => do
  checkWindow lo (lo + width) bits.length
  checkValue value width
  return ((), rewritten lo (lo + width) (fun k _ => value.getLsbD k) bits)

def fillRange (lo hi : Nat) (b : Bool) : Plan Unit := fun bits => do
  checkRange lo hi bits.length
  return ((), rewritten lo hi (fun _ _ => b) bits)

def fill (b : Bool) : Plan Unit := fun bits => .ok ((), List.replicate bits.length b)

def flipRange (lo hi : Nat) : Plan Unit := fun bits => do
  checkRange lo hi bits.length
  return ((), rewritten lo hi (fun _ b => !b) bits)

def flipAll : Plan Unit := fun bits => .ok ((), bits.map (!·))

/-- The bits past the end of `other` stay as they are. -/
def combine (op : Connective) (other : List Bool) : Plan Unit := fun bits =>
  .ok ((), rewritten 0 (min bits.length other.length)
    (fun k b => op.onBits b (other[k]?.getD false)) bits)

def setLength (n : Nat) : Plan Unit := fun bits => .ok ((), resized n false bits)

def insert (i : Nat) (b : Bool) : Plan Unit := fun bits => do
  checkInsertIndex i bits.length
  return ((), bits.insertIdx i b)

def remove (i : Nat) : Plan Bool := fun bits =>
  match bits[i]? with
  | some old => .ok (old, bits.eraseIdx i)
  | none => .error (.indexOutOfBounds i bits.length)

def push (b : Bool) : Plan Unit := fun bits => .ok ((), bits ++ [b])

def pop : Plan (Option Bool) := fun bits => .ok (bits.getLast?, bits.dropLast)

def clear : Plan Unit := fun _ => .ok ((), [])

def appendBits (w : Word) (count : Nat) : Plan Unit := fun bits => do
  require (count ≤ 64) (.spanTooWide bits.length (bits.length + count))
  return ((), bits ++ (List.range count).map w.getLsbD)

def append (other : List Bool) : Plan Unit := fun bits => .ok ((), bits ++ other)

def replace (other : List Bool) : Plan Unit := fun _ => .ok ((), other)

/-- The same plan with another answer. -/
def map {α β : Type} (f : α → β) (plan : Plan α) : Plan β := fun bits => do
  let (a, bits') ← plan bits
  return (f a, bits')

/-! ### Arguments that plans admit and reject -/

section

variable {bits : List Bool} {i lo hi width : Nat} {old : Bool}

theorem set_of_some (h : bits[i]? = some old) (b : Bool) :
    set i b bits = .ok (old, bits.set i b) := by
  rw [set, h]

theorem set_past (h : bits.length ≤ i) (b : Bool) :
    set i b bits = .error (.indexOutOfBounds i bits.length) := by
  rw [set, List.getElem?_eq_none h]

theorem remove_of_some (h : bits[i]? = some old) :
    remove i bits = .ok (old, bits.eraseIdx i) := by
  rw [remove, h]

theorem remove_past (h : bits.length ≤ i) :
    remove i bits = .error (.indexOutOfBounds i bits.length) := by
  rw [remove, List.getElem?_eq_none h]

theorem insert_of_le (h : i ≤ bits.length) (b : Bool) :
    insert i b bits = .ok ((), bits.insertIdx i b) := by
  have hcheck : checkInsertIndex i bits.length = .ok () := require_eq_ok_iff.mpr h
  rw [insert, bind_of_ok hcheck]
  rfl

theorem setBits_of_narrow (hhi : lo + width ≤ bits.length) (hwidth : width ≤ 64) {value : Word}
    (hnarrow : Word.Narrow width value) : setBits lo width value bits =
      .ok ((), rewritten lo (lo + width) (fun k _ => value.getLsbD k) bits) := by
  have hwindow : checkWindow lo (lo + width) bits.length = .ok () :=
    checkWindow_eq_ok_iff.mpr ⟨Nat.le_add_right lo width, hhi, by omega⟩
  rw [setBits, bind_of_ok hwindow, bind_of_ok (checkValue_eq_ok_iff.mpr hnarrow)]
  rfl

theorem fillRange_of_le (hle : lo ≤ hi) (hhi : hi ≤ bits.length) (b : Bool) :
    fillRange lo hi b bits = .ok ((), rewritten lo hi (fun _ _ => b) bits) := by
  have hcheck : checkRange lo hi bits.length = .ok () := require_eq_ok_iff.mpr ⟨hle, hhi⟩
  rw [fillRange, bind_of_ok hcheck]
  rfl

theorem flipRange_of_le (hle : lo ≤ hi) (hhi : hi ≤ bits.length) :
    flipRange lo hi bits = .ok ((), rewritten lo hi (fun _ b => !b) bits) := by
  have hcheck : checkRange lo hi bits.length = .ok () := require_eq_ok_iff.mpr ⟨hle, hhi⟩
  rw [flipRange, bind_of_ok hcheck]
  rfl

theorem appendBits_of_le (w : Word) {count : Nat} (h : count ≤ 64) :
    appendBits w count bits = .ok ((), bits ++ (List.range count).map w.getLsbD) := by
  have hcheck : require (count ≤ 64) (.spanTooWide bits.length (bits.length + count)) = .ok () :=
    require_eq_ok_iff.mpr h
  rw [appendBits, bind_of_ok hcheck]
  rfl

end

end Plan

/-! ## Following a plan -/

/-- An edit of `v` does what a plan does to the bits of `v`. A refusal of memory
leaves a value as `refused` says. -/
def FollowsAt {V α : Type} (holds : V → List Bool → Prop) (refused : V → Prop) (edit : Edit V α)
    (plan : Plan α) (v : V) (bits : List Bool) : Prop :=
  match plan bits with
  | .error failure => edit v = .error failure v
  | .ok (a, bits') =>
    edit.Yields v (fun b w => b = a ∧ holds w bits')
      fun failure w => failure.isRefusal = true ∧ refused w

/-- An edit does to every value that holds bits what a plan does to the bits. -/
def Follows {V α : Type} (holds : V → List Bool → Prop) (refused : V → Prop) (edit : Edit V α)
    (plan : Plan α) : Prop :=
  ∀ v bits, holds v bits → FollowsAt holds refused edit plan v bits

section Follows

variable {V α : Type} {holds : V → List Bool → Prop} {refused refused' : V → Prop}
  {edit : Edit V α} {plan : Plan α} {v : V} {bits bits' : List Bool} {a : α} {failure : Failure}

theorem Follows.yields (h : Follows holds refused edit plan) (hv : holds v bits)
    (hplan : plan bits = .ok (a, bits')) :
    edit.Yields v (fun b w => b = a ∧ holds w bits')
      fun failure w => failure.isRefusal = true ∧ refused w := by
  have hfollows := h v bits hv
  rwa [FollowsAt, hplan] at hfollows

theorem Follows.error (h : Follows holds refused edit plan) (hv : holds v bits)
    (hplan : plan bits = .error failure) : edit v = .error failure v := by
  have hfollows := h v bits hv
  rwa [FollowsAt, hplan] at hfollows

/-- An edit that needs no memory does what the plan says. -/
theorem Follows.exists_ok (h : Follows holds (fun _ => False) edit plan) (hv : holds v bits)
    (hplan : plan bits = .ok (a, bits')) : ∃ w, edit v = .ok a w ∧ holds w bits' := by
  have hyields := (h.yields hv hplan).mono (fun _ _ hpost => hpost) fun _ _ hfailed => hfailed.2
  obtain ⟨b, w, hrun, hb, hw⟩ := hyields.exists_ok
  exact ⟨w, hb ▸ hrun, hw⟩

/-- An edit that is not refused memory does what the plan says. -/
theorem Follows.granted (h : Follows holds refused edit plan) (hv : holds v bits)
    (hplan : plan bits = .ok (a, bits')) (hgranted : ¬edit.Refused v) :
    ∃ w, edit v = .ok a w ∧ holds w bits' := by
  have hyields := (h.yields hv hplan).mono (fun _ _ hpost => hpost) fun _ _ hfailed => hfailed.1
  obtain ⟨b, w, hrun, hb, hw⟩ := hyields.exists_ok_of_not_refused hgranted
  exact ⟨w, hb ▸ hrun, hw⟩

theorem followsAt_of_yields (hplan : plan bits = .ok (a, bits'))
    (hedit : edit.Yields v (fun b w => b = a ∧ holds w bits')
      fun failure w => failure.isRefusal = true ∧ refused w) :
    FollowsAt holds refused edit plan v bits := by
  rw [FollowsAt, hplan]
  exact hedit

theorem followsAt_error (hedit : edit v = .error failure v) (hplan : plan bits = .error failure) :
    FollowsAt holds refused edit plan v bits := by
  rw [FollowsAt, hplan]
  exact hedit

theorem Follows.mono (h : Follows holds refused edit plan) (himp : ∀ w, refused w → refused' w) :
    Follows holds refused' edit plan := by
  intro v bits hv
  rcases hplan : plan bits with failure | ⟨a, bits'⟩
  · exact followsAt_error (h.error hv hplan) hplan
  · exact followsAt_of_yields hplan ((h.yields hv hplan).mono (fun _ _ hpost => hpost)
      fun _ w hfailed => ⟨hfailed.1, himp w hfailed.2⟩)

theorem Follows.map {β : Type} (h : Follows holds refused edit plan) (f : α → β) :
    Follows holds refused (f <$> edit) (plan.map f) := by
  intro v bits hv
  rcases hplan : plan bits with failure | ⟨a, bits'⟩
  · refine followsAt_error (Edit.map_error (h.error hv hplan)) ?_
    rw [Plan.map, hplan]
    rfl
  · have hmap : plan.map f bits = .ok (f a, bits') := by
      rw [Plan.map, hplan]
      rfl
    exact followsAt_of_yields hmap (((h.yields hv hplan).imp fun _ _ hpost =>
      ⟨congrArg f hpost.1, hpost.2⟩).map)

theorem followsAt_congr {edit' : Edit V α} {plan' : Plan α} (hedit : edit v = edit' v)
    (hplan : plan bits = plan' bits) (h : FollowsAt holds refused edit' plan' v bits) :
    FollowsAt holds refused edit plan v bits := by
  unfold FollowsAt Edit.Yields at *
  rwa [hedit, hplan]

/-- Arguments are checked against the length, by an edit as by its plan. -/
theorem followsAt_inspect {look : V → Nat} (check : Nat → Answer Unit)
    (hlook : look v = bits.length)
    (h : check bits.length = .ok () → FollowsAt holds refused edit plan v bits) :
    FollowsAt holds refused (do Edit.inspect fun v => check (look v); edit)
      (fun bits => do check bits.length; plan bits) v bits := by
  cases hcheck : check bits.length with
  | error failure =>
    have hread : (fun v => check (look v)) v = .error failure := by rw [← hcheck, ← hlook]
    exact followsAt_error (Edit.inspect_bind_error hread) (by rw [hcheck]; rfl)
  | ok _ =>
    have hread : (fun v => check (look v)) v = .ok () := by rw [← hcheck, ← hlook]
    exact followsAt_congr (Edit.inspect_bind_ok hread) (by rw [hcheck]; rfl) (h hcheck)

/-- A check that does not look at the value. -/
theorem followsAt_liftM {answer : Answer Unit} {rest : Answer (α × List Bool)}
    (hplan : plan bits = (do answer; rest))
    (h : answer = .ok () → FollowsAt holds refused edit (fun _ => rest) v bits) :
    FollowsAt holds refused (do liftM answer; edit) plan v bits := by
  cases answer with
  | error failure => exact followsAt_error (Edit.bind_error (Edit.liftM_error rfl)) hplan
  | ok _ => exact followsAt_congr (Edit.bind_ok (Edit.liftM_ok rfl)) hplan (h rfl)

/-- A look at the value is a look at its bits. -/
theorem followsAt_view {β : Type} {look : V → β} {b : β} {next : β → Edit V α}
    (hlook : look v = b) (h : FollowsAt holds refused (next b) plan v bits) :
    FollowsAt holds refused (Edit.view look >>= next) plan v bits := by
  have hrun : (Edit.view look >>= next) v = next b v := hlook ▸ Edit.view_bind look
  exact followsAt_congr hrun rfl h

end Follows

/-! ## Reading -/

/-- A source reads these bits, one by one and in windows. -/
structure Source.Reads (s : Source) (bits : List Bool) : Prop where
  length_eq : s.length = bits.length
  bit_eq {i : Nat} {b : Bool} : bits[i]? = some b → s.bit i = .ok b
  window_eq (lo hi : Nat) : lo ≤ hi → hi ≤ bits.length → hi - lo ≤ 64 →
    ∃ w, s.window lo hi = .ok w ∧
      ∀ j, w.getLsbD j = (decide (j < hi - lo) && bits[lo + j]?.getD false)

/-- A window has no one past its width. -/
theorem Word.narrow_of_window {w : Word} {bits : List Bool} {lo hi : Nat}
    (hw : ∀ j, w.getLsbD j = (decide (j < hi - lo) && bits[lo + j]?.getD false)) :
    Narrow (hi - lo) w := by
  intro j hj
  rw [hw, decide_eq_false (Nat.not_lt.mpr hj), Bool.false_and]

theorem Word.getLsbD_or_place (acc : Word) (b : Bool) {place : Nat} (hplace : place < 64)
    (j : Nat) :
    (acc ||| ((BitVec.ofBool b).setWidth 64) <<< place).getLsbD j =
      (acc.getLsbD j || (decide (j = place) && b)) := by
  rw [BitVec.getLsbD_or, BitVec.getLsbD_shiftLeft, BitVec.getLsbD_setWidth, BitVec.getLsbD_ofBool]
  rcases Nat.lt_trichotomy j place with hbefore | rfl | hafter
  · simp [hbefore, Nat.ne_of_lt hbefore]
  · simp [hplace]
  · simp [Nat.ne_of_gt hafter, show ¬(j - place = 0) by omega]

section Gather

variable {bits : List Bool} {bit : Nat → Answer Bool} {lo hi : Nat}

/-- The bits read so far stand in the word, the others are as they were. -/
theorem Source.foldUp_gather (hbit : ∀ i b, bits[i]? = some b → bit i = .ok b)
    (hhi : hi ≤ bits.length) (hspan : hi - lo ≤ 64) (count start : Nat) (acc : Word)
    (hlo : lo ≤ start) (hend : start + count ≤ hi) :
    ∃ w, (foldUp start count acc fun w i => do
        return w ||| (← shiftUp ((BitVec.ofBool (← bit i)).setWidth 64) (i - lo))) = .ok w ∧
      ∀ j, w.getLsbD j = (acc.getLsbD j ||
        (decide (start ≤ lo + j ∧ lo + j < start + count) && bits[lo + j]?.getD false)) := by
  induction count generalizing start acc with
  | zero =>
    refine ⟨acc, rfl, fun j => ?_⟩
    rw [decide_eq_false (by omega), Bool.false_and, Bool.or_false]
  | succ count ih =>
    have hlt : start < bits.length := by omega
    have hplace : start - lo < 64 := by omega
    have hread := hbit start bits[start] (List.getElem?_eq_getElem hlt)
    obtain ⟨w, hrun, hw⟩ :=
      ih (start + 1) (acc ||| ((BitVec.ofBool bits[start]).setWidth 64) <<< (start - lo))
        (by omega) (by omega)
    refine ⟨w, ?_, fun j => ?_⟩
    · rw [foldUp, hread]
      simp only [shiftUp_of_lt _ hplace, bind, Except.bind, pure, Except.pure]
      exact hrun
    · rw [hw, Word.getLsbD_or_place acc bits[start] hplace, Bool.or_assoc]
      congr 1
      by_cases hj : j = start - lo
      · have hat : lo + j = start := by omega
        rw [hat, List.getElem?_eq_getElem hlt, Option.getD_some, decide_eq_true hj,
          decide_eq_false (by omega), decide_eq_true (by omega), Bool.false_and, Bool.or_false]
      · have hiff : start + 1 ≤ lo + j ∧ lo + j < start + 1 + count ↔
            start ≤ lo + j ∧ lo + j < start + (count + 1) := by omega
        simp only [hiff, hj, decide_false, Bool.false_and, Bool.false_or]

/-- A window gathered bit by bit has the bits of the window. -/
theorem Source.gather_eq (hbit : ∀ i b, bits[i]? = some b → bit i = .ok b) (hle : lo ≤ hi)
    (hhi : hi ≤ bits.length) (hspan : hi - lo ≤ 64) :
    ∃ w, Source.gather bits.length bit lo hi = .ok w ∧
      ∀ j, w.getLsbD j = (decide (j < hi - lo) && bits[lo + j]?.getD false) := by
  have hwindow : checkWindow lo hi bits.length = .ok () :=
    checkWindow_eq_ok_iff.mpr ⟨hle, hhi, hspan⟩
  obtain ⟨w, hrun, hw⟩ :=
    Source.foldUp_gather hbit hhi hspan (hi - lo) lo 0#64 (Nat.le_refl lo) (by omega)
  refine ⟨w, ?_, fun j => ?_⟩
  · rw [Source.gather, hwindow]
    exact hrun
  · have hiff : lo ≤ lo + j ∧ lo + j < lo + (hi - lo) ↔ j < hi - lo := by omega
    rw [hw, BitVec.getLsbD_zero, Bool.false_or]
    simp only [hiff]

end Gather

end PackedBits
