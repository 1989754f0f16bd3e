import PackedBits.Failure

/-!
# Validation and guarded arithmetic

The checks that stand in front of every read and write, and the steps of
arithmetic that have a precondition: a shift by less than a word, a difference
that does not go below zero, and a sum or a product that a machine word counts.
Each check succeeds exactly under the condition it is named for, which its lemma
states. A sum or a product is checked where it is a length that is asked for, the
end of a window or a number of words; positions of bits in memory are far below
the largest number, and what is added to them is not checked.
-/

namespace PackedBits

/-- The outcome of a read: a value, or the reason why there is none. -/
abbrev Answer (α : Type) := Except Failure α

instance {α : Type} [DecidableEq α] : DecidableEq (Answer α)
  | .ok a, .ok b => decidable_of_iff (a = b) ⟨congrArg Except.ok, Except.ok.inj⟩
  | .error f, .error g => decidable_of_iff (f = g) ⟨congrArg Except.error, Except.error.inj⟩
  | .ok _, .error _ => isFalse nofun
  | .error _, .ok _ => isFalse nofun

/-- Refuses with `failure` unless `condition` holds. -/
def require (condition : Prop) [Decidable condition] (failure : Failure) : Answer Unit :=
  if condition then .ok () else .error failure

/-- A requirement is met exactly when its condition holds. -/
theorem require_eq_ok_iff {condition : Prop} [Decidable condition] {failure : Failure} :
    require condition failure = .ok () ↔ condition := by
  unfold require
  split <;> simp_all

/-- A refusal carries the failure it was given. -/
theorem require_eq_error_iff {condition : Prop} [Decidable condition]
    {failure other : Failure} :
    require condition failure = .error other ↔ ¬condition ∧ failure = other := by
  unfold require
  split <;> simp_all

/-! ## Positions and ranges -/

/-- A position to read or write lies below the end. -/
def checkIndex (index length : Nat) : Answer Unit :=
  require (index < length) (.indexOutOfBounds index length)

/-- A position to insert at lies at or below the end. -/
def checkInsertIndex (index length : Nat) : Answer Unit :=
  require (index ≤ length) (.indexOutOfBounds index length)

/-- A range is in order and ends at or below the end. -/
def checkRange (lo hi length : Nat) : Answer Unit :=
  require (lo ≤ hi ∧ hi ≤ length) (.invalidRange lo hi length)

/-- A window is a range of at most 64 positions. -/
def checkWindow (lo hi length : Nat) : Answer Unit := do
  checkRange lo hi length
  require (hi - lo ≤ 64) (.spanTooWide lo hi)

/-- A value has no one at or past `width`. -/
def checkValue (value : Word) (width : Nat) : Answer Unit :=
  require (value &&& ~~~Word.mask width = 0#64) (.valueTooWide value width)

/-- A window passes exactly when it is a range of at most 64 positions. -/
theorem checkWindow_eq_ok_iff {lo hi length : Nat} :
    checkWindow lo hi length = .ok () ↔ lo ≤ hi ∧ hi ≤ length ∧ hi - lo ≤ 64 := by
  unfold checkWindow checkRange require
  by_cases hrange : lo ≤ hi ∧ hi ≤ length
  · rw [if_pos hrange]
    by_cases hspan : hi - lo ≤ 64
    · rw [if_pos hspan]
      exact ⟨fun _ => ⟨hrange.1, hrange.2, hspan⟩, fun _ => rfl⟩
    · rw [if_neg hspan]
      exact ⟨nofun, fun h => absurd h.2.2 hspan⟩
  · rw [if_neg hrange]
    exact ⟨nofun, fun h => absurd ⟨h.1, h.2.1⟩ hrange⟩

/-! ## Arithmetic with a precondition -/

/-- The difference of two numbers, the first at least the second. -/
def minus (left right : Nat) : Answer Nat :=
  if right ≤ left then .ok (left - right) else .error (.fault (.belowZero left right))

/-- The sum of two numbers that a machine word counts, if it counts that as well. -/
def plus (left right : Nat) : Answer Nat :=
  if left ≤ maxPosition - right then .ok (left + right) else .error (.overflow .sum)

/-- The product of two numbers, if a machine word counts it. -/
def times (left right : Nat) : Answer Nat :=
  if left * right ≤ maxPosition then .ok (left * right) else .error (.overflow .product)

/-- A word moved up by less than 64 places. -/
def shiftUp (w : Word) (amount : Nat) : Answer Word :=
  if amount < 64 then .ok (w <<< amount) else .error (.fault (.shift amount))

/-- A word moved down by less than 64 places. -/
def shiftDown (w : Word) (amount : Nat) : Answer Word :=
  if amount < 64 then .ok (w >>> amount) else .error (.fault (.shift amount))

theorem minus_of_le {left right : Nat} (h : right ≤ left) :
    minus left right = .ok (left - right) := if_pos h

theorem minus_eq_ok {left right n : Nat} (h : minus left right = .ok n) : n = left - right := by
  unfold minus at h
  split at h
  · cases h
    rfl
  · cases h

theorem plus_of_le {left right : Nat} (h : left ≤ maxPosition - right) :
    plus left right = .ok (left + right) := if_pos h

/-- A number is added to nothing. -/
theorem zero_plus (n : Nat) : plus 0 n = .ok n := by
  rw [plus_of_le (Nat.zero_le _), Nat.zero_add]

theorem plus_of_lt {left right : Nat} (h : maxPosition - right < left) :
    plus left right = .error (.overflow .sum) := if_neg (Nat.not_le.mpr h)

theorem plus_eq_ok {left right n : Nat} (h : plus left right = .ok n) : n = left + right := by
  unfold plus at h
  split at h
  · cases h
    rfl
  · cases h

theorem plus_eq_error {left right : Nat} {failure : Failure}
    (h : plus left right = .error failure) : failure = .overflow .sum := by
  unfold plus at h
  split at h
  · cases h
  · cases h
    rfl

theorem times_eq_ok {left right n : Nat} (h : times left right = .ok n) : n = left * right := by
  unfold times at h
  split at h
  · cases h
    rfl
  · cases h

theorem times_eq_error {left right : Nat} {failure : Failure}
    (h : times left right = .error failure) : failure = .overflow .product := by
  unfold times at h
  split at h
  · cases h
  · cases h
    rfl

theorem shiftUp_of_lt {amount : Nat} (w : Word) (h : amount < 64) :
    shiftUp w amount = .ok (w <<< amount) := if_pos h

theorem shiftDown_of_lt {amount : Nat} (w : Word) (h : amount < 64) :
    shiftDown w amount = .ok (w >>> amount) := if_pos h

end PackedBits
