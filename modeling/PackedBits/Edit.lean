import PackedBits.Check

/-!
# Edits

An edit changes a value in place and gives an answer; when it fails, the value
stays as the edit left it. `Edit V α` is that, and reads and checks can be used
inside it directly. The rest of the module reads the value being edited, runs
an edit to its final value, rewords its failure and cleans up after it.
-/

namespace PackedBits

/-- A change of a value of type `V` that gives an `α`. A failed edit keeps the
value as it was at the moment of the failure. -/
abbrev Edit (V : Type) (α : Type) := EStateM Failure V α

/-- A check or a read that does not look at the value edited. -/
instance {V : Type} : MonadLift (Except Failure) (EStateM Failure V) where
  monadLift answer := fun v =>
    match answer with
    | .ok a => .ok a v
    | .error failure => .error failure v

namespace Edit

variable {V α β : Type}

/-- Reads the value being edited, which may fail. -/
@[inline] def inspect (read : V → Answer α) : Edit V α := fun v =>
  match read v with
  | .ok a => .ok a v
  | .error failure => .error failure v

/-- Looks at the value being edited. -/
@[inline] def view (look : V → α) : Edit V α := fun v => .ok (look v) v

/-- The value that an edit of `v` ends with, or its failure. -/
def build (edit : Edit V Unit) (v : V) : Answer V :=
  match edit v with
  | .ok _ v => .ok v
  | .error failure _ => .error failure

/-- Gives the failure of an edit other words. -/
@[inline] def reword (f : Failure → Failure) (edit : Edit V α) : Edit V α := fun v =>
  match edit v with
  | .ok a v => .ok a v
  | .error failure v => .error (f failure) v

/-- Runs `cleanup` on the value that a failed edit leaves behind. -/
@[inline] def onFailure (edit : Edit V α) (cleanup : Failure → Edit V Unit) : Edit V α := fun v =>
  match edit v with
  | .ok a v => .ok a v
  | .error failure v =>
    match cleanup failure v with
    | .ok _ v => .error failure v
    | .error failure v => .error failure v

/-! ## Running edits -/

@[simp] theorem view_apply (look : V → α) (v : V) : view look v = .ok (look v) v := rfl

theorem inspect_ok {read : V → Answer α} {v : V} {a : α} (h : read v = .ok a) :
    inspect read v = .ok a v := by
  simp [inspect, h]

theorem inspect_error {read : V → Answer α} {v : V} {failure : Failure}
    (h : read v = .error failure) : inspect read v = .error failure v := by
  simp [inspect, h]

/-- An edit goes on from the answer and the value of the edit before it. -/
theorem bind_ok {edit : Edit V α} {next : α → Edit V β} {v w : V} {a : α}
    (h : edit v = .ok a w) : (edit >>= next) v = next a w := by
  simp only [bind, EStateM.bind, h]

/-- An edit stops where the edit before it fails. -/
theorem bind_error {edit : Edit V α} {next : α → Edit V β} {v w : V} {failure : Failure}
    (h : edit v = .error failure w) : (edit >>= next) v = .error failure w := by
  simp only [bind, EStateM.bind, h]

theorem build_eq_ok {edit : Edit V Unit} {v w : V} :
    edit.build v = .ok w ↔ edit v = .ok () w := by
  unfold build
  split <;> simp_all

end Edit

end PackedBits
