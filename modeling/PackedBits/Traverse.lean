/-!
# Steps over consecutive positions

A loop over positions is one of five: a fold upward, a visit in either
direction, and a search in either direction that stops at the first answer.
Each runs by recursion on the number of positions, in any monad, so a failure
ends it where it happens.
-/

namespace PackedBits

variable {m : Type → Type} [Monad m] {α β : Type}

/-- Runs `step` at `start`, `start + 1`, …, `count` positions in all, handing
each result to the next. -/
@[specialize] def foldUp (start count : Nat) (acc : β) (step : β → Nat → m β) : m β :=
  match count with
  | 0 => pure acc
  | count + 1 => do foldUp (start + 1) count (← step acc start) step

/-- Runs `act` at `start`, `start + 1`, …, `count` positions in all. -/
@[specialize] def visitUp (start count : Nat) (act : Nat → m Unit) : m Unit :=
  match count with
  | 0 => pure ()
  | count + 1 => do
    act start
    visitUp (start + 1) count act

/-- Runs `act` at the `count` positions from `start` on, the last one first. -/
@[specialize] def visitDown (start count : Nat) (act : Nat → m Unit) : m Unit :=
  match count with
  | 0 => pure ()
  | count + 1 => do
    act (start + count)
    visitDown start count act

/-- The answer of the first position that has one, among the `count` positions
from `start` on. -/
@[specialize] def searchUp (start count : Nat) (ask : Nat → m (Option α)) :
    m (Option α) :=
  match count with
  | 0 => pure none
  | count + 1 => do
    match ← ask start with
    | some a => pure (some a)
    | none => searchUp (start + 1) count ask

/-- The answer of the last position below `count` that has one. -/
@[specialize] def searchDown (count : Nat) (ask : Nat → m (Option α)) : m (Option α) :=
  match count with
  | 0 => pure none
  | count + 1 => do
    match ← ask count with
    | some a => pure (some a)
    | none => searchDown count ask

/-! ## What the steps come to -/

section

variable {ε : Type} {start count : Nat}

/-- A fold whose every step succeeds is the fold of its steps. -/
theorem foldUp_eq_ok {step : β → Nat → Except ε β} {f : β → Nat → β} {acc : β}
    (h : ∀ acc i, start ≤ i → i < start + count → step acc i = .ok (f acc i)) :
    foldUp start count acc step = .ok ((List.range' start count).foldl f acc) := by
  induction count generalizing start acc with
  | zero => rfl
  | succ count ih =>
    rw [foldUp, h acc start (Nat.le_refl _) (by omega), List.range'_succ, List.foldl_cons]
    exact ih fun acc i hlo hhi => h acc i (by omega) (by omega)

end

end PackedBits
