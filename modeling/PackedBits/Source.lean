import PackedBits.Check
import PackedBits.Traverse

/-!
# Sources of bits

A `Source` is what a reader sees of a sequence of bits: how many there are, the
bit at a position, and the bits of a window of at most 64 positions packed in a
word. Counting and scanning need no more than that and go a window at a time;
the windows of a scan begin at whole words, so that where bits are kept in
words each window is one word.

The end of a window is worked out before it is cut short at the end of the range,
so a full window has to end at a position. Where a range may lie anywhere below the
largest position, `checkWindowEnd` says so; `windowsEnd` is how far such windows go.
A count passes over all the bits before it comes to a window that does not end at a
position. No vector that is kept in memory has so many bits, and what is shown of the
counts of others asks for fewer, so the windows of a count are not checked.
-/

namespace PackedBits

/-- The sequence of bits that a reader sees. -/
structure Source where
  /-- The number of bits. -/
  length : Nat
  /-- The bit at a position below the length. -/
  bit : Nat → Answer Bool
  /-- The bits from one position up to another, the first at place 0. -/
  window : Nat → Nat → Answer Word

/-! ## Windows -/

/-- A full window from `lo` ends at a position. -/
def checkWindowEnd (lo : Nat) : Answer Unit := discard (plus lo 64)

/-- The end of the last full window, of those from `lo` on, that ends at a position. -/
def windowsEnd (lo : Nat) : Nat := lo + 64 * ((maxPosition - lo) / 64)

section

variable {m : Type → Type} [Monad m] {β : Type}

/-- Runs `step` on the windows that cut `lo` up to `hi` into words. -/
@[specialize] def foldWindows (lo hi : Nat) (acc : β) (step : β → Nat → Nat → m β) : m β :=
  foldUp 0 (wordsFor (hi - lo)) acc fun acc k =>
    step acc (lo + 64 * k) (min (lo + 64 * (k + 1)) hi)

/-- Runs `act` on the windows that cut `lo` up to `hi` into words. -/
@[specialize] def visitWindows (lo hi : Nat) (act : Nat → Nat → m Unit) : m Unit :=
  visitUp 0 (wordsFor (hi - lo)) fun k =>
    act (lo + 64 * k) (min (lo + 64 * (k + 1)) hi)

end

/-- The answer of the first window of `lo` up to `hi` that has one. -/
@[specialize] def searchWindows {α : Type} (lo hi : Nat) (ask : Nat → Nat → Answer (Option α)) :
    Answer (Option α) :=
  searchUp 0 (wordsFor (hi - lo)) fun k => do
    checkWindowEnd (lo + 64 * k)
    ask (lo + 64 * k) (min (lo + 64 * (k + 1)) hi)

theorem checkWindowEnd_of_le {lo : Nat} (h : lo ≤ maxPosition - 64) :
    checkWindowEnd lo = .ok () := by
  rw [checkWindowEnd, plus_of_le h]
  rfl

theorem checkWindowEnd_of_lt {lo : Nat} (h : maxPosition - 64 < lo) :
    checkWindowEnd lo = .error (.overflow .sum) := by
  rw [checkWindowEnd, plus_of_lt h]
  rfl

theorem le_windowsEnd (lo : Nat) : lo ≤ windowsEnd lo := Nat.le_add_right _ _

/-- A window ends at a position just where it is one of those that do. -/
theorem window_le_windowsEnd_iff (lo k : Nat) :
    lo + 64 * (k + 1) ≤ windowsEnd lo ↔ lo + 64 * k ≤ maxPosition - 64 := by
  unfold windowsEnd maxPosition
  omega

namespace Source

/-- The bits from `lo` up to `hi` of a sequence that is read bit by bit. -/
def gather (length : Nat) (bit : Nat → Answer Bool) (lo hi : Nat) : Answer Word := do
  checkWindow lo hi length
  foldUp lo (hi - lo) 0#64 fun w i => do
    return w ||| (← shiftUp ((BitVec.ofBool (← bit i)).setWidth 64) (i - lo))

/-- The places of a window of `width` bits that hold `bit`. -/
def matching (bit : Bool) (width : Nat) (w : Word) : Word :=
  if bit then w else ~~~w &&& Word.mask width

/-! ## Counting and scanning -/

/-- The number of ones. -/
def countOnes (s : Source) : Answer Nat :=
  foldWindows 0 s.length 0 fun count lo hi =>
    return count + (← s.window lo hi).ones

/-- The lowest position from `i` on that holds `bit`. -/
def next (s : Source) (bit : Bool) (i : Nat) : Answer (Option Nat) :=
  if s.length ≤ i then .ok none
  else
    searchUp (wordOf i) (wordsFor s.length - wordOf i) fun w => do
      checkWindowEnd (64 * w)
      let lo := max i (64 * w)
      let hi := min (64 * (w + 1)) s.length
      let found := matching bit (hi - lo) (← s.window lo hi)
      return found.lowest?.map (lo + ·)

/-- The highest position below `i` that holds `bit`. -/
def previous (s : Source) (bit : Bool) (i : Nat) : Answer (Option Nat) :=
  let stop := min i s.length
  searchDown (wordsFor stop) fun w => do
    let lo := 64 * w
    let hi := min (64 * (w + 1)) stop
    let found := matching bit (hi - lo) (← s.window lo hi)
    return found.highest?.map (lo + ·)

end Source

end PackedBits
