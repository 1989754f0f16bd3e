import PackedBits.Proofs.Outcome
import PackedBits.WordVec.Build

/-!
# Arithmetic under guard

A difference of two numbers is a number whichever is larger, and a word can be
shifted by any amount, so an operation that takes a wrong step need not show it.
Here the operations on vectors in words are written once more with a guard in front
of every such step: a difference goes through `minus`, a shift through `shiftUp`,
`shiftDown` or `checkShift`. A step that is wrong is then a fault. Each of them is the
operation that it guards, whatever its arguments and whatever the state of the vector,
since the arguments have been checked by the time that a step is taken:
`WordVec.guarded_eq` says so of all of them.
-/

namespace PackedBits

/-! ## Guards -/

/-- A word can be shifted by `amount`. -/
def checkShift (amount : Nat) : Answer Unit :=
  require (amount < 64) (.fault (.shift amount))

/-- `checkWindow` with its difference under guard. -/
def guardedCheckWindow (lo hi length : Nat) : Answer Unit := do
  checkRange lo hi length
  require ((← minus hi lo) ≤ 64) (.spanTooWide lo hi)

namespace Word

/-- The difference of two words, the first at least the second. -/
def minus (left right : Word) : Answer Word :=
  if right ≤ left then .ok (left - right)
  else .error (.fault (.belowZero left.toNat right.toNat))

/-- `mask` with its shift and its difference under guard. -/
def guardedMask (len : Nat) : Answer Word :=
  if 64 ≤ len then .ok (BitVec.allOnes 64) else do minus (← shiftUp 1#64 len) 1#64

/-- `highest?` with its difference under guard. -/
def guardedHighest? (w : Word) : Answer (Option Nat) :=
  if w = 0#64 then .ok none else return some (← PackedBits.minus topPlace w.clz.toNat)

/-- `checkValue` with its mask under guard. -/
def guardedCheckValue (value : Word) (width : Nat) : Answer Unit := do
  require (value &&& ~~~(← guardedMask width) = 0#64) (.valueTooWide value width)

theorem guardedMask_eq (len : Nat) : guardedMask len = .ok (mask len) := by
  unfold guardedMask mask
  split
  · rfl
  · rename_i hlen
    have hlt : len < 64 := Nat.lt_of_not_le hlen
    have hone : 1#64 ≤ 1#64 <<< len := by
      rw [BitVec.le_def, BitVec.toNat_shiftLeft, Nat.shiftLeft_eq,
        show (1#64).toNat = 1 from rfl, Nat.one_mul,
        Nat.mod_eq_of_lt (Nat.pow_lt_pow_right (by decide) hlt)]
      exact Nat.two_pow_pos len
    rw [bind_of_ok (shiftUp_of_lt _ hlt), minus, if_pos hone]

theorem guardedHighest?_eq (w : Word) : guardedHighest? w = .ok w.highest? := by
  unfold guardedHighest? highest? highestPlace
  split
  · rfl
  · rename_i hne
    have hclz : w.clz.toNat < 64 := BitVec.lt_def.mp (BitVec.clz_lt_iff_ne_zero.mpr hne)
    rw [bind_of_ok (minus_of_le (show w.clz.toNat ≤ topPlace by unfold topPlace; omega))]
    rfl

theorem guardedCheckValue_eq : guardedCheckValue = checkValue := by
  funext value width
  rw [guardedCheckValue, bind_of_ok (guardedMask_eq width)]
  rfl

end Word

section

variable {V α β : Type}

theorem ok_bind (a : α) (next : α → Answer β) : (Except.ok a >>= next) = next a := rfl

theorem bind_congr_ok {answer : Answer α} {next next' : α → Answer β}
    (h : ∀ a, answer = .ok a → next a = next' a) : (answer >>= next) = (answer >>= next') := by
  cases answer with
  | ok a => exact h a rfl
  | error failure => rfl

namespace Edit

theorem liftM_ok_bind (a : α) (next : α → Edit V β) :
    ((liftM (Except.ok a : Answer α) : Edit V α) >>= next) = next a := rfl

theorem liftM_bind_congr {answer : Answer α} {next next' : α → Edit V β}
    (h : ∀ a, answer = .ok a → next a = next' a) :
    ((liftM answer : Edit V α) >>= next) = ((liftM answer : Edit V α) >>= next') := by
  cases answer with
  | ok a => exact h a rfl
  | error failure => rfl

theorem inspect_bind_congr {read : V → Answer α} {next next' : α → Edit V β} {v : V}
    (h : ∀ a, read v = .ok a → next a v = next' a v) :
    (inspect read >>= next) v = (inspect read >>= next') v := by
  rcases hread : read v with failure | a
  · rw [inspect_bind_error hread, inspect_bind_error hread]
  · rw [inspect_bind_ok hread, inspect_bind_ok hread, h a hread]

theorem view_bind_congr {look : V → α} {next next' : α → Edit V β}
    (h : ∀ v, next (look v) v = next' (look v) v) :
    (view look >>= next) = (view look >>= next') := by
  funext v
  rw [view_bind, view_bind, h v]

end Edit

/-- Loops whose steps are the same are the same. -/
theorem visitUp_congr {m : Type → Type} [Monad m] {start count : Nat} {act act' : Nat → m Unit}
    (h : ∀ i, start ≤ i → i < start + count → act i = act' i) :
    visitUp start count act = visitUp start count act' := by
  induction count generalizing start with
  | zero => rfl
  | succ count ih =>
    rw [visitUp, visitUp, h start (Nat.le_refl _) (by omega),
      ih fun i hlo hhi => h i (by omega) (by omega)]

theorem searchUp_congr {start count : Nat} {ask ask' : Nat → Answer (Option α)}
    (h : ∀ i, start ≤ i → i < start + count → ask i = ask' i) :
    searchUp start count ask = searchUp start count ask' := by
  induction count generalizing start with
  | zero => rfl
  | succ count ih =>
    rw [searchUp, searchUp, h start (Nat.le_refl _) (by omega),
      ih fun i hlo hhi => h i (by omega) (by omega)]

theorem searchDown_congr {count : Nat} {ask ask' : Nat → Answer (Option α)}
    (h : ∀ i, i < count → ask i = ask' i) : searchDown count ask = searchDown count ask' := by
  induction count with
  | zero => rfl
  | succ count ih =>
    rw [searchDown, searchDown, h count (by omega), ih fun i hi => h i (by omega)]

/-- Every window of a range lies in it and is no wider than a word. -/
theorem visitWindows_congr {m : Type → Type} [Monad m] {lo hi : Nat} {act act' : Nat → Nat → m Unit}
    (h : ∀ a b, lo ≤ a → a ≤ b → b ≤ hi → b - a ≤ 64 → act a b = act' a b) :
    visitWindows lo hi act = visitWindows lo hi act' := by
  have hfew := wordsFor_le (hi - lo)
  exact visitUp_congr fun k _ hk => h _ _ (by omega) (by omega) (by omega) (by omega)

end

theorem guardedCheckWindow_eq : guardedCheckWindow = checkWindow := by
  funext lo hi length
  unfold guardedCheckWindow checkWindow
  refine bind_congr_ok fun _ hrange => ?_
  rw [bind_of_ok (minus_of_le (require_eq_ok_iff.mp hrange).1)]

/-! ## Vectors in words -/

namespace WordVec

variable {S : Type} [WordStore S]

namespace Guarded

/-! ### Reading -/

def bit (v : WordVec S) (i : Nat) : Answer Bool := do
  checkIndex i v.length
  return (← shiftDown (← WordStore.word v.store (wordOf i)) (bitOf i)).getLsbD 0

def window (v : WordVec S) (lo hi : Nat) : Answer Word := do
  guardedCheckWindow lo hi v.length
  let width ← minus hi lo
  if width = 0 then return 0#64
  let field ← Word.guardedMask width
  let low ← shiftDown (← WordStore.word v.store (wordOf lo)) (bitOf lo)
  if bitOf lo + width ≤ 64 then return low &&& field
  let high ← WordStore.word v.store (wordOf lo + 1)
  return (low ||| (← shiftUp high (← minus 64 (bitOf lo)))) &&& field

def next (v : WordVec S) (b : Bool) (i : Nat) : Answer (Option Nat) :=
  if v.length ≤ i then .ok none
  else do
    let first := wordOf i
    let found ← searchUp first (← minus v.wordCount first) fun k => do
      let w ← v.holding b k
      let above ← shiftUp (BitVec.allOnes 64) (bitOf i)
      return (if k = first then w &&& above else w).lowest?.map (64 * k + ·)
    return if b then found else found.filter (· < v.length)

def previous (v : WordVec S) (b : Bool) (i : Nat) : Answer (Option Nat) :=
  let stop := min i v.length
  if stop = 0 then .ok none
  else do
    let top ← minus stop 1
    let last := wordOf top
    searchDown (last + 1) fun k => do
      let w ← v.holding b k
      let upTo ← Word.guardedMask (bitOf top + 1)
      return (← Word.guardedHighest? (if k = last then w &&& upTo else w)).map (64 * k + ·)

/-! ### Changing in place -/

def set (i : Nat) (b : Bool) : Edit (WordVec S) Bool := do
  let old ← Edit.inspect (bit · i)
  modifyWord (wordOf i) (Word.paint (← shiftUp 1#64 (bitOf i)) b)
  return old

def setBits (lo width : Nat) (value : Word) : Edit (WordVec S) Unit := do
  Edit.inspect fun v => guardedCheckWindow lo (lo + width) v.length
  Word.guardedCheckValue value width
  if width = 0 then return
  let k := wordOf lo
  let place := bitOf lo
  let field ← Word.guardedMask width
  modifyWord k (Word.overwrite (← shiftUp field place) (← shiftUp value place))
  let stored ← minus 64 place
  if stored < width then
    modifyWord (k + 1) (Word.overwrite (← shiftDown field stored) (← shiftDown value stored))

def onRange (lo hi : Nat) (part : Nat → Word → Edit (WordVec S) Unit)
    (between : Nat → Nat → Edit (WordVec S) Unit) : Edit (WordVec S) Unit := do
  Edit.inspect fun v => checkRange lo hi v.length
  if lo = hi then return
  let k := wordOf lo
  let l := wordOf hi
  if k = l then
    part k (← shiftUp (← Word.guardedMask (← minus hi lo)) (bitOf lo))
  else
    part k (← shiftUp (BitVec.allOnes 64) (bitOf lo))
    between (k + 1) l
    if bitOf hi ≠ 0 then part l (← Word.guardedMask (bitOf hi))

def fillRange (lo hi : Nat) (b : Bool) : Edit (WordVec S) Unit :=
  onRange lo hi (fun k field => modifyWord k (Word.paint field b))
    fun k l => onStore (WordStore.fill k l (if b then BitVec.allOnes 64 else 0#64))

def flipRange (lo hi : Nat) : Edit (WordVec S) Unit :=
  onRange lo hi (fun k field => modifyWord k (· ^^^ field)) fun k l => do
    visitUp k (← minus l k) fun k => modifyWord k (· ^^^ BitVec.allOnes 64)

def combine (op : Connective) (other : Source) : Edit (WordVec S) Unit := do
  let n ← Edit.view fun v => min v.length other.length
  visitWindows 0 n fun lo hi => do
    let field ← Word.guardedMask (← minus hi lo)
    let bits ← other.window lo hi
    modifyWord (wordOf lo) (op.onField field bits)

/-! ### Growing and shrinking -/

def clearTail : Edit (WordVec S) Unit := do
  let n ← Edit.view length
  if bitOf n ≠ 0 then
    let field ← Word.guardedMask (bitOf n)
    modifyWord (wordOf n) (· &&& field)

def shorten (n : Nat) : Edit (WordVec S) Unit := do
  cutTo n
  clearTail

def setLength (memory : Allocator) (n : Nat) : Edit (WordVec S) Unit := do
  let old ← Edit.view length
  if old < n then
    ensureCapacity memory n
    cutTo n
  else shorten n

def push (memory : Allocator) (b : Bool) : Edit (WordVec S) Unit := do
  let n ← Edit.view length
  if bitOf n = 0 then
    ensureCapacity memory (n + 1)
    onStore (modify (WordStore.resize (wordsFor n + 1)))
  if b then
    let one ← shiftUp 1#64 (bitOf n)
    modifyWord (wordOf n) (· ||| one)
  modify fun ⟨store, _⟩ => ⟨store, n + 1⟩

def appendBits (memory : Allocator) (w : Word) (count : Nat) : Edit (WordVec S) Unit := do
  let n ← Edit.view length
  require (count ≤ 64) (.spanTooWide n (n + count))
  if count = 0 then return
  let field ← Word.guardedMask count
  let bits := w &&& field
  let k := wordOf n
  let place := bitOf n
  setLength memory (n + count)
  let low ← shiftUp bits place
  modifyWord k (· ||| low)
  if 64 < place + count then
    let high ← shiftDown bits (← minus 64 place)
    modifyWord (k + 1) (· ||| high)

def append (memory : Allocator) (other : Source) : Edit (WordVec S) Unit := do
  let n ← Edit.view length
  ensureCapacity memory (← plus n other.length)
  visitWindows 0 other.length fun lo hi => do
    appendBits memory (← other.window lo hi) (← minus hi lo)

def insert (memory : Allocator) (i : Nat) (b : Bool) : Edit (WordVec S) Unit := do
  let n ← Edit.view length
  checkInsertIndex i n
  if i = n then push memory b
  else
    setLength memory (n + 1)
    let k := wordOf i
    checkShift 1
    visitDown (k + 1) (← minus (wordsFor (n + 1)) (k + 1)) fun k => do
      let lower ← minus k 1
      let below ← Edit.inspect fun v => WordStore.word v.store lower
      let carry ← shiftDown below topPlace
      modifyWord k fun w => w <<< 1 ||| carry
    let low ← Word.guardedMask (bitOf i)
    let entering ← shiftUp ((BitVec.ofBool b).setWidth 64) (bitOf i)
    modifyWord k fun w => (w &&& ~~~low) <<< 1 ||| (w &&& low) ||| entering

def remove (i : Nat) : Edit (WordVec S) Bool := do
  let n ← Edit.view length
  let old ← Edit.inspect (bit · i)
  if i + 1 = n then
    shorten i
    return old
  let k := wordOf i
  let low ← Word.guardedMask (bitOf i)
  checkShift 1
  modifyWord k fun w => (w >>> 1 &&& ~~~low) ||| (w &&& low)
  visitUp (k + 1) (← minus (wordsFor n) (k + 1)) fun k => do
    let w ← Edit.inspect fun v => WordStore.word v.store k
    let carry ← shiftUp (w &&& 1#64) topPlace
    modifyWord (← minus k 1) (· ||| carry)
    modifyWord k fun _ => w >>> 1
  cutTo (← minus n 1)
  return old

end Guarded

/-- Vectors in words with every difference and every shift under guard. -/
@[reducible] def guarded : ResizableBits (WordVec S) where
  length := length
  bit := Guarded.bit
  window := Guarded.window
  countOnes := countOnes
  next := Guarded.next
  previous := Guarded.previous
  set := Guarded.set
  setBits := Guarded.setBits
  fillRange := Guarded.fillRange
  flipRange := Guarded.flipRange
  combine := Guarded.combine
  setLength := Guarded.setLength
  insert := Guarded.insert
  remove := Guarded.remove
  push := Guarded.push
  appendBits := Guarded.appendBits
  append := Guarded.append

namespace Guarded

theorem shiftUp_bitOf (w : Word) (i : Nat) : shiftUp w (bitOf i) = .ok (w <<< bitOf i) :=
  shiftUp_of_lt w (bitOf_lt i)

theorem shiftDown_bitOf (w : Word) (i : Nat) : shiftDown w (bitOf i) = .ok (w >>> bitOf i) :=
  shiftDown_of_lt w (bitOf_lt i)

theorem minus_bitOf (i : Nat) : minus 64 (bitOf i) = .ok (64 - bitOf i) :=
  minus_of_le (Nat.le_of_lt (bitOf_lt i))

theorem bit_eq : Guarded.bit (S := S) = WordVec.bit := by
  funext v i
  refine bind_congr_ok fun _ _ => bind_congr_ok fun w _ => ?_
  rw [shiftDown_bitOf, ok_bind, BitVec.getLsbD_ushiftRight, Nat.add_zero]

theorem window_eq : Guarded.window (S := S) = WordVec.window := by
  funext v lo hi
  rw [Guarded.window, WordVec.window, guardedCheckWindow_eq]
  refine bind_congr_ok fun _ hwindow => ?_
  obtain ⟨hle, -, -⟩ := checkWindow_eq_ok_iff.mp hwindow
  simp only [minus_of_le hle, Word.guardedMask_eq, minus_bitOf, ok_bind]

/-- The places from that of a position on, in the word that holds it, and all of the
places of a word after it. -/
theorem not_mask_max {i k : Nat} (hk : wordOf i ≤ k) :
    ~~~Word.mask (max i (64 * k) - 64 * k) =
      if k = wordOf i then BitVec.allOnes 64 <<< bitOf i else BitVec.allOnes 64 := by
  have hplace := wordOf_bitOf i
  have hlt := bitOf_lt i
  apply BitVec.eq_of_getLsbD_eq
  intro j hj
  rw [BitVec.getLsbD_not, Word.getLsbD_mask]
  split
  · rename_i hsame
    rw [show max i (64 * k) - 64 * k = bitOf i by omega, BitVec.getLsbD_shiftLeft,
      BitVec.getLsbD_allOnes]
    by_cases hbelow : j < bitOf i
    · simp [hj, hbelow]
    · simp [hj, hbelow, show j - bitOf i < 64 by omega]
  · rw [show max i (64 * k) - 64 * k = 0 by omega, BitVec.getLsbD_allOnes]
    simp [hj]

/-- The places below a position in the word that holds the one before it, and all of
the places of a word below it. -/
theorem mask_min {stop k : Nat} (hpos : 0 < stop) (hk : k ≤ wordOf (stop - 1)) :
    Word.mask (min stop (64 * (k + 1)) - 64 * k) =
      if k = wordOf (stop - 1) then Word.mask (bitOf (stop - 1) + 1) else BitVec.allOnes 64 := by
  have hplace := wordOf_bitOf (stop - 1)
  have hlt := bitOf_lt (stop - 1)
  split
  · rw [show min stop (64 * (k + 1)) - 64 * k = bitOf (stop - 1) + 1 by omega]
  · rw [show min stop (64 * (k + 1)) - 64 * k = 64 by omega]
    rfl

theorem and_ite_allOnes {condition : Prop} [Decidable condition] (w field : Word) :
    (w &&& if condition then field else BitVec.allOnes 64) =
      if condition then w &&& field else w := by
  split
  · rfl
  · exact BitVec.and_allOnes

theorem next_eq : Guarded.next (S := S) = WordVec.next := by
  funext v b i
  unfold Guarded.next WordVec.next
  split
  · rfl
  · rename_i hin
    have hword : wordOf i < v.wordCount := wordOf_lt_wordsFor (Nat.lt_of_not_le hin)
    simp only [minus_of_le (Nat.le_of_lt hword), shiftUp_bitOf, ok_bind]
    congr 1
    refine searchUp_congr fun k hk _ => ?_
    simp only [not_mask_max hk, and_ite_allOnes]

theorem previous_eq : Guarded.previous (S := S) = WordVec.previous := by
  funext v b i
  unfold Guarded.previous WordVec.previous
  rcases Nat.eq_zero_or_pos (min i v.length) with hzero | hpos
  · simp only [hzero, if_pos, wordsFor_zero]
    rfl
  · have hwords : wordsFor (min i v.length) = wordOf (min i v.length - 1) + 1 := by
      have hfew := wordsFor_le (min i v.length)
      have hword := wordOf_lt_wordsFor (show min i v.length - 1 < min i v.length by omega)
      unfold wordOf at hword ⊢
      omega
    simp only [if_neg (Nat.ne_of_gt hpos), minus_of_le hpos, ok_bind, hwords]
    refine searchDown_congr fun k hk => ?_
    simp only [Word.guardedMask_eq, Word.guardedHighest?_eq, ok_bind,
      mask_min hpos (Nat.le_of_lt_succ hk), and_ite_allOnes]

theorem set_eq : Guarded.set (S := S) = WordVec.set := by
  funext i b
  unfold Guarded.set WordVec.set
  simp only [bit_eq, shiftUp_bitOf, Edit.liftM_ok_bind]

theorem setBits_eq : Guarded.setBits (S := S) = WordVec.setBits := by
  funext lo width value
  unfold Guarded.setBits WordVec.setBits
  simp only [guardedCheckWindow_eq, Word.guardedCheckValue_eq, Word.guardedMask_eq,
    Edit.liftM_ok_bind]

omit [WordStore S] in
theorem onRange_eq {lo hi : Nat} {part : Nat → Word → Edit (WordVec S) Unit}
    {between between' : Nat → Nat → Edit (WordVec S) Unit}
    (hbetween : wordOf lo + 1 ≤ wordOf hi →
      between (wordOf lo + 1) (wordOf hi) = between' (wordOf lo + 1) (wordOf hi)) :
    Guarded.onRange lo hi part between = WordVec.onRange lo hi part between' := by
  funext v
  refine Edit.inspect_bind_congr fun _ hrange => ?_
  obtain ⟨hle, -⟩ := require_eq_ok_iff.mp hrange
  simp only [minus_of_le hle, Word.guardedMask_eq, shiftUp_bitOf, Edit.liftM_ok_bind]
  split
  · rfl
  · split
    · rfl
    · rename_i hne
      have hwords : wordOf lo + 1 ≤ wordOf hi := by
        have hsame : wordOf lo ≤ wordOf hi := Nat.div_le_div_right hle
        omega
      rw [hbetween hwords]

theorem fillRange_eq : Guarded.fillRange (S := S) = WordVec.fillRange := by
  funext lo hi b
  exact onRange_eq fun _ => rfl

theorem flipRange_eq : Guarded.flipRange (S := S) = WordVec.flipRange := by
  funext lo hi
  refine onRange_eq fun hwords => ?_
  rw [minus_of_le hwords, Edit.liftM_ok_bind]

theorem combine_eq : Guarded.combine (S := S) = WordVec.combine := by
  funext op other
  refine Edit.view_bind_congr fun v => congrFun ?_ v
  refine visitWindows_congr fun lo hi _ hle _ _ => ?_
  simp only [minus_of_le hle, Word.guardedMask_eq, Edit.liftM_ok_bind]

theorem clearTail_eq : Guarded.clearTail (S := S) = WordVec.clearTail := by
  unfold Guarded.clearTail WordVec.clearTail
  simp only [Word.guardedMask_eq, Edit.liftM_ok_bind]

theorem shorten_eq : Guarded.shorten (S := S) = WordVec.shorten := by
  funext n
  rw [Guarded.shorten, WordVec.shorten, clearTail_eq]

theorem setLength_eq : Guarded.setLength (S := S) = WordVec.setLength := by
  funext memory n
  rw [Guarded.setLength, WordVec.setLength, shorten_eq]

theorem push_eq : Guarded.push (S := S) = WordVec.push := by
  funext memory b
  unfold Guarded.push WordVec.push
  simp only [shiftUp_bitOf, Edit.liftM_ok_bind]

theorem appendBits_eq : Guarded.appendBits (S := S) = WordVec.appendBits := by
  funext memory w count
  unfold Guarded.appendBits WordVec.appendBits
  simp only [Word.guardedMask_eq, setLength_eq, minus_bitOf, Edit.liftM_ok_bind]

theorem append_eq : Guarded.append (S := S) = WordVec.append := by
  funext memory other
  unfold Guarded.append WordVec.append
  congr 1
  funext n
  congr 1
  funext total
  congr 1
  funext _
  refine visitWindows_congr fun lo hi _ hle _ _ => ?_
  simp only [appendBits_eq, minus_of_le hle, Edit.liftM_ok_bind]

theorem shiftDown_topPlace (w : Word) : shiftDown w topPlace = .ok (w >>> topPlace) :=
  shiftDown_of_lt w (by decide)

theorem shiftUp_topPlace (w : Word) : shiftUp w topPlace = .ok (w <<< topPlace) :=
  shiftUp_of_lt w (by decide)

theorem checkShift_one : checkShift 1 = .ok () := rfl

theorem insert_eq : Guarded.insert (S := S) = WordVec.insert := by
  funext memory i b
  refine Edit.view_bind_congr fun v => congrFun (Edit.liftM_bind_congr fun _ hcheck => ?_) v
  have hle : i ≤ v.length := require_eq_ok_iff.mp hcheck
  rw [push_eq]
  split
  · rfl
  · have hword : wordOf i < wordsFor (v.length + 1) := wordOf_lt_wordsFor (by omega)
    simp only [setLength_eq, checkShift_one, minus_of_le hword, shiftDown_topPlace,
      Word.guardedMask_eq, shiftUp_bitOf, Edit.liftM_ok_bind]

theorem remove_eq : Guarded.remove (S := S) = WordVec.remove := by
  funext i
  refine Edit.view_bind_congr fun v => ?_
  rw [bit_eq]
  refine Edit.inspect_bind_congr fun old hbit => ?_
  obtain ⟨_, hcheck, -⟩ := bind_eq_ok hbit
  have hword : wordOf i < wordsFor v.length := wordOf_lt_wordsFor (require_eq_ok_iff.mp hcheck)
  rw [shorten_eq]
  simp only [Word.guardedMask_eq, checkShift_one, minus_of_le hword, shiftUp_topPlace,
    Edit.liftM_ok_bind]

end Guarded

/-- No guard ever fails: with all of them, every operation is the operation without. -/
theorem guarded_eq : guarded (S := S) = instResizableBits := by
  rw [guarded, Guarded.bit_eq, Guarded.window_eq, Guarded.next_eq, Guarded.previous_eq,
    Guarded.set_eq, Guarded.setBits_eq, Guarded.fillRange_eq, Guarded.flipRange_eq,
    Guarded.combine_eq, Guarded.setLength_eq, Guarded.insert_eq, Guarded.remove_eq,
    Guarded.push_eq, Guarded.appendBits_eq, Guarded.append_eq]
  rfl

end WordVec

end PackedBits
