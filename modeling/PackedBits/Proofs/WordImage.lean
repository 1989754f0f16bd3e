import PackedBits.Proofs.StoreLaw
import PackedBits.WordVec.Resizable

/-!
# The bits that words hold

The words of a store are looked at as one function from positions to bits, zero
past the last word. `WordVec.Image` is that picture of a vector: its length, the
number of its words and the bits in them, those past the length included. Each
step that an operation takes on words has one rule that says which picture it
leaves; an operation is then followed picture by picture.
-/

namespace PackedBits

/-! ## Fields of a word -/

namespace Word

theorem getLsbD_paint (field w : Word) (b : Bool) {j : Nat} (hj : j < 64) :
    (paint field b w).getLsbD j = if field.getLsbD j then b else w.getLsbD j := by
  cases b <;> cases hfield : field.getLsbD j <;>
    simp only [paint, Bool.false_eq_true, if_true, if_false, BitVec.getLsbD_or, BitVec.getLsbD_and,
      BitVec.getLsbD_not, hfield, decide_eq_true hj, Bool.not_false, Bool.not_true, Bool.and_true,
      Bool.and_false, Bool.or_false, Bool.or_true]

theorem getLsbD_overwrite {field bits : Word} (w : Word)
    (hbits : ∀ j, field.getLsbD j = false → bits.getLsbD j = false) {j : Nat} (hj : j < 64) :
    (overwrite field bits w).getLsbD j =
      if field.getLsbD j then bits.getLsbD j else w.getLsbD j := by
  rw [overwrite, BitVec.getLsbD_or, BitVec.getLsbD_and, BitVec.getLsbD_not, decide_eq_true hj]
  cases hfield : field.getLsbD j
  · simp [hbits j hfield]
  · simp

/-- A word has no one at or past `width`. -/
def Narrow (width : Nat) (w : Word) : Prop := ∀ j, width ≤ j → w.getLsbD j = false

theorem narrow_mask (width : Nat) : Narrow width (mask width) := by
  intro j hj
  simp [getLsbD_mask, Nat.not_lt.mpr hj]

theorem Narrow.and_left {width : Nat} {w : Word} (h : Narrow width w) (x : Word) :
    Narrow width (x &&& w) := by
  intro j hj
  rw [BitVec.getLsbD_and, h j hj, Bool.and_false]

theorem Narrow.or {width : Nat} {a b : Word} (ha : Narrow width a) (hb : Narrow width b) :
    Narrow width (a ||| b) := by
  intro j hj
  rw [BitVec.getLsbD_or, ha j hj, hb j hj, Bool.or_false]

theorem Narrow.xor {width : Nat} {a b : Word} (ha : Narrow width a) (hb : Narrow width b) :
    Narrow width (a ^^^ b) := by
  intro j hj
  rw [BitVec.getLsbD_xor, ha j hj, hb j hj, Bool.xor_false]

/-- A word with no one outside of a mask is one with no one past its width. -/
theorem and_not_mask_eq_zero_iff {width : Nat} {w : Word} :
    w &&& ~~~mask width = 0#64 ↔ Narrow width w := by
  constructor
  · intro h j hj
    have hbit := congrArg (fun w => BitVec.getLsbD w j) h
    rcases Nat.lt_or_ge j 64 with hword | hword
    · simpa only [BitVec.getLsbD_and, BitVec.getLsbD_not, getLsbD_mask, decide_eq_true hword,
        decide_eq_false (Nat.not_lt.mpr hj), Bool.and_false, Bool.not_false, Bool.and_true,
        BitVec.getLsbD_zero] using hbit
    · exact BitVec.getLsbD_of_ge w j hword
  · intro h
    apply BitVec.eq_of_getLsbD_eq
    intro j hj
    rw [BitVec.getLsbD_and, BitVec.getLsbD_not, getLsbD_mask]
    rcases Nat.lt_or_ge j width with hwidth | hwidth
    · simp [hj, hwidth]
    · simp [h j hwidth]

end Word

/-- A value passes exactly when it has no one at or past the width. -/
theorem checkValue_eq_ok_iff {value : Word} {width : Nat} :
    checkValue value width = .ok () ↔ Word.Narrow width value := by
  rw [checkValue, require_eq_ok_iff, Word.and_not_mask_eq_zero_iff]

namespace Connective

/-- Combines two bits. -/
def onBits : Connective → Bool → Bool → Bool
  | .both, a, b => a && b
  | .either, a, b => a || b
  | .differ, a, b => a ^^ b

theorem getLsbD_onWords (op : Connective) (a b : Word) (j : Nat) :
    (op.onWords a b).getLsbD j = op.onBits (a.getLsbD j) (b.getLsbD j) := by
  cases op
  · exact BitVec.getLsbD_and
  · exact BitVec.getLsbD_or
  · exact BitVec.getLsbD_xor

theorem narrow_onWords (op : Connective) {width : Nat} {a b : Word} (ha : Word.Narrow width a)
    (hb : Word.Narrow width b) : Word.Narrow width (op.onWords a b) := by
  cases op
  · exact hb.and_left a
  · exact ha.or hb
  · exact ha.xor hb

theorem getLsbD_onField (op : Connective) {field bits : Word} (w : Word)
    (hbits : ∀ j, field.getLsbD j = false → bits.getLsbD j = false) {j : Nat} (hj : j < 64) :
    (op.onField field bits w).getLsbD j =
      if field.getLsbD j then op.onBits (w.getLsbD j) (bits.getLsbD j) else w.getLsbD j := by
  cases op with
  | both =>
    rw [onField, BitVec.getLsbD_and, BitVec.getLsbD_or, BitVec.getLsbD_not, decide_eq_true hj]
    cases field.getLsbD j <;> simp [onBits]
  | either =>
    rw [onField, BitVec.getLsbD_or]
    cases hfield : field.getLsbD j
    · simp [hbits j hfield]
    · simp [onBits]
  | differ =>
    rw [onField, BitVec.getLsbD_xor]
    cases hfield : field.getLsbD j
    · simp [hbits j hfield]
    · simp [onBits]

end Connective

/-! ## Pictures -/

/-- The bit at position `i` of words, zero past the last of them. -/
def bitAt (words : List Word) (i : Nat) : Bool :=
  (words[wordOf i]?.getD 0#64).getLsbD (bitOf i)

theorem bitAt_add {words : List Word} {k : Nat} {w : Word} (hw : words[k]? = some w) {j : Nat}
    (hj : j < 64) : bitAt words (64 * k + j) = w.getLsbD j := by
  have hword : wordOf (64 * k + j) = k := by
    unfold wordOf
    omega
  have hbit : bitOf (64 * k + j) = j := by
    unfold bitOf
    omega
  rw [bitAt, hword, hbit, hw, Option.getD_some]

/-- Words have no one from a position on when none of them has one there. -/
theorem bitAt_clean_iff {words : List Word} {n : Nat} :
    (∀ i, n ≤ i → bitAt words i = false) ↔ ∀ k w, words[k]? = some w →
      ∀ place, n ≤ 64 * k + place → w.getLsbD place = false := by
  constructor
  · intro h k w hw place hpast
    rcases Nat.lt_or_ge place 64 with hlt | hge
    · rw [← bitAt_add hw hlt]
      exact h _ hpast
    · exact BitVec.getLsbD_of_ge w place hge
  · intro h i hi
    have hplace := wordOf_bitOf i
    rcases hword : words[wordOf i]? with _ | w
    · rw [bitAt, hword, Option.getD_none, BitVec.getLsbD_zero]
    · rw [bitAt, hword, Option.getD_some]
      exact h _ w hword _ (by omega)

/-- The bits from `lo` up to `hi` are changed by `g`, which is told how far into
the range a bit stands. -/
def retouched (lo hi : Nat) (g : Nat → Bool → Bool) (f : Nat → Bool) (i : Nat) : Bool :=
  if lo ≤ i ∧ i < hi then g (i - lo) (f i) else f i

theorem retouched_of_le {lo hi : Nat} (h : hi ≤ lo) (g : Nat → Bool → Bool) (f : Nat → Bool) :
    retouched lo hi g f = f := by
  funext i
  exact if_neg (by omega)

theorem retouched_congr {lo hi lo' hi' : Nat} {g : Nat → Bool → Bool} (g' : Nat → Bool → Bool)
    (f : Nat → Bool) (hlo : lo = lo') (hhi : hi = hi')
    (hg : ∀ j, lo + j < hi → ∀ b, g j b = g' j b) :
    retouched lo hi g f = retouched lo' hi' g' f := by
  subst hlo
  subst hhi
  funext i
  unfold retouched
  split
  · exact hg _ (by omega) _
  · rfl

/-- Two ranges that follow one another are changed as one. -/
theorem retouched_retouched {lo m hi : Nat} (hlo : lo ≤ m) (hhi : m ≤ hi) (g : Nat → Bool → Bool)
    (f : Nat → Bool) :
    retouched m hi (fun k => g (k + (m - lo))) (retouched lo m g f) = retouched lo hi g f := by
  funext i
  unfold retouched
  rcases Nat.lt_or_ge i m with hm | hm
  · have hin : lo ≤ i ∧ i < m ↔ lo ≤ i ∧ i < hi := by omega
    rw [if_neg (by omega)]
    simp only [hin]
  · have hin : m ≤ i ∧ i < hi ↔ lo ≤ i ∧ i < hi := by omega
    rw [if_neg (show ¬(lo ≤ i ∧ i < m) by omega)]
    simp only [hin]
    split
    · rw [show i - m + (m - lo) = i - lo by omega]
    · rfl

/-- A range of a list is changed as the function of its bits is. -/
theorem getD_rewritten {lo hi : Nat} {bits : List Bool} (hhi : hi ≤ bits.length)
    (g : Nat → Bool → Bool) (i : Nat) :
    (rewritten lo hi g bits)[i]?.getD false =
      retouched lo hi g (fun i => bits[i]?.getD false) i := by
  rw [getElem?_rewritten, retouched]
  rcases Nat.lt_or_ge i bits.length with hi | hi
  · rw [List.getElem?_eq_getElem hi, Option.map_some, Option.getD_some, Option.getD_some]
  · rw [List.getElem?_eq_none hi, if_neg (by omega), Option.map_none]

namespace WordVec

theorem editsPiece_onStore {S α : Type} (edit : Edit S α) (v : WordVec S) :
    (onStore edit).EditsPiece v edit v.store fun store => ⟨store, v.length⟩ where
  ok hrun := by simp only [onStore, hrun]
  error hrun := by simp only [onStore, hrun]

variable {S : Type} [WordStore S] [LawfulStore S]

/-- A vector of length `n` in `count` words that hold the bits `f`. -/
structure Image (v : WordVec S) (n count : Nat) (f : Nat → Bool) : Prop where
  length_eq : v.length = n
  exists_words : ∃ words, LawfulStore.Holds v.store words ∧ words.length = count ∧
    ∀ i, bitAt words i = f i

variable {v : WordVec S} {n count : Nat} {f : Nat → Bool}

theorem Image.congr {f' : Nat → Bool} (h : v.Image n count f) (hf : ∀ i, f i = f' i) :
    v.Image n count f' where
  length_eq := h.length_eq
  exists_words := by
    obtain ⟨words, hwords, hcount, hbits⟩ := h.exists_words
    exact ⟨words, hwords, hcount, fun i => (hbits i).trans (hf i)⟩

/-- Two ranges that follow one another are one range of the picture. -/
theorem Image.join {lo m hi : Nat} (g : Nat → Bool → Bool) (hlo : lo ≤ m) (hhi : m ≤ hi)
    (h : v.Image n count (retouched m hi (fun k => g (k + (m - lo))) (retouched lo m g f))) :
    v.Image n count (retouched lo hi g f) := by
  rwa [retouched_retouched hlo hhi] at h

theorem Image.word_eq (h : v.Image n count f) {k : Nat} (hk : k < count) :
    ∃ w, WordStore.word v.store k = .ok w ∧ ∀ j, j < 64 → w.getLsbD j = f (64 * k + j) := by
  obtain ⟨words, hwords, hcount, hbits⟩ := h.exists_words
  have hw := List.getElem?_eq_getElem (hcount ▸ hk)
  refine ⟨_, LawfulStore.word_eq hwords hw, ?_⟩
  intro j hj
  rw [← hbits, bitAt_add hw hj]

/-- A word is changed: the new bits of that word follow from the old ones, and
the other bits are the same. -/
theorem Image.modifyWord (h : v.Image n count f) {k : Nat} (hk : k < count) (f' : Nat → Bool)
    {g : Word → Word} (hsame : ∀ i, wordOf i ≠ k → f' i = f i)
    (hword : ∀ w : Word, (∀ j, j < 64 → w.getLsbD j = f (64 * k + j)) →
      ∀ j, j < 64 → (g w).getLsbD j = f' (64 * k + j))
    {failed : Failure → WordVec S → Prop} :
    (modifyWord k g).Yields v (fun _ v' => v'.Image n count f') failed := by
  obtain ⟨words, hwords, hcount, hbits⟩ := h.exists_words
  have hlt : k < words.length := hcount ▸ hk
  obtain ⟨store', hrun, hstore'⟩ := LawfulStore.modifyWord_eq g hwords hlt
  refine Edit.yields_of_ok ((editsPiece_onStore _ v).ok hrun) ⟨h.length_eq, _, hstore', ?_, ?_⟩
  · rw [List.length_modify, hcount]
  · intro i
    by_cases hi : wordOf i = k
    · have hold := List.getElem?_eq_getElem hlt
      have hnew : (words.modify k g)[k]? = some (g words[k]) := by
        rw [getElem?_modify_ite, if_pos rfl, hold]
        rfl
      have hpos : 64 * k + bitOf i = i := hi ▸ wordOf_bitOf i
      have hbit := hword words[k] (fun j hj => by rw [← hbits, bitAt_add hold hj]) (bitOf i)
        (bitOf_lt i)
      rw [← hpos, bitAt_add hnew (bitOf_lt i), hbit]
    · rw [hsame i hi, ← hbits i, bitAt, bitAt, getElem?_modify_ite, if_neg (Ne.symm hi)]

/-- The bits of a word are changed from `lo` up to `hi`. -/
theorem Image.retouch (h : v.Image n count f) {k : Nat} (lo hi : Nat) (g : Nat → Bool → Bool)
    (hk : k < count) (hlo : 64 * k ≤ lo)
    (hhi : hi ≤ 64 * k + 64) {change : Word → Word}
    (hchange : ∀ w : Word, ∀ j, j < 64 → (change w).getLsbD j =
      if lo ≤ 64 * k + j ∧ 64 * k + j < hi then g (64 * k + j - lo) (w.getLsbD j)
      else w.getLsbD j)
    {failed : Failure → WordVec S → Prop} :
    (WordVec.modifyWord k change).Yields v (fun _ v' => v'.Image n count (retouched lo hi g f))
      failed := by
  refine h.modifyWord hk _ ?_ ?_
  · intro i hi
    unfold wordOf at hi
    exact if_neg (by omega)
  · intro w hw j hj
    rw [hchange w j hj, hw j hj, retouched]

/-- Whole words are filled. -/
theorem Image.fill [LawfulFill S] (h : v.Image n count f) {k l : Nat} (hle : k ≤ l)
    (hl : l ≤ count) (b : Bool) {failed : Failure → WordVec S → Prop} :
    (onStore (WordStore.fill k l (if b then BitVec.allOnes 64 else 0#64))).Yields v
      (fun _ v' => v'.Image n count (retouched (64 * k) (64 * l) (fun _ _ => b) f)) failed := by
  obtain ⟨words, hwords, hcount, hbits⟩ := h.exists_words
  obtain ⟨store', hrun, hstore'⟩ := LawfulFill.fill_eq (if b then BitVec.allOnes 64 else 0#64)
    hwords hle (hcount ▸ hl)
  refine Edit.yields_of_ok ((editsPiece_onStore _ v).ok hrun) ⟨h.length_eq, _, hstore', ?_, ?_⟩
  · rw [length_rewritten, hcount]
  · intro i
    rw [bitAt, getElem?_rewritten]
    by_cases hi : k ≤ wordOf i ∧ wordOf i < l
    · have hlt : wordOf i < words.length := by omega
      have hin : 64 * k ≤ i ∧ i < 64 * l := by
        unfold wordOf at hi
        omega
      rw [List.getElem?_eq_getElem hlt, Option.map_some, Option.getD_some, if_pos hi, retouched,
        if_pos hin]
      cases b
      · exact BitVec.getLsbD_zero
      · rw [if_pos rfl, BitVec.getLsbD_allOnes, decide_eq_true (bitOf_lt i)]
    · have hout : ¬(64 * k ≤ i ∧ i < 64 * l) := by
        unfold wordOf at hi
        omega
      simp only [if_neg hi, Option.map_id', retouched, if_neg hout]
      exact hbits i

/-- Words are kept or added; those added are zeros. -/
theorem Image.resize {store : S} {length : Nat} (h : Image ⟨store, length⟩ n count f)
    (m count' : Nat) :
    Image ⟨WordStore.resize count' store, m⟩ m count'
      fun i => decide (wordOf i < count') && f i := by
  obtain ⟨words, hwords, hcount, hbits⟩ := h.exists_words
  refine ⟨rfl, _, LawfulStore.resize count' hwords, length_resized .., ?_⟩
  intro i
  rw [← hbits, bitAt, bitAt, getElem?_resized]
  by_cases hi : wordOf i < count'
  · rw [if_pos hi, Option.getD_some, decide_eq_true hi, Bool.true_and]
  · rw [if_neg hi, Option.getD_none, decide_eq_false hi, Bool.false_and, BitVec.getLsbD_zero]

theorem Image.cutTo (h : v.Image n count f) (m : Nat) {failed : Failure → WordVec S → Prop} :
    (WordVec.cutTo m).Yields v
      (fun _ v' => v'.Image m (wordsFor m) fun i => decide (wordOf i < wordsFor m) && f i)
      failed :=
  Edit.yields_of_ok (rfl : WordVec.cutTo m v = _) (h.resize m (wordsFor m))

/-- There are no bits past the last word. -/
theorem Image.eq_false_of_le (h : v.Image n count f) {i : Nat} (hi : 64 * count ≤ i) :
    f i = false := by
  obtain ⟨words, _, hcount, hbits⟩ := h.exists_words
  have hpast : words.length ≤ wordOf i := by
    unfold wordOf
    omega
  rw [← hbits, bitAt, List.getElem?_eq_none hpast, Option.getD_none, BitVec.getLsbD_zero]

theorem Image.clearTail (h : v.Image n (wordsFor n) f) {failed : Failure → WordVec S → Prop} :
    WordVec.clearTail.Yields v
      (fun _ v' => v'.Image n (wordsFor n) fun i => decide (i < n) && f i) failed := by
  have hplace := wordOf_bitOf n
  have hlow := le_wordsFor n
  have hhigh := wordsFor_le n
  have hin : ∀ i, i / 64 ≠ wordOf n ∨ bitOf n = 0 → f i = (decide (i < n) && f i) := by
    intro i hi
    rcases Nat.lt_or_ge i n with hlt | hlt
    · rw [decide_eq_true hlt, Bool.true_and]
    · rw [decide_eq_false (Nat.not_lt.mpr hlt), Bool.false_and]
      refine h.eq_false_of_le ?_
      unfold wordOf bitOf at *
      omega
  refine Edit.yields_bind_ok rfl ?_
  by_cases hfull : bitOf (WordVec.length v) = 0
  · rw [if_neg (fun hne => hne hfull)]
    rw [h.length_eq] at hfull
    exact Edit.yields_pure (h.congr fun i => hin i (.inr hfull))
  · rw [if_pos hfull]
    rw [h.length_eq] at hfull ⊢
    have hbit := bitOf_lt n
    refine h.modifyWord (by omega) _ (fun i hi => (hin i (.inl hi)).symm) ?_
    intro x hx j hj
    have hiff : j < bitOf n ↔ 64 * wordOf n + j < n := by omega
    rw [BitVec.getLsbD_and, hx j hj, Word.getLsbD_mask, decide_eq_true hj, Bool.true_and,
      Bool.and_comm]
    simp only [hiff]

/-- The bits past a length are cut off. -/
theorem Image.shorten (h : v.Image n count f) (m : Nat) {failed : Failure → WordVec S → Prop} :
    (WordVec.shorten m).Yields v
      (fun _ v' => v'.Image m (wordsFor m) fun i => decide (i < m) && f i) failed := by
  have hlow := le_wordsFor m
  refine (h.cutTo m).bind fun _ w hw => hw.clearTail.imp fun _ x hx => hx.congr fun i => ?_
  rcases Nat.lt_or_ge i m with hi | hi
  · have hword : wordOf i < wordsFor m := by
      unfold wordOf
      omega
    rw [decide_eq_true hword, Bool.true_and]
  · rw [decide_eq_false (Nat.not_lt.mpr hi), Bool.false_and, Bool.false_and]

/-- The picture of a vector is the same in more memory, granted or not. -/
theorem Image.reserve (h : v.Image n count f) (memory : Allocator) (m : Nat) :
    (WordVec.reserve memory m).Yields v (fun _ v' => v'.Image n count f)
      fun failure v' => failure = .allocation ∧ v'.Image n count f := by
  obtain ⟨words, hwords, hcount, hbits⟩ := h.exists_words
  have hreserve := LawfulStore.reserve memory (wordsFor m) hwords
  refine (editsPiece_onStore _ v).yields (hreserve.mono ?_ ?_)
  · intro _ store hstore
    exact ⟨h.length_eq, words, hstore, hcount, hbits⟩
  · rintro _ store ⟨hfailure, hstore⟩
    exact ⟨hfailure, h.length_eq, words, hstore, hcount, hbits⟩

theorem Image.ensureCapacity (h : v.Image n count f) (memory : Allocator) (m : Nat) :
    (ensureCapacity memory m).Yields v (fun _ v' => v'.Image n count f)
      fun failure v' => failure = .cannotGrow m ∧ v'.Image n count f := by
  refine Edit.Yields.reword ((h.reserve memory m).mono (fun _ _ hw => hw) ?_)
  rintro _ w ⟨rfl, hw⟩
  exact ⟨rfl, hw⟩

end WordVec

end PackedBits
