import PackedBits.Proofs.WordRead

/-!
# Changes in place follow their plans

A field and a range fall into the parts that lie in one word each. What is done
to each part is a change of a range of the picture, and ranges that follow one
another are put together again.
-/

namespace PackedBits

namespace WordVec

variable {S : Type} [WordStore S] [LawfulStore S] {v : WordVec S} {n count : Nat}
  {f : Nat → Bool} {bits : List Bool} {failed : Failure → WordVec S → Prop}

/-- The places of a field of `width` bits from `place` on. -/
theorem getLsbD_field (width place : Nat) {j : Nat} (hj : j < 64) :
    (Word.mask width <<< place).getLsbD j = decide (place ≤ j ∧ j < place + width) := by
  rw [BitVec.getLsbD_shiftLeft, Word.getLsbD_mask]
  by_cases hplace : j < place
  · simp [hplace, Nat.not_le.mpr hplace]
  · have hiff : place ≤ j ∧ j < place + width ↔ j - place < width := by omega
    simp [hplace, hiff, hj, show j - place < 64 by omega]

/-! ## One bit -/

theorem follows_set (i : Nat) (b : Bool) :
    Follows (Holds (S := S)) (fun _ => False) (set i b) (Plan.set i b) := by
  intro v bits h
  rcases Nat.lt_or_ge i bits.length with hi | hpast
  · have hold := List.getElem?_eq_getElem hi
    refine followsAt_of_yields (Plan.set_of_some hold b) ?_
    refine Edit.yields_inspect_bind (h.bit_eq hold) ?_
    have hplace := wordOf_bitOf i
    have hchange : ∀ w : Word, ∀ j, j < 64 → (Word.paint (1#64 <<< bitOf i) b w).getLsbD j =
        if i ≤ 64 * wordOf i + j ∧ 64 * wordOf i + j < i + 1 then b else w.getLsbD j := by
      intro w j hj
      have hiff : i ≤ 64 * wordOf i + j ∧ 64 * wordOf i + j < i + 1 ↔ j = bitOf i := by omega
      rw [Word.getLsbD_paint _ w b hj, BitVec.getLsbD_shiftLeft, BitVec.getLsbD_one]
      simp only [hiff, hj, decide_true, Bool.true_and]
      by_cases hj' : j = bitOf i
      · simp [hj']
      · rcases Nat.lt_or_ge j (bitOf i) with hlt | hlt
        · simp [hlt, hj']
        · simp [hj', show ¬(j - bitOf i = 0) by omega]
    have hbit := bitOf_lt i
    refine (Image.retouch h i (i + 1) (fun _ _ => b) (wordOf_lt_wordsFor hi) (by omega) (by omega)
      hchange).bind fun _ w hw => Edit.yields_pure ⟨rfl, ?_⟩
    have hset : bits.set i b = rewritten i (i + 1) (fun _ _ => b) bits := by
      rw [rewritten_succ (Nat.le_refl i), rewritten_of_le (Nat.le_refl i), set_eq_modify]
    rw [hset, Holds, length_rewritten]
    exact hw.congr fun k => (getD_rewritten hi _ k).symm
  · exact followsAt_error (Edit.inspect_bind_error (h.bit_past hpast)) (Plan.set_past hpast b)

/-- What changes a range of a picture as it should is what a plan says. -/
theorem holds_of_retouched {lo hi : Nat} {g : Nat → Bool → Bool} (hhi : hi ≤ bits.length)
    (h : v.Image bits.length (wordsFor bits.length)
      (retouched lo hi g fun i => bits[i]?.getD false)) : v.Holds (rewritten lo hi g bits) := by
  rw [Holds, length_rewritten]
  exact h.congr fun i => (getD_rewritten hhi g i).symm

/-! ## Fields -/

/-- The part of a field in its first word. -/
theorem Image.overwriteLow (h : v.Image n count f) (lo width : Nat) (hk : wordOf lo < count)
    {value : Word} (hvalue : Word.Narrow width value) :
    (WordVec.modifyWord (wordOf lo)
      (Word.overwrite (Word.mask width <<< bitOf lo) (value <<< bitOf lo))).Yields v
      (fun _ v' => v'.Image n count (retouched lo (min (lo + width) (64 * (wordOf lo + 1)))
        (fun j _ => value.getLsbD j) f)) failed := by
  have hlo := wordOf_bitOf lo
  refine h.retouch _ _ _ hk (by omega) (by omega) fun w j hj => ?_
  have hiff : lo ≤ 64 * wordOf lo + j ∧
      64 * wordOf lo + j < min (lo + width) (64 * (wordOf lo + 1)) ↔
      bitOf lo ≤ j ∧ j < bitOf lo + width := by omega
  have hbits : ∀ j, (Word.mask width <<< bitOf lo).getLsbD j = false →
      (value <<< bitOf lo).getLsbD j = false := by
    intro j hj
    rcases Nat.lt_or_ge j 64 with hword | hword
    · rw [getLsbD_field width (bitOf lo) hword, decide_eq_false_iff_not] at hj
      rw [BitVec.getLsbD_shiftLeft]
      rcases Nat.lt_or_ge j (bitOf lo) with hplace | hplace
      · simp [hplace]
      · rw [hvalue (j - bitOf lo) (by omega), Bool.and_false]
    · exact BitVec.getLsbD_of_ge _ j hword
  rw [Word.getLsbD_overwrite w hbits hj, getLsbD_field width (bitOf lo) hj,
    BitVec.getLsbD_shiftLeft]
  simp only [hiff, decide_eq_true_eq]
  split
  · rw [show 64 * wordOf lo + j - lo = j - bitOf lo by omega]
    simp [hj, show ¬j < bitOf lo by omega]
  · rfl

/-- The part of a field in the word after its first one. -/
theorem Image.overwriteHigh (h : v.Image n count f) (lo width : Nat)
    (hk : wordOf lo + 1 < count) (hwidth : width ≤ 64) {value : Word}
    (hvalue : Word.Narrow width value) :
    (WordVec.modifyWord (wordOf lo + 1) (Word.overwrite (Word.mask width >>> (64 - bitOf lo))
      (value >>> (64 - bitOf lo)))).Yields v
      (fun _ v' => v'.Image n count (retouched (64 * (wordOf lo + 1)) (lo + width)
        (fun j _ => value.getLsbD (j + (64 * (wordOf lo + 1) - lo))) f)) failed := by
  have hlo := wordOf_bitOf lo
  have hplace := bitOf_lt lo
  have hfield : ∀ j, (Word.mask width >>> (64 - bitOf lo)).getLsbD j =
      decide (64 - bitOf lo + j < width) := by
    intro j
    rw [BitVec.getLsbD_ushiftRight, Word.getLsbD_mask]
    by_cases hj : 64 - bitOf lo + j < width
    · simp [hj, show 64 - bitOf lo + j < 64 by omega]
    · simp [hj]
  refine h.retouch _ _ _ hk (by omega) (by omega) fun w j hj => ?_
  have hiff : 64 * (wordOf lo + 1) ≤ 64 * (wordOf lo + 1) + j ∧
      64 * (wordOf lo + 1) + j < lo + width ↔ 64 - bitOf lo + j < width := by omega
  have hbits : ∀ j, (Word.mask width >>> (64 - bitOf lo)).getLsbD j = false →
      (value >>> (64 - bitOf lo)).getLsbD j = false := by
    intro j hj
    rw [hfield, decide_eq_false_iff_not] at hj
    rw [BitVec.getLsbD_ushiftRight]
    exact hvalue _ (by omega)
  rw [Word.getLsbD_overwrite w hbits hj, hfield, BitVec.getLsbD_ushiftRight]
  simp only [hiff, decide_eq_true_eq]
  rw [show 64 * (wordOf lo + 1) + j - 64 * (wordOf lo + 1) + (64 * (wordOf lo + 1) - lo) =
    64 - bitOf lo + j by omega]

theorem follows_setBits (lo width : Nat) (value : Word) :
    Follows (Holds (S := S)) (fun _ => False) (setBits lo width value)
      (Plan.setBits lo width value) := by
  intro v bits h
  refine followsAt_inspect (checkWindow lo (lo + width)) h.length_eq fun hwindow => ?_
  refine followsAt_liftM rfl fun hvalue => followsAt_of_yields rfl ?_
  obtain ⟨_, hhi, hwidth⟩ := checkWindow_eq_ok_iff.mp hwindow
  rw [Nat.add_sub_cancel_left] at hwidth
  have hnarrow := checkValue_eq_ok_iff.mp hvalue
  have hlo := wordOf_bitOf lo
  have hplace := bitOf_lt lo
  have hcount := le_wordsFor bits.length
  by_cases hzero : width = 0
  · rw [if_pos hzero, rewritten_of_le (by omega)]
    exact Edit.yields_pure ⟨rfl, h⟩
  · rw [if_neg hzero]
    apply Edit.yields_liftM_bind_ok (shiftUp_of_lt _ hplace)
    apply Edit.yields_liftM_bind_ok (shiftUp_of_lt _ hplace)
    refine (Image.overwriteLow h lo width (by omega) hnarrow).bind fun _ w hw => ?_
    apply Edit.yields_liftM_bind_ok (minus_of_le (Nat.le_of_lt hplace))
    rcases Nat.lt_or_ge (64 - bitOf lo) width with hmore | hmore
    · rw [if_pos hmore]
      have hstored : 64 - bitOf lo < 64 := by omega
      apply Edit.yields_liftM_bind_ok (shiftDown_of_lt _ hstored)
      apply Edit.yields_liftM_bind_ok (shiftDown_of_lt _ hstored)
      rw [Nat.min_eq_right (by omega)] at hw
      refine (Image.overwriteHigh hw lo width (by omega) hwidth hnarrow).imp
        fun _ x hx => ⟨rfl, holds_of_retouched hhi ?_⟩
      exact hx.join (fun j _ => value.getLsbD j) (by omega) (by omega)
    · rw [if_neg (Nat.not_lt.mpr hmore)]
      rw [Nat.min_eq_left (by omega)] at hw
      exact Edit.yields_pure ⟨rfl, holds_of_retouched hhi hw⟩

/-! ## Ranges -/

/-- The parts of a range are changed bit by bit by `act`: a field of one word, and
words as a whole. -/
structure RangeParts (act : Bool → Bool) (part : Nat → Word → Edit (WordVec S) Unit)
    (between : Nat → Nat → Edit (WordVec S) Unit) : Prop where
  field {v : WordVec S} {n count : Nat} {f : Nat → Bool} (k lo hi : Nat) (field : Word) :
    v.Image n count f → k < count → 64 * k ≤ lo → hi ≤ 64 * k + 64 →
      (∀ j, j < 64 → field.getLsbD j = decide (lo ≤ 64 * k + j ∧ 64 * k + j < hi)) →
      (part k field).Yields v (fun _ w => w.Image n count (retouched lo hi (fun _ => act) f))
        fun _ _ => False
  words {v : WordVec S} {n count : Nat} {f : Nat → Bool} (k l : Nat) :
    v.Image n count f → k ≤ l → l ≤ count →
      (between k l).Yields v
        (fun _ w => w.Image n count (retouched (64 * k) (64 * l) (fun _ => act) f))
        fun _ _ => False

section RangeParts

variable {act : Bool → Bool} {part : Nat → Word → Edit (WordVec S) Unit}
  {between : Nat → Nat → Edit (WordVec S) Unit} {lo hi : Nat}

/-- A range in one word. -/
theorem RangeParts.yields_in_word (hparts : RangeParts act part between) (h : v.Image n count f)
    (hlt : lo < hi) (hhi : hi ≤ 64 * count) (hsame : wordOf lo = wordOf hi) :
    (do part (wordOf lo) (← shiftUp (Word.mask (hi - lo)) (bitOf lo)) :
      Edit (WordVec S) Unit).Yields v
      (fun _ w => w.Image n count (retouched lo hi (fun _ => act) f)) fun _ _ => False := by
  have hlo := wordOf_bitOf lo
  have hlast := wordOf_bitOf hi
  have hplace := bitOf_lt hi
  apply Edit.yields_liftM_bind_ok (shiftUp_of_lt _ (bitOf_lt lo))
  refine hparts.field _ lo hi _ h (by omega) (by omega) (by omega) fun j hj => ?_
  rw [getLsbD_field _ _ hj]
  exact decide_eq_decide.mpr (by omega)

/-- A range that begins in one word and ends in another. -/
theorem RangeParts.yields_across_words (hparts : RangeParts act part between)
    (h : v.Image n count f) (hhi : hi ≤ 64 * count) (hacross : wordOf lo < wordOf hi) :
    (do
      part (wordOf lo) (← shiftUp (BitVec.allOnes 64) (bitOf lo))
      between (wordOf lo + 1) (wordOf hi)
      if bitOf hi ≠ 0 then part (wordOf hi) (Word.mask (bitOf hi)) : Edit (WordVec S) Unit).Yields v
      (fun _ w => w.Image n count (retouched lo hi (fun _ => act) f)) fun _ _ => False := by
  have hlo := wordOf_bitOf lo
  have hlast := wordOf_bitOf hi
  have hplace := bitOf_lt lo
  have hplace' := bitOf_lt hi
  apply Edit.yields_liftM_bind_ok (shiftUp_of_lt _ hplace)
  have hfirst := hparts.field (wordOf lo) lo (64 * (wordOf lo + 1)) (BitVec.allOnes 64 <<< bitOf lo)
    h (by omega) (by omega) (by omega) fun j hj => by
      rw [show BitVec.allOnes 64 = Word.mask 64 from rfl, getLsbD_field _ _ hj]
      exact decide_eq_decide.mpr (by omega)
  refine hfirst.bind fun _ w hw => ?_
  refine (hparts.words (wordOf lo + 1) (wordOf hi) hw (by omega) (by omega)).bind fun _ x hx => ?_
  have hx := hx.join (fun _ => act) (by omega) (by omega)
  split
  · refine (hparts.field (wordOf hi) (64 * wordOf hi) hi _ hx (by omega) (by omega) (by omega)
      fun j hj => ?_).imp fun _ y hy => hy.join (fun _ => act) (by omega) (by omega)
    rw [Word.getLsbD_mask, decide_eq_true hj, Bool.true_and]
    exact decide_eq_decide.mpr (by omega)
  · rename_i hwhole
    rw [show 64 * wordOf hi = hi by omega] at hx
    exact Edit.yields_pure hx

/-- A range is changed bit by bit when its parts are. -/
theorem RangeParts.follows_onRange (hparts : RangeParts act part between) (lo hi : Nat) :
    Follows (Holds (S := S)) (fun _ => False) (onRange lo hi part between) fun bits => do
      checkRange lo hi bits.length
      return ((), rewritten lo hi (fun _ => act) bits) := by
  intro v bits h
  refine followsAt_inspect (checkRange lo hi) h.length_eq fun hrange => ?_
  obtain ⟨hle, hhi⟩ := require_eq_ok_iff.mp hrange
  have hcount := le_wordsFor bits.length
  have hmono : wordOf lo ≤ wordOf hi := by
    unfold wordOf
    omega
  apply followsAt_of_yields rfl
  rcases Nat.eq_or_lt_of_le hle with hempty | hlt
  · rw [if_pos hempty, rewritten_of_le (Nat.le_of_eq hempty.symm)]
    exact Edit.yields_pure ⟨rfl, h⟩
  · rw [if_neg (Nat.ne_of_lt hlt)]
    rcases Nat.eq_or_lt_of_le hmono with hsame | hacross
    · simp only [if_pos hsame]
      exact (hparts.yields_in_word h hlt (by omega) hsame).mono
        (fun _ _ hw => ⟨trivial, holds_of_retouched hhi hw⟩) fun _ _ hfalse => hfalse.elim
    · simp only [if_neg (Nat.ne_of_lt hacross)]
      exact (hparts.yields_across_words h (by omega) hacross).mono
        (fun _ _ hw => ⟨trivial, holds_of_retouched hhi hw⟩) fun _ _ hfalse => hfalse.elim

end RangeParts

theorem rangeParts_fillRange [LawfulFill S] (b : Bool) :
    RangeParts (S := S) (fun _ => b) (fun k field => modifyWord k (Word.paint field b))
      fun k l => onStore (WordStore.fill k l (if b then BitVec.allOnes 64 else 0#64)) where
  field k lo hi field h hk hlo hhi hfield := by
    refine h.retouch _ _ _ hk hlo hhi fun w j hj => ?_
    rw [Word.getLsbD_paint field w b hj, hfield j hj]
    simp only [decide_eq_true_eq]
  words k l h hle hl := h.fill hle hl b

theorem follows_fillRange [LawfulFill S] (lo hi : Nat) (b : Bool) :
    Follows (Holds (S := S)) (fun _ => False) (fillRange lo hi b) (Plan.fillRange lo hi b) :=
  (rangeParts_fillRange b).follows_onRange lo hi

theorem rangeParts_flipRange :
    RangeParts (S := S) (fun b => !b) (fun k field => modifyWord k (· ^^^ field))
      fun k l => visitUp k (l - k) fun k => modifyWord k (· ^^^ BitVec.allOnes 64) where
  field k lo hi field h hk hlo hhi hfield := by
    refine h.retouch _ _ _ hk hlo hhi fun w j hj => ?_
    rw [BitVec.getLsbD_xor, hfield j hj]
    split
    · rename_i hin
      rw [decide_eq_true hin, Bool.xor_true]
    · rename_i hout
      rw [decide_eq_false hout, Bool.xor_false]
  words {v n count f} k l h hle hl := by
    refine (Edit.yields_visitUp (fun i (w : WordVec S) =>
      w.Image n count (retouched (64 * k) (64 * i) (fun _ b => !b) f)) ?_ ?_).imp
      fun _ w hw => by rwa [Nat.add_sub_cancel' hle] at hw
    · rwa [retouched_of_le (Nat.le_refl _)]
    · intro i hi hlt w hw
      refine (hw.retouch (64 * i) (64 * i + 64) (fun _ b => !b) (by omega) (by omega) (by omega)
        fun x j hj => ?_).imp fun _ y hy => hy.join (fun _ b => !b) (by omega) (by omega)
      rw [BitVec.getLsbD_xor, BitVec.getLsbD_allOnes, decide_eq_true hj, if_pos (by omega),
        Bool.xor_true]

theorem follows_flipRange (lo hi : Nat) :
    Follows (Holds (S := S)) (fun _ => False) (flipRange lo hi) (Plan.flipRange lo hi) :=
  rangeParts_flipRange.follows_onRange lo hi

/-! ## Whole vectors -/

/-- A window of another vector is combined with the word at the same place. -/
theorem Image.combineWindow (h : v.Image n count f) (op : Connective) {k width : Nat}
    (hk : k < count) (hwidth : width ≤ 64) {other : Word} (hother : Word.Narrow width other) :
    (WordVec.modifyWord k (op.onField (Word.mask width) other)).Yields v
      (fun _ w => w.Image n count (retouched (64 * k) (64 * k + width)
        (fun j b => op.onBits b (other.getLsbD j)) f)) failed := by
  refine h.retouch _ _ _ hk (Nat.le_refl _) (by omega) fun w j hj => ?_
  have hbits : ∀ j, (Word.mask width).getLsbD j = false → other.getLsbD j = false := by
    intro j hj
    rcases Nat.lt_or_ge j 64 with hword | hword
    · rw [Word.getLsbD_mask, decide_eq_true hword, Bool.true_and, decide_eq_false_iff_not] at hj
      exact hother j (Nat.le_of_not_lt hj)
    · exact BitVec.getLsbD_of_ge _ j hword
  have hiff : 64 * k ≤ 64 * k + j ∧ 64 * k + j < 64 * k + width ↔ j < width := by omega
  rw [Connective.getLsbD_onField op w hbits hj, Word.getLsbD_mask, decide_eq_true hj,
    Bool.true_and, Nat.add_sub_cancel_left]
  simp only [hiff, decide_eq_true_eq]

theorem follows_combine (op : Connective) {source : Source} {other : List Bool}
    (hsource : source.Reads other) :
    Follows (Holds (S := S)) (fun _ => False) (combine op source) (Plan.combine op other) := by
  intro v bits h
  refine followsAt_view rfl (followsAt_of_yields rfl ?_)
  rw [hsource.length_eq, h.length_eq]
  have hcount := le_wordsFor bits.length
  refine (Edit.yields_visitWindows (fun m (w : WordVec S) =>
    w.Image bits.length (wordsFor bits.length) (retouched 0 m
      (fun k b => op.onBits b (other[k]?.getD false)) fun i => bits[i]?.getD false))
    (Nat.zero_le _) ?_ ?_).imp fun _ w hw => ⟨rfl, holds_of_retouched (Nat.min_le_left ..) hw⟩
  · rwa [retouched_of_le (Nat.le_refl 0)]
  · intro k hk w hw
    obtain ⟨x, hread, hx⟩ := hsource.window_eq (0 + 64 * k)
      (min (0 + 64 * (k + 1)) (min bits.length other.length)) (by omega) (by omega) (by omega)
    apply Edit.yields_liftM_bind_ok hread
    have hword : wordOf (0 + 64 * k) = k := by
      unfold wordOf
      omega
    rw [hword]
    refine (Image.combineWindow hw op (by omega) (by omega) (Word.narrow_of_window hx)).imp
      fun _ y hy => ?_
    · rw [retouched_congr (fun j b => op.onBits b (other[j + (0 + 64 * k - 0)]?.getD false)) _
        (show 64 * k = 0 + 64 * k by omega)
        (show _ = min (0 + 64 * (k + 1)) (min bits.length other.length) by omega)] at hy
      · exact hy.join (fun k b => op.onBits b (other[k]?.getD false)) (by omega) (by omega)
      · intro j hj b
        rw [hx, decide_eq_true (by omega), Bool.true_and,
          show 0 + 64 * k + j = j + (0 + 64 * k - 0) by omega]

end WordVec

end PackedBits
