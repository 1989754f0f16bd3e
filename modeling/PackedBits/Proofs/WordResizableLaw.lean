import PackedBits.Proofs.Lawful
import PackedBits.Proofs.WordMutableLaw

/-!
# Growing and shrinking follow their plans

A change of length keeps the words and cuts the bits past the new end, or adds
words of zeros. Insertion and removal go from word to word, and the picture in
between has one bit that has left its word and not yet entered the next.
-/

namespace PackedBits

namespace WordVec

variable {S : Type} [WordStore S] [LawfulStore S] {v : WordVec S} {n count : Nat}
  {f : Nat → Bool} {bits : List Bool} {failed : Failure → WordVec S → Prop}

/-! ## Lengths -/

/-- A vector that is refused memory holds what it held. -/
theorem Holds.reserve (h : v.Holds bits) (memory : Allocator) (m : Nat) :
    (WordVec.reserve memory m).Yields v (fun _ w => w.Holds bits)
      fun failure w => failure.isRefusal = true ∧ w.Sound := by
  refine (Image.reserve h memory m).mono (fun _ _ hw => hw) ?_
  rintro failure w ⟨hfailure, hw⟩
  exact ⟨hfailure ▸ rfl, bits, hw⟩

theorem Holds.ensureCapacity (h : v.Holds bits) (memory : Allocator) (m : Nat) :
    (ensureCapacity memory m).Yields v (fun _ w => w.Holds bits)
      fun failure w => failure.isRefusal = true ∧ w.Sound := by
  refine (Image.ensureCapacity h memory m).mono (fun _ _ hw => hw) ?_
  rintro failure w ⟨hfailure, hw⟩
  exact ⟨hfailure ▸ rfl, bits, hw⟩

theorem Holds.shorten (h : v.Holds bits) (m : Nat) :
    (shorten m).Yields v (fun _ w => w.Holds (resized m false bits)) failed := by
  refine (Image.shorten h m).imp fun _ w hw => ?_
  rw [Holds, length_resized]
  exact hw.congr fun i => (getD_resized m bits i).symm

/-- The length is set where room for a longer vector can be made. -/
theorem Holds.setLength (h : v.Holds bits) {memory : Allocator} {m : Nat}
    (hroom : bits.length < m →
      (WordVec.ensureCapacity memory m).Yields v (fun _ w => w.Holds bits) failed) :
    (WordVec.setLength memory m).Yields v (fun _ w => w.Holds (resized m false bits)) failed := by
  refine Edit.yields_congr (Edit.view_bind WordVec.length) ?_
  rw [h.length_eq]
  split
  · rename_i hgrow
    refine (hroom hgrow).bind fun _ w hw => (Image.cutTo hw m).imp fun _ x hx => ?_
    rw [Holds, length_resized]
    refine hx.congr fun i => ?_
    rw [getD_resized]
    rcases Nat.lt_or_ge i bits.length with hi | hi
    · rw [decide_eq_true (wordOf_lt_wordsFor (show i < m by omega)),
        decide_eq_true (show i < m by omega)]
    · rw [List.getElem?_eq_none hi, Option.getD_none, Bool.and_false, Bool.and_false]
  · exact h.shorten m

theorem follows_setLength (memory : Allocator) (n : Nat) :
    Follows (Holds (S := S)) Sound (setLength memory n) (Plan.setLength n) := by
  intro v bits h
  apply followsAt_of_yields rfl
  exact (h.setLength fun _ => h.ensureCapacity memory n).imp fun _ _ hw => ⟨rfl, hw⟩

/-! ## Bits at the end -/

/-- Bits put at the end of a list, as a function of positions. -/
theorem getD_append (bits tail : List Bool) (i : Nat) :
    (bits ++ tail)[i]?.getD false =
      if i < bits.length then bits[i]?.getD false else tail[i - bits.length]?.getD false := by
  rw [List.getElem?_append]
  split <;> rfl

theorem wordsFor_succ (n : Nat) :
    wordsFor (n + 1) = if bitOf n = 0 then wordsFor n + 1 else wordsFor n := by
  have hlow := le_wordsFor n
  have hhigh := wordsFor_le n
  have hlow' := le_wordsFor (n + 1)
  have hhigh' := wordsFor_le (n + 1)
  unfold bitOf
  split <;> omega

/-- A picture with a bit behind the last one is that of a longer vector. -/
theorem Image.holds_concat {b : Bool} (h : v.Image bits.length (wordsFor (bits.length + 1))
    fun i => if i = bits.length then b else bits[i]?.getD false) :
    Holds ⟨v.store, bits.length + 1⟩ (bits ++ [b]) := by
  obtain ⟨words, hwords, hcount, hbits⟩ := h.exists_words
  rw [Holds, List.length_append, List.length_singleton]
  refine ⟨rfl, words, hwords, hcount, fun i => (hbits i).trans ?_⟩
  rw [getD_append]
  rcases Nat.lt_trichotomy i bits.length with hlt | heq | hgt
  · rw [if_pos hlt, if_neg (Nat.ne_of_lt hlt)]
  · simp [heq]
  · rw [if_neg (Nat.ne_of_gt hgt), if_neg (Nat.lt_asymm hgt),
      List.getElem?_eq_none (Nat.le_of_lt hgt),
      List.getElem?_eq_none (by rw [List.length_singleton]; omega)]

/-- A bit is written behind the last one, where there is a word for it. -/
theorem Image.pushBit (h : v.Image bits.length (wordsFor (bits.length + 1))
    fun i => bits[i]?.getD false) (b : Bool) :
    (do
      if b then WordVec.modifyWord (wordOf bits.length) (· ||| 1#64 <<< bitOf bits.length)
      modify fun ⟨store, _⟩ => ⟨store, bits.length + 1⟩ : Edit (WordVec S) Unit).Yields v
      (fun _ w => w.Holds (bits ++ [b])) failed := by
  have hplace := wordOf_bitOf bits.length
  have hbit := bitOf_lt bits.length
  cases b with
  | true =>
    refine Edit.Yields.bind (h.modifyWord (wordOf_lt_wordsFor (Nat.lt_succ_self _)) _ ?_ ?_)
      fun _ _ hw => Edit.yields_modify hw.holds_concat
    · intro i hi
      exact if_neg fun heq => hi (by rw [heq])
    · intro x hx j hj
      rw [BitVec.getLsbD_or, BitVec.getLsbD_shiftLeft, BitVec.getLsbD_one, hx j hj]
      rcases Nat.lt_trichotomy j (bitOf bits.length) with hbefore | hat | hafter
      · rw [if_neg (show ¬64 * wordOf bits.length + j = bits.length by omega)]
        simp [hbefore]
      · simp [hat, hplace, hbit]
      · rw [if_neg (show ¬64 * wordOf bits.length + j = bits.length by omega)]
        simp [show ¬(j - bitOf bits.length = 0) by omega]
  | false =>
    refine Edit.yields_modify (h.congr fun i => ?_).holds_concat
    split
    · rename_i heq
      rw [heq, List.getElem?_eq_none (Nat.le_refl _), Option.getD_none]
    · rfl

/-- A bit is put at the end where room for it can be made. -/
theorem Holds.push (h : v.Holds bits) {memory : Allocator} (b : Bool)
    (hroom : (WordVec.ensureCapacity memory (bits.length + 1)).Yields v
      (fun _ w => w.Holds bits) failed) :
    (WordVec.push memory b).Yields v (fun _ w => w.Holds (bits ++ [b])) failed := by
  refine Edit.yields_congr (Edit.view_bind WordVec.length) ?_
  rw [h.length_eq]
  have hsucc := wordsFor_succ bits.length
  by_cases hfull : bitOf bits.length = 0
  · rw [if_pos hfull] at hsucc
    simp only [if_pos hfull]
    refine hroom.bind fun _ w hw => ?_
    obtain ⟨store, length⟩ := w
    have hlength : length = bits.length := Holds.length_eq hw
    subst hlength
    refine Edit.yields_bind_ok (rfl : onStore _ _ = _) (Image.pushBit ?_ b)
    rw [hsucc]
    refine (Image.resize hw bits.length (wordsFor bits.length + 1)).congr fun i => ?_
    rcases Nat.lt_or_ge i bits.length with hi | hi
    · have hword := wordOf_lt_wordsFor hi
      rw [decide_eq_true (by omega), Bool.true_and]
    · rw [List.getElem?_eq_none hi, Option.getD_none, Bool.and_false]
  · rw [if_neg hfull] at hsucc
    simp only [if_neg hfull]
    refine Image.pushBit ?_ b
    rw [hsucc]
    exact h

theorem follows_push (memory : Allocator) (b : Bool) :
    Follows (Holds (S := S)) Sound (push memory b) (Plan.push b) := by
  intro v bits h
  apply followsAt_of_yields rfl
  exact (h.push b (h.ensureCapacity memory _)).imp fun _ _ hw => ⟨rfl, hw⟩

/-- The part of a field of bits that falls into the first word with room. -/
theorem Image.orLow (h : v.Image n count f) (lo width : Nat) (hk : wordOf lo < count) {value : Word}
    (hvalue : Word.Narrow width value) :
    (WordVec.modifyWord (wordOf lo) (· ||| value <<< bitOf lo)).Yields v
      (fun _ w => w.Image n count (retouched lo (min (lo + width) (64 * (wordOf lo + 1)))
        (fun j b => b || value.getLsbD j) f)) failed := by
  have hlo := wordOf_bitOf lo
  refine h.retouch _ _ _ hk (by omega) (by omega) fun w j hj => ?_
  rw [BitVec.getLsbD_or, BitVec.getLsbD_shiftLeft, decide_eq_true hj, Bool.true_and]
  split
  · rw [decide_eq_false (show ¬j < bitOf lo by omega), Bool.not_false, Bool.true_and,
      show 64 * wordOf lo + j - lo = j - bitOf lo by omega]
  · rcases Nat.lt_or_ge j (bitOf lo) with hplace | hplace
    · rw [decide_eq_true hplace, Bool.not_true, Bool.false_and, Bool.or_false]
    · rw [hvalue (j - bitOf lo) (by omega), Bool.and_false, Bool.or_false]

/-- The part of a field of bits that falls into the word after that one. -/
theorem Image.orHigh (h : v.Image n count f) (lo width : Nat) (hk : wordOf lo + 1 < count)
    (hwidth : width ≤ 64) {value : Word} (hvalue : Word.Narrow width value) :
    (WordVec.modifyWord (wordOf lo + 1) (· ||| value >>> (64 - bitOf lo))).Yields v
      (fun _ w => w.Image n count (retouched (64 * (wordOf lo + 1)) (lo + width)
        (fun j b => b || value.getLsbD (j + (64 * (wordOf lo + 1) - lo))) f)) failed := by
  have hlo := wordOf_bitOf lo
  have hplace := bitOf_lt lo
  refine h.retouch _ _ _ hk (by omega) (by omega) fun w j hj => ?_
  rw [BitVec.getLsbD_or, BitVec.getLsbD_ushiftRight]
  split
  · rw [show 64 * (wordOf lo + 1) + j - 64 * (wordOf lo + 1) + (64 * (wordOf lo + 1) - lo) =
      64 - bitOf lo + j by omega]
  · rw [hvalue _ (by omega), Bool.or_false]

theorem getD_map_getLsbD (w : Word) (count i : Nat) :
    ((List.range count).map w.getLsbD)[i]?.getD false =
      (w &&& Word.mask count).getLsbD i := by
  rw [BitVec.getLsbD_and, Word.getLsbD_mask]
  rcases Nat.lt_or_ge i count with hi | hi
  · rw [List.getElem?_map, List.getElem?_range hi, Option.map_some, Option.getD_some]
    rcases Nat.lt_or_ge i 64 with hword | hword
    · rw [decide_eq_true hi, decide_eq_true hword, Bool.and_true, Bool.and_true]
    · rw [BitVec.getLsbD_of_ge w i hword, Bool.false_and]
  · rw [List.getElem?_eq_none (by rwa [List.length_map, List.length_range]),
      Option.getD_none, decide_eq_false (Nat.not_lt.mpr hi), Bool.and_false, Bool.and_false]

/-- A picture with the bits of a word behind the last one is that of a longer
vector. -/
theorem Image.holds_append {width : Nat} {w : Word}
    (h : v.Image (bits.length + width) (wordsFor (bits.length + width))
      (retouched bits.length (bits.length + width)
        (fun j b => b || (w &&& Word.mask width).getLsbD j)
        fun i => (resized (bits.length + width) false bits)[i]?.getD false)) :
    v.Holds (bits ++ (List.range width).map w.getLsbD) := by
  rw [Holds, List.length_append, List.length_map, List.length_range]
  refine h.congr fun i => ?_
  rw [getD_append, getD_map_getLsbD, retouched, getD_resized]
  rcases Nat.lt_or_ge i bits.length with hi | hi
  · rw [if_pos hi, if_neg (by omega), decide_eq_true (by omega), Bool.true_and]
  · rw [if_neg (Nat.not_lt.mpr hi), List.getElem?_eq_none hi, Option.getD_none, Bool.and_false]
    split
    · exact Bool.false_or _
    · exact (((Word.narrow_mask width).and_left w) _ (by omega)).symm

/-- The bits of a word are put at the end where room for them can be made. -/
theorem Holds.appendBits (h : v.Holds bits) {memory : Allocator} (w : Word) {width : Nat}
    (hwidth : width ≤ 64)
    (hroom : (WordVec.ensureCapacity memory (bits.length + width)).Yields v
      (fun _ w => w.Holds bits) failed) :
    (WordVec.appendBits memory w width).Yields v
      (fun _ x => x.Holds (bits ++ (List.range width).map w.getLsbD)) failed := by
  refine Edit.yields_congr (Edit.view_bind WordVec.length) ?_
  rw [h.length_eq]
  apply Edit.yields_liftM_bind_ok (require_eq_ok_iff.mpr hwidth)
  rcases Nat.eq_zero_or_pos width with rfl | hsome
  · rw [if_pos rfl, List.range_zero, List.map_nil, List.append_nil]
    exact Edit.yields_pure h
  · rw [if_neg (Nat.ne_of_gt hsome)]
    have hnarrow : Word.Narrow width (w &&& Word.mask width) := (Word.narrow_mask width).and_left w
    have hplace := wordOf_bitOf bits.length
    have hbit := bitOf_lt bits.length
    have hcount := le_wordsFor (bits.length + width)
    refine (h.setLength fun _ => hroom).bind fun _ x hx => ?_
    rw [Holds, length_resized] at hx
    apply Edit.yields_liftM_bind_ok (shiftUp_of_lt _ hbit)
    refine (hx.orLow bits.length width (by omega) hnarrow).bind fun _ y hy => ?_
    split
    · apply Edit.yields_liftM_bind_ok (shiftDown_of_lt _ (by omega))
      rw [Nat.min_eq_right (by omega)] at hy
      refine (hy.orHigh bits.length width (by omega) hwidth hnarrow).imp
        fun _ z hz => Image.holds_append ?_
      exact hz.join (fun j b => b || (w &&& Word.mask width).getLsbD j) (by omega) (by omega)
    · rw [Nat.min_eq_left (by omega)] at hy
      exact Edit.yields_pure hy.holds_append

theorem follows_appendBits (memory : Allocator) (w : Word) (width : Nat) :
    Follows (Holds (S := S)) Sound (appendBits memory w width) (Plan.appendBits w width) := by
  intro v bits h
  by_cases hwidth : width ≤ 64
  · apply followsAt_of_yields (Plan.appendBits_of_le w hwidth)
    exact (h.appendBits w hwidth (h.ensureCapacity memory _)).imp fun _ _ hx => ⟨rfl, hx⟩
  · refine followsAt_view h.length_eq (followsAt_liftM rfl fun hcheck => ?_)
    exact absurd (require_eq_ok_iff.mp hcheck) hwidth

/-- A source is put at the end where its bits can be counted with those there are, room
for all of it can be made and each word of it can then be put. -/
theorem Holds.append {memory : Allocator} {source : Source} {other : List Bool}
    {P : WordVec S → List Bool → Prop} (h : v.Holds bits) (hsource : source.Reads other)
    (hsum : ∀ failure, plus bits.length other.length = .error failure → failed failure v)
    (hroom : (WordVec.ensureCapacity memory (bits.length + other.length)).Yields v
      (fun _ w => P w bits) failed)
    (happend : ∀ v front w width, P v front → width ≤ 64 →
      front.length + width ≤ bits.length + other.length →
      (WordVec.appendBits memory w width).Yields v
        (fun _ x => P x (front ++ (List.range width).map w.getLsbD)) failed) :
    (WordVec.append memory source).Yields v (fun _ x => P x (bits ++ other)) failed := by
  refine Edit.yields_congr (Edit.view_bind WordVec.length) ?_
  rw [h.length_eq, hsource.length_eq]
  refine Edit.yields_liftM_bind (fun n hn => ?_) hsum
  rw [plus_eq_ok hn]
  refine hroom.bind fun _ w hw => ?_
  refine (yields_appendWindows hsource (Nat.zero_le _) (Nat.le_refl _) happend hw).imp
    fun _ x hx => ?_
  rwa [List.drop_zero, List.take_length] at hx

theorem follows_append (memory : Allocator) {source : Source} {other : List Bool}
    (hsource : source.Reads other) :
    Follows (Holds (S := S)) Sound (append memory source) (Plan.append other) := by
  intro v bits h
  apply followsAt_of_yields rfl
  refine (h.append hsource ?_ (h.ensureCapacity memory _) ?_).imp fun _ _ hx => ⟨rfl, hx⟩
  · exact fun failure hsum => ⟨plus_eq_error hsum ▸ rfl, bits, h⟩
  · intro v front w width hv hwidth _
    exact (follows_appendBits memory w width).yields_appendBits hv hwidth

/-! ## Insertion -/

/-- The bits of an insertion when the words from `m` on have been moved. -/
def movedFrom (m : Nat) (f : Nat → Bool) (x : Nat) : Bool :=
  if 64 * m ≤ x then f (x - 1) else f x

/-- The bits of an insertion when all is done. -/
def insertedAt (i : Nat) (b : Bool) (f : Nat → Bool) (x : Nat) : Bool :=
  if x < i then f x else if x = i then b else f (x - 1)

/-- One word of an insertion: its bits go up by one place, and the highest bit of
the word below enters. The words above have been moved already. -/
theorem Image.carryUp {m : Nat} (h : v.Image n count (movedFrom (m + 1) f)) (hpos : 0 < m)
    (hm : m < count) :
    (do
      let lower ← minus m 1
      let below ← Edit.inspect fun v : WordVec S => WordStore.word v.store lower
      WordVec.modifyWord m fun w => w <<< 1 ||| below >>> topPlace : Edit (WordVec S) Unit).Yields v
      (fun _ w => w.Image n count (movedFrom m f)) failed := by
  apply Edit.yields_liftM_bind_ok (minus_of_le hpos)
  obtain ⟨below, hread, hbelow⟩ := h.word_eq (show m - 1 < count by omega)
  refine Edit.yields_inspect_bind hread ?_
  unfold movedFrom at *
  refine h.modifyWord hm _ ?_ ?_
  · intro i hi
    have hiff : 64 * m ≤ i ↔ 64 * (m + 1) ≤ i := by
      unfold wordOf at hi
      omega
    simp only [hiff]
  · intro w hw j hj
    have hold : ∀ k, k < 64 → w.getLsbD k = f (64 * m + k) := by
      intro k hk
      rw [hw k hk, if_neg (by omega)]
    rw [BitVec.getLsbD_or, BitVec.getLsbD_shiftLeft, BitVec.getLsbD_ushiftRight, if_pos (by omega)]
    rcases Nat.eq_zero_or_pos j with rfl | hnext
    · rw [topPlace, hbelow 63 (by omega), if_neg (by omega),
        show 64 * (m - 1) + 63 = 64 * m + 0 - 1 by omega]
      simp
    · rw [BitVec.getLsbD_of_ge below _ (show 64 ≤ topPlace + j by unfold topPlace; omega),
        Bool.or_false, hold _ (by omega), decide_eq_true hj,
        decide_eq_false (show ¬j < 1 by omega),
        show 64 * m + (j - 1) = 64 * m + j - 1 by omega]
      rfl

/-- The word of an insertion: the bits from the place on go up by one, and the
new bit enters. The words above have been moved already. -/
theorem Image.insertInWord {i : Nat} (b : Bool) (h : v.Image n count (movedFrom (wordOf i + 1) f))
    (hk : wordOf i < count) :
    (WordVec.modifyWord (wordOf i) fun w => (w &&& ~~~Word.mask (bitOf i)) <<< 1 |||
      (w &&& Word.mask (bitOf i)) ||| (BitVec.ofBool b).setWidth 64 <<< bitOf i).Yields v
      (fun _ w => w.Image n count (insertedAt i b f)) failed := by
  have hplace := wordOf_bitOf i
  have hbit := bitOf_lt i
  unfold movedFrom at h
  unfold insertedAt
  refine h.modifyWord hk _ ?_ ?_
  · intro x hx
    unfold wordOf at hx hplace ⊢
    rcases Nat.lt_or_ge x i with hlt | hge
    · rw [if_pos hlt, if_neg (by omega)]
    · rw [if_neg (Nat.not_lt.mpr hge), if_neg (by omega), if_pos (by omega)]
  · intro w hw j hj
    have hold : ∀ k, k < 64 → w.getLsbD k = f (64 * wordOf i + k) := by
      intro k hk
      rw [hw k hk, if_neg (by omega)]
    simp only [BitVec.getLsbD_or, BitVec.getLsbD_and, BitVec.getLsbD_shiftLeft, BitVec.getLsbD_not,
      Word.getLsbD_mask, BitVec.getLsbD_setWidth, BitVec.getLsbD_ofBool, decide_eq_true hj,
      Bool.true_and]
    rcases Nat.lt_trichotomy j (bitOf i) with hlt | heq | hgt
    · rw [if_pos (by omega), ← hold j hj]
      simp [hlt, show j - 1 < bitOf i by omega]
    · rw [if_neg (by omega), if_pos (by omega)]
      subst heq
      rcases Nat.eq_zero_or_pos (bitOf i) with hzero | hpos
      · simp [hzero]
      · simp [show bitOf i - 1 < bitOf i by omega]
    · rw [if_neg (by omega), if_neg (by omega), show 64 * wordOf i + j - 1 =
        64 * wordOf i + (j - 1) by omega, ← hold (j - 1) (by omega)]
      simp [Nat.lt_asymm hgt, show ¬(j - 1 < bitOf i) by omega, show ¬(j < 1) by omega,
        show ¬(j - bitOf i = 0) by omega, show j - 1 < 64 by omega]

/-- What is left when all the words have been moved is a list with one bit more. -/
theorem getD_insertIdx {i : Nat} (hle : i ≤ bits.length) (b : Bool) (x : Nat) :
    insertedAt i b (fun x => (resized (bits.length + 1) false bits)[x]?.getD false) x =
      (bits.insertIdx i b)[x]?.getD false := by
  rw [List.getElem?_insertIdx, insertedAt]
  rcases Nat.lt_trichotomy x i with hbefore | hat | hafter
  · rw [if_pos hbefore, if_pos hbefore, getD_resized, decide_eq_true (by omega), Bool.true_and]
  · rw [if_neg (by omega), if_pos hat, if_neg (by omega), if_pos hat, if_pos (by omega),
      Option.getD_some]
  · rw [if_neg (by omega), if_neg (by omega), if_neg (by omega), if_neg (by omega), getD_resized]
    rcases Nat.lt_or_ge (x - 1) bits.length with hin | hpast
    · rw [decide_eq_true (by omega), Bool.true_and]
    · rw [List.getElem?_eq_none hpast, Option.getD_none, Bool.and_false]

/-- A bit is inserted where room for it can be made. -/
theorem Holds.insert (h : v.Holds bits) {memory : Allocator} {i : Nat} (hle : i ≤ bits.length)
    (b : Bool)
    (hroom : (WordVec.ensureCapacity memory (bits.length + 1)).Yields v
      (fun _ w => w.Holds bits) failed) :
    (WordVec.insert memory i b).Yields v (fun _ w => w.Holds (bits.insertIdx i b)) failed := by
  refine Edit.yields_congr (Edit.view_bind WordVec.length) ?_
  rw [h.length_eq]
  apply Edit.yields_liftM_bind_ok (require_eq_ok_iff.mpr hle)
  split
  · rename_i hend
    rw [hend, List.insertIdx_length_self]
    exact h.push b hroom
  · refine (h.setLength fun _ => hroom).bind fun _ w himage => ?_
    rw [Holds, length_resized] at himage
    have hcount := le_wordsFor (bits.length + 1)
    have hplace := wordOf_bitOf i
    have hpast : ∀ x, bits.length ≤ x →
        (resized (bits.length + 1) false bits)[x]?.getD false = false := by
      intro x hx
      rw [getD_resized, List.getElem?_eq_none hx, Option.getD_none, Bool.and_false]
    have hword : wordOf i < wordsFor (bits.length + 1) := wordOf_lt_wordsFor (by omega)
    refine Edit.Yields.bind (Edit.yields_visitDown (fun m (w : WordVec S) =>
      w.Image (bits.length + 1) (wordsFor (bits.length + 1)) (movedFrom m fun x =>
        (resized (bits.length + 1) false bits)[x]?.getD false)) ?_ ?_) fun _ x hx => ?_
    · refine himage.congr fun x => ?_
      unfold movedFrom
      split
      · exact (hpast x (by omega)).trans (hpast (x - 1) (by omega)).symm
      · rfl
    · intro m hlo hhi x hx
      exact hx.carryUp (by omega) (by omega)
    · apply Edit.yields_liftM_bind_ok (shiftUp_of_lt _ (bitOf_lt i))
      refine (hx.insertInWord b hword).imp fun _ y hy => ?_
      rw [Holds, List.length_insertIdx_of_le_length hle]
      exact hy.congr (getD_insertIdx hle b)

theorem follows_insert (memory : Allocator) (i : Nat) (b : Bool) :
    Follows (Holds (S := S)) Sound (insert memory i b) (Plan.insert i b) := by
  intro v bits h
  by_cases hle : i ≤ bits.length
  · apply followsAt_of_yields (Plan.insert_of_le hle b)
    exact (h.insert hle b (h.ensureCapacity memory _)).imp fun _ _ hw => ⟨rfl, hw⟩
  · refine followsAt_view h.length_eq (followsAt_liftM rfl fun hcheck => ?_)
    exact absurd (require_eq_ok_iff.mp hcheck) hle

/-! ## Removal -/

/-- The bits of a removal of bit `i` when the words before `m` have been moved:
the last bit before word `m` has yet to enter. -/
def removedUpTo (i m : Nat) (f : Nat → Bool) (x : Nat) : Bool :=
  if x < i then f x else if x + 1 < 64 * m then f (x + 1) else if x + 1 = 64 * m then false else f x

/-- The word of a removal: the bits past the place go down by one. -/
theorem Image.removeInWord (h : v.Image n count f) {i : Nat} (hk : wordOf i < count) :
    (WordVec.modifyWord (wordOf i) fun w =>
      (w >>> 1 &&& ~~~Word.mask (bitOf i)) ||| (w &&& Word.mask (bitOf i))).Yields v
      (fun _ w => w.Image n count (removedUpTo i (wordOf i + 1) f)) failed := by
  have hplace := wordOf_bitOf i
  have hbit := bitOf_lt i
  refine h.modifyWord hk _ ?_ ?_
  · intro x hx
    unfold wordOf at hx hplace
    unfold removedUpTo wordOf
    split
    · rfl
    · rw [if_neg (by omega), if_neg (by omega)]
  · intro w hw j hj
    simp only [removedUpTo, BitVec.getLsbD_or, BitVec.getLsbD_and, BitVec.getLsbD_not,
      BitVec.getLsbD_ushiftRight, Word.getLsbD_mask, decide_eq_true hj, Bool.true_and]
    rcases Nat.lt_or_ge j (bitOf i) with hlt | hge
    · rw [if_pos (by omega), ← hw j hj]
      simp [hlt]
    · rw [if_neg (by omega)]
      rcases Nat.eq_or_lt_of_le (Nat.le_of_lt_succ hj) with rfl | hbelow
      · rw [if_neg (by omega), if_pos (by omega), BitVec.getLsbD_of_ge w (1 + 63) (by omega)]
        simp [show ¬63 < bitOf i by omega]
      · rw [if_pos (by omega), show 64 * wordOf i + j + 1 = 64 * wordOf i + (1 + j) by omega,
          ← hw (1 + j) (by omega)]
        simp [Nat.not_lt.mpr hge]

/-- The lowest bit of word `m` enters the word below. -/
theorem Image.carryBit {i m : Nat} (h : v.Image n count (removedUpTo i m f)) (hi : i < 64 * m)
    (hm : m < count) {w : Word} (hw : ∀ j, j < 64 → w.getLsbD j = f (64 * m + j)) :
    (WordVec.modifyWord (m - 1) (· ||| (w &&& 1#64) <<< topPlace)).Yields v
      (fun _ x => x.Image n count
        fun x => if x + 1 = 64 * m then f (64 * m) else removedUpTo i m f x) failed := by
  refine h.modifyWord (show m - 1 < count by omega) _ ?_ ?_
  · intro x hx
    unfold wordOf at hx
    exact if_neg (by omega)
  · intro y hy j hj
    rw [BitVec.getLsbD_or, BitVec.getLsbD_shiftLeft, BitVec.getLsbD_and, BitVec.getLsbD_one,
      hy j hj]
    rcases Nat.eq_or_lt_of_le (Nat.le_of_lt_succ hj) with rfl | hbelow
    · have hentering := hw 0 (by omega)
      rw [Nat.add_zero] at hentering
      rw [if_pos (by omega), removedUpTo, if_neg (by omega), if_neg (by omega), if_pos (by omega),
        ← hentering]
      simp [topPlace]
    · rw [if_neg (by omega), decide_eq_true (show j < topPlace from hbelow)]
      simp

/-- The bits of word `m` go down by one place, once its lowest bit has left. -/
theorem Image.dropBit {i m : Nat} (h : v.Image n count
      fun x => if x + 1 = 64 * m then f (64 * m) else removedUpTo i m f x) (hi : i < 64 * m)
    (hm : m < count) {w : Word} (hw : ∀ j, j < 64 → w.getLsbD j = f (64 * m + j)) :
    (WordVec.modifyWord m fun _ => w >>> 1).Yields v
      (fun _ x => x.Image n count (removedUpTo i (m + 1) f)) failed := by
  refine h.modifyWord hm _ ?_ ?_
  · intro x hx
    unfold wordOf at hx
    unfold removedUpTo
    rcases Nat.lt_or_ge x i with hlt | hge
    · rw [if_pos hlt, if_pos hlt, if_neg (by omega)]
    · rw [if_neg (Nat.not_lt.mpr hge), if_neg (Nat.not_lt.mpr hge)]
      rcases Nat.lt_trichotomy (x + 1) (64 * m) with hbefore | hat | hafter
      · rw [if_pos (by omega), if_neg (by omega), if_pos hbefore]
      · rw [if_pos (by omega), if_pos hat, hat]
      · rw [if_neg (by omega), if_neg (by omega), if_neg (by omega), if_neg (by omega),
          if_neg (by omega)]
  · intro _ _ j hj
    rw [BitVec.getLsbD_ushiftRight, removedUpTo, if_neg (by omega)]
    rcases Nat.eq_or_lt_of_le (Nat.le_of_lt_succ hj) with rfl | hbelow
    · rw [if_neg (by omega), if_pos (by omega), BitVec.getLsbD_of_ge w (1 + 63) (by omega)]
    · rw [if_pos (by omega), hw _ (by omega), show 64 * m + j + 1 = 64 * m + (1 + j) by omega]

/-- One word of a removal: its lowest bit enters the word below, and its bits go
down by one place. -/
theorem Image.carryDown {i m : Nat} (h : v.Image n count (removedUpTo i m f)) (hi : i < 64 * m)
    (hm : m < count) :
    (do
      let w ← Edit.inspect fun v : WordVec S => WordStore.word v.store m
      WordVec.modifyWord (← minus m 1) (· ||| (w &&& 1#64) <<< topPlace)
      WordVec.modifyWord m fun _ => w >>> 1 : Edit (WordVec S) Unit).Yields v
      (fun _ w => w.Image n count (removedUpTo i (m + 1) f)) failed := by
  obtain ⟨w, hread, hw⟩ := h.word_eq hm
  have hold : ∀ j, j < 64 → w.getLsbD j = f (64 * m + j) := by
    intro j hj
    rw [hw j hj, removedUpTo, if_neg (by omega), if_neg (by omega), if_neg (by omega)]
  refine Edit.yields_inspect_bind hread ?_
  apply Edit.yields_liftM_bind_ok (minus_of_le (by omega))
  exact (h.carryBit hi hm hold).bind fun _ x hx => hx.dropBit hi hm hold

/-- What is left when all the words have been moved is a list with one bit less. -/
theorem getD_eraseIdx {i c : Nat} (hi : i < bits.length) (hc : bits.length ≤ 64 * c) (x : Nat) :
    (decide (wordOf x < wordsFor (bits.length - 1)) &&
      removedUpTo i c (fun x => bits[x]?.getD false) x) = (bits.eraseIdx i)[x]?.getD false := by
  rw [List.getElem?_eraseIdx]
  unfold removedUpTo
  rcases Nat.lt_or_ge x (bits.length - 1) with hin | hout
  · rw [decide_eq_true (wordOf_lt_wordsFor hin), Bool.true_and]
    rcases Nat.lt_or_ge x i with hlt | hge
    · rw [if_pos hlt, if_pos hlt]
    · rw [if_neg (Nat.not_lt.mpr hge), if_neg (Nat.not_lt.mpr hge), if_pos (by omega)]
  · have hpast : ∀ y, bits.length ≤ y → bits[y]?.getD false = false := by
      intro y hy
      rw [List.getElem?_eq_none hy, Option.getD_none]
    rw [if_neg (show ¬x < i by omega), if_neg (show ¬x < i by omega), hpast (x + 1) (by omega),
      Bool.and_eq_false_iff]
    right
    split
    · exact hpast (x + 1) (by omega)
    · split
      · rfl
      · exact hpast x (by omega)

/-- The last bit is removed by cutting it off. -/
theorem eraseIdx_eq_resized {i : Nat} (hend : i + 1 = bits.length) :
    bits.eraseIdx i = resized i false bits := by
  apply List.ext_getElem?
  intro x
  rw [List.getElem?_eraseIdx, getElem?_resized]
  split
  · rw [List.getElem?_eq_getElem (by omega), Option.getD_some]
  · rw [List.getElem?_eq_none (by omega)]

theorem follows_remove (i : Nat) :
    Follows (Holds (S := S)) (fun _ => False) (remove i) (Plan.remove i) := by
  intro v bits h
  refine followsAt_view h.length_eq ?_
  rcases Nat.lt_or_ge i bits.length with hi | hpast
  · have hold := List.getElem?_eq_getElem hi
    refine followsAt_of_yields (Plan.remove_of_some hold) ?_
    refine Edit.yields_inspect_bind (h.bit_eq hold) ?_
    have hlength := List.length_eraseIdx_of_lt hi
    split
    · rename_i hend
      refine (h.shorten i).bind fun _ w hw => Edit.yields_pure ⟨rfl, ?_⟩
      rwa [eraseIdx_eq_resized hend]
    · have hcount := le_wordsFor bits.length
      have hplace := wordOf_bitOf i
      have hbit := bitOf_lt i
      have hword := wordOf_lt_wordsFor hi
      refine (Image.removeInWord h hword).bind fun _ w hw => ?_
      refine Edit.Yields.bind (Edit.yields_visitUp (fun m (w : WordVec S) =>
        w.Image bits.length (wordsFor bits.length)
          (removedUpTo i m fun x => bits[x]?.getD false)) hw ?_) fun _ x hx => ?_
      · intro m hlo hhi x hx
        exact hx.carryDown (by omega) (by omega)
      · apply Edit.yields_liftM_bind_ok (minus_of_le (by omega))
        refine (hx.cutTo (bits.length - 1)).bind fun _ y hy => Edit.yields_pure ⟨rfl, ?_⟩
        rw [Holds, hlength]
        exact hy.congr fun x => getD_eraseIdx hi (by omega) x
  · have hread := h.bit_past hpast
    exact followsAt_error (Edit.inspect_bind_error hread) (Plan.remove_past hpast)

/-! ## All of them -/

/-- Vectors in words are lawful over every store that keeps its contract. -/
theorem lawful [LawfulFill S] : Lawful (Holds (S := S)) where
  reads := Holds.reads
  bit_past h hpast := Holds.bit_past h hpast
  set := follows_set
  setBits := follows_setBits
  fillRange := follows_fillRange
  flipRange := follows_flipRange
  combine op _ _ hsource := follows_combine op hsource
  remove := follows_remove
  setLength memory n := (follows_setLength memory n).mono fun _ _ => trivial
  insert memory i b := (follows_insert memory i b).mono fun _ _ => trivial
  push memory b := (follows_push memory b).mono fun _ _ => trivial
  appendBits memory w count := (follows_appendBits memory w count).mono fun _ _ => trivial
  append memory _ _ hsource := (follows_append memory hsource).mono fun _ _ => trivial

end WordVec

end PackedBits
