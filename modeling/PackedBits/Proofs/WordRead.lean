import PackedBits.Proofs.Meaning
import PackedBits.Proofs.WordImage

/-!
# Vectors in words as lists of bits

A vector holds a list of bits when its picture is that list and nothing more: as
many words as the length needs and zeros past the length. A bit or a window is
then read from one word or from two neighbours.
-/

namespace PackedBits

namespace WordVec

variable {S : Type} [WordStore S] [LawfulStore S] {v : WordVec S} {n count : Nat}
  {f : Nat → Bool} {bits : List Bool}

/-! ## Reading a picture -/

theorem Image.bit_eq (h : v.Image n count f) {i : Nat} (hi : i < n) (hword : wordOf i < count) :
    v.bit i = .ok (f i) := by
  obtain ⟨w, hw, hbits⟩ := h.word_eq hword
  have hcheck : checkIndex i v.length = .ok () := require_eq_ok_iff.mpr (h.length_eq ▸ hi)
  have hbit := hbits (bitOf i) (bitOf_lt i)
  rw [wordOf_bitOf] at hbit
  rw [WordVec.bit, hcheck, hw, ← hbit]
  rfl

theorem Image.bit_past (h : v.Image n count f) {i : Nat} (hi : n ≤ i) :
    v.bit i = .error (.indexOutOfBounds i n) := by
  have hcheck : checkIndex i v.length = .error (.indexOutOfBounds i n) :=
    require_eq_error_iff.mpr ⟨Nat.not_lt.mpr (h.length_eq ▸ hi), by rw [h.length_eq]⟩
  rw [WordVec.bit, hcheck]
  rfl

/-- A window lies in one word or in two neighbours. -/
theorem Image.window_eq (h : v.Image n count f) (hcount : n ≤ 64 * count) {lo hi : Nat}
    (hle : lo ≤ hi) (hhi : hi ≤ n) (hspan : hi - lo ≤ 64) :
    ∃ w, v.window lo hi = .ok w ∧ ∀ j, w.getLsbD j = (decide (j < hi - lo) && f (lo + j)) := by
  have hcheck : checkWindow lo hi v.length = .ok () :=
    checkWindow_eq_ok_iff.mpr ⟨hle, h.length_eq ▸ hhi, hspan⟩
  by_cases hwidth : hi - lo = 0
  · refine ⟨0#64, ?_, fun j => ?_⟩
    · simp only [window, hcheck, hwidth, if_true, bind, Except.bind, pure, Except.pure]
    · rw [hwidth, decide_eq_false (Nat.not_lt_zero j), Bool.false_and, BitVec.getLsbD_zero]
  · have hplace := bitOf_lt lo
    have hlo := wordOf_bitOf lo
    obtain ⟨low, hlow, hlowbits⟩ := h.word_eq (k := wordOf lo) (by omega)
    have hdown := shiftDown_of_lt low hplace
    by_cases hone : bitOf lo + (hi - lo) ≤ 64
    · refine ⟨(low >>> bitOf lo) &&& Word.mask (hi - lo), ?_, fun j => ?_⟩
      · simp only [window, hcheck, hwidth, if_false, hlow, hdown, hone, if_true, bind, Except.bind,
          pure, Except.pure]
      · rw [BitVec.getLsbD_and, BitVec.getLsbD_ushiftRight, Word.getLsbD_mask]
        by_cases hj : j < hi - lo
        · rw [hlowbits _ (by omega), ← Nat.add_assoc, hlo]
          simp [hj, show j < 64 by omega]
        · simp [hj]
    · obtain ⟨high, hhigh, hhighbits⟩ := h.word_eq (k := wordOf lo + 1) (by omega)
      have hup := shiftUp_of_lt high (show 64 - bitOf lo < 64 by omega)
      refine ⟨((low >>> bitOf lo) ||| (high <<< (64 - bitOf lo))) &&& Word.mask (hi - lo), ?_,
        fun j => ?_⟩
      · simp only [window, hcheck, hwidth, if_false, hlow, hdown, hone, hhigh, hup, bind,
          Except.bind, pure, Except.pure]
      · rw [BitVec.getLsbD_and, BitVec.getLsbD_or, BitVec.getLsbD_ushiftRight,
          BitVec.getLsbD_shiftLeft, Word.getLsbD_mask]
        by_cases hj : j < hi - lo
        · rcases Nat.lt_or_ge (bitOf lo + j) 64 with hfirst | hfirst
          · rw [hlowbits _ hfirst, ← Nat.add_assoc, hlo]
            simp [hj, show j < 64 by omega, show j < 64 - bitOf lo by omega]
          · rw [BitVec.getLsbD_of_ge low _ hfirst, hhighbits _ (by omega),
              show 64 * (wordOf lo + 1) + (j - (64 - bitOf lo)) = lo + j by omega]
            simp [hj, show j < 64 by omega, show ¬j < 64 - bitOf lo by omega]
        · simp [hj]

/-! ## Holding bits -/

/-- A vector has exactly these bits, in the words that they need and with zeros
after them. -/
def Holds (v : WordVec S) (bits : List Bool) : Prop :=
  v.Image bits.length (wordsFor bits.length) fun i => bits[i]?.getD false

/-- A vector holds some bits. -/
def Sound (v : WordVec S) : Prop := ∃ bits, v.Holds bits

theorem Image.holds (h : v.Image bits.length (wordsFor bits.length) f)
    (hf : ∀ i, f i = bits[i]?.getD false) : v.Holds bits :=
  h.congr hf

/-- A picture with no one past its length is the picture of a list. -/
theorem Image.holds_map (h : v.Image n (wordsFor n) f) (hf : ∀ i, n ≤ i → f i = false) :
    v.Holds ((List.range n).map f) := by
  have hlength : ((List.range n).map f).length = n := by
    rw [List.length_map, List.length_range]
  rw [← hlength] at h
  refine h.holds fun i => ?_
  rcases Nat.lt_or_ge i n with hi | hi
  · rw [List.getElem?_map, List.getElem?_range hi, Option.map_some, Option.getD_some]
  · rw [List.getElem?_eq_none (by omega), Option.getD_none, hf i hi]

theorem Image.sound (h : v.Image n (wordsFor n) f) (hf : ∀ i, n ≤ i → f i = false) : v.Sound :=
  ⟨_, h.holds_map hf⟩

theorem holds_empty : (empty : WordVec S).Holds [] := by
  refine ⟨rfl, [], LawfulStore.empty, rfl, fun i => ?_⟩
  simp [bitAt]

theorem Holds.length_eq (h : v.Holds bits) : v.length = bits.length := Image.length_eq h

theorem Holds.bit_eq (h : v.Holds bits) {i : Nat} {b : Bool} (hb : bits[i]? = some b) :
    v.bit i = .ok b := by
  have hi : i < bits.length := (List.getElem?_eq_some_iff.mp hb).1
  rw [Image.bit_eq h hi (wordOf_lt_wordsFor hi), hb, Option.getD_some]

theorem Holds.bit_past (h : v.Holds bits) {i : Nat} (hi : bits.length ≤ i) :
    v.bit i = .error (.indexOutOfBounds i bits.length) :=
  Image.bit_past h hi

theorem Holds.reads (h : v.Holds bits) : (Bits.source v).Reads bits where
  length_eq := h.length_eq
  bit_eq hb := h.bit_eq hb
  window_eq _ _ hle hhi hspan := Image.window_eq h (le_wordsFor _) hle hhi hspan

/-- A vector that holds bits is in good order. -/
theorem Holds.tidy (h : v.Holds bits) : v.tidy := by
  obtain ⟨words, hwords, hcount, hbits⟩ := Image.exists_words h
  unfold WordVec.tidy
  rw [h.length_eq]
  refine ⟨(LawfulStore.size_eq hwords).trans hcount, ?_⟩
  intro k hk
  have hw := List.getElem?_eq_getElem (hcount ▸ hk)
  refine ⟨_, LawfulStore.word_eq hwords hw, bitAt_clean_iff.mp (fun i hi => ?_) k _ hw⟩
  rw [hbits, List.getElem?_eq_none hi, Option.getD_none]

end WordVec

end PackedBits
