import PackedBits.Proofs.Search
import PackedBits.Proofs.WordRead

/-!
# Scans find what they look for

`Faithful` says what is owed by all that is read of a vector: its bits and its
windows, the number of its ones, and the positions that the scans give. The
scans by windows owe it wherever windows are read as they should be and end at
positions. A scan upwards past these is given up, `Source.PastWindows`, and `Scanned`
says what is owed then. The scans of a vector in words go over the words themselves: they
count on the zeros past the length when they look for a one, and drop a zero
found past it.
-/

namespace PackedBits

/-- All that is read of a vector is as it should be of these bits. -/
structure Faithful {V : Type} [Bits V] (v : V) (bits : List Bool) : Prop where
  reads : (Bits.source v).Reads bits
  countOnes_eq : Bits.countOnes v = .ok (bits.count true)
  next_eq (b : Bool) (i : Nat) : ∃ found, Bits.next v b i = .ok found ∧
    Least (fun p => i ≤ p ∧ bits[p]? = some b) found
  previous_eq (b : Bool) (i : Nat) : ∃ found, Bits.previous v b i = .ok found ∧
    Greatest (fun p => p < i ∧ bits[p]? = some b) found

/-- All that is read of a vector is as it should be of these bits, but that a scan upwards
for a bit is given up from where `stopped` holds. -/
structure Scanned (stopped : Bool → Nat → Prop) {V : Type} [Bits V] (v : V)
    (bits : List Bool) : Prop where
  reads : (Bits.source v).Reads bits
  countOnes_eq : Bits.countOnes v = .ok (bits.count true)
  next_eq (b : Bool) (i : Nat) : (∃ found, Bits.next v b i = .ok found ∧
    Least (fun p => i ≤ p ∧ bits[p]? = some b) found) ∨
      stopped b i ∧ Bits.next v b i = .error (.overflow .sum)
  previous_eq (b : Bool) (i : Nat) : ∃ found, Bits.previous v b i = .ok found ∧
    Greatest (fun p => p < i ∧ bits[p]? = some b) found

section

variable {V : Type} [Bits V] {v : V} {bits : List Bool}
  {stopped stopped' : Bool → Nat → Prop}

theorem Faithful.scanned (h : Faithful v bits) : Scanned stopped v bits where
  reads := h.reads
  countOnes_eq := h.countOnes_eq
  next_eq b i := .inl (h.next_eq b i)
  previous_eq := h.previous_eq

theorem Scanned.mono (h : Scanned stopped v bits)
    (himp : ∀ b i, stopped b i → stopped' b i) : Scanned stopped' v bits where
  reads := h.reads
  countOnes_eq := h.countOnes_eq
  next_eq b i := (h.next_eq b i).imp_right (And.imp_left (himp b i))
  previous_eq := h.previous_eq

end

theorem lt_length_of_getElem? {bits : List Bool} {p : Nat} {b : Bool} (h : bits[p]? = some b) :
    p < bits.length :=
  (List.getElem?_eq_some_iff.mp h).1

/-- A bit at a position is a bit with zeros past the end, below the end. -/
theorem getElem?_eq_some_iff_getD {bits : List Bool} {p : Nat} {b : Bool} :
    bits[p]? = some b ↔ bits[p]?.getD false = b ∧ p < bits.length := by
  rw [List.getElem?_eq_some_iff]
  constructor
  · rintro ⟨hlt, hb⟩
    rw [List.getElem?_eq_getElem hlt]
    exact ⟨hb, hlt⟩
  · rintro ⟨hb, hlt⟩
    rw [List.getElem?_eq_getElem hlt] at hb
    exact ⟨hlt, hb⟩

/-- There are no ones past the last bit. -/
theorem getElem?_eq_some_true_iff {bits : List Bool} {p : Nat} :
    bits[p]? = some true ↔ bits[p]?.getD false = true := by
  cases bits[p]? <;> simp

/-- There is nothing to find past the end. -/
theorem least_past {bits : List Bool} {b : Bool} {i : Nat} (hpast : bits.length ≤ i) :
    Least (fun p => i ≤ p ∧ bits[p]? = some b) none := by
  apply Least.absent
  rintro p ⟨hp, hb⟩
  have hlt := lt_length_of_getElem? hb
  omega

namespace Source

variable {s : Source} {bits : List Bool}

/-- The places of a window that hold a bit. -/
theorem getLsbD_matching {w : Word} {lo hi : Nat} (hhi : hi ≤ bits.length) (hspan : hi - lo ≤ 64)
    (hw : ∀ j, w.getLsbD j = (decide (j < hi - lo) && bits[lo + j]?.getD false)) (b : Bool)
    (j : Nat) :
    (matching b (hi - lo) w).getLsbD j = true ↔ lo + j < hi ∧ bits[lo + j]? = some b := by
  by_cases hj : j < hi - lo
  · have hbit := List.getElem?_eq_getElem (show lo + j < bits.length by omega)
    have hread := hw j
    rw [decide_eq_true hj, Bool.true_and, hbit, Option.getD_some] at hread
    rw [hbit, and_iff_right (show lo + j < hi by omega), Option.some.injEq]
    cases b with
    | true => rw [matching, if_pos rfl, hread]
    | false =>
      rw [matching, if_neg Bool.false_ne_true, BitVec.getLsbD_and, BitVec.getLsbD_not, hread,
        Word.getLsbD_mask, decide_eq_true hj, decide_eq_true (show j < 64 by omega)]
      simp
  · have hnarrow : Word.Narrow (hi - lo) (matching b (hi - lo) w) := by
      cases b
      · exact (Word.narrow_mask _).and_left _
      · exact Word.narrow_of_window hw
    rw [hnarrow j (Nat.le_of_not_lt hj)]
    exact ⟨nofun, fun hin => absurd hin.1 (by omega)⟩

/-- The lowest and the highest position of a window that hold a bit. -/
theorem Reads.scan_window (h : s.Reads bits) (b : Bool) {lo hi : Nat} (hle : lo ≤ hi)
    (hhi : hi ≤ bits.length) (hspan : hi - lo ≤ 64) :
    ∃ w, s.window lo hi = .ok w ∧
      Least (fun p => lo ≤ p ∧ p < hi ∧ bits[p]? = some b)
        ((matching b (hi - lo) w).lowest?.map (lo + ·)) ∧
      Greatest (fun p => lo ≤ p ∧ p < hi ∧ bits[p]? = some b)
        ((matching b (hi - lo) w).highest?.map (lo + ·)) := by
  obtain ⟨w, hread, hw⟩ := h.window_eq lo hi hle hhi hspan
  have hmarks : (matching b (hi - lo) w).Marks lo
      fun p => lo ≤ p ∧ p < hi ∧ bits[p]? = some b := by
    constructor
    · rintro p ⟨hlo, hlt, -⟩
      exact ⟨hlo, by omega⟩
    · intro j _
      rw [and_iff_right (Nat.le_add_right lo j)]
      exact getLsbD_matching hhi hspan hw b j
  exact ⟨w, hread, hmarks.least, hmarks.greatest⟩

theorem Reads.countOnes_eq (h : s.Reads bits) : s.countOnes = .ok (bits.count true) := by
  rw [countOnes, foldWindows, h.length_eq]
  apply foldUp_countOnes
  intro count k hk
  obtain ⟨w, hread, hw⟩ := h.window_eq (64 * k) (min (64 * (k + 1)) bits.length) (by omega)
    (by omega) (by omega)
  rw [Nat.zero_add, Nat.zero_add, hread, ← Word.ones_eq_count (by omega) (by omega) hw]
  rfl

/-- What a scan upwards asks of each word: the lowest position in it, where the window that
begins with it may end at a position. -/
theorem Reads.next_search (h : s.Reads bits) (b : Bool) {i : Nat} (hi : i < bits.length) :
    ∃ ask, s.next b i = searchUp (wordOf i) (wordsFor bits.length - wordOf i) ask ∧
      (∀ k, wordOf i ≤ k → k < wordsFor bits.length → 64 * k ≤ maxPosition - 64 →
        ∃ found, ask k = .ok found ∧
          Least (fun p => (i ≤ p ∧ bits[p]? = some b) ∧ wordOf p = k) found) ∧
      ∀ k, maxPosition - 64 < 64 * k → ask k = .error (.overflow .sum) := by
  have hcount := wordsFor_le bits.length
  rw [next, h.length_eq, if_neg (Nat.not_le.mpr hi)]
  refine ⟨_, rfl, fun k hlo hhi hend => ?_, fun k hend => ?_⟩
  · unfold wordOf at hlo
    obtain ⟨w, hread, hleast, -⟩ := h.scan_window b
      (show max i (64 * k) ≤ min (64 * (k + 1)) bits.length by omega) (Nat.min_le_right _ _)
      (by omega)
    refine ⟨_, (bind_of_ok (checkWindowEnd_of_le hend)).trans (bind_of_ok hread),
      hleast.congr fun p => ?_⟩
    unfold wordOf
    constructor
    · rintro ⟨hp, hlt, hb⟩
      exact ⟨⟨by omega, hb⟩, by omega⟩
    · rintro ⟨⟨hp, hb⟩, hword⟩
      have hlt := lt_length_of_getElem? hb
      exact ⟨by omega, by omega, hb⟩
  · rw [checkWindowEnd_of_lt hend]
    rfl

/-- There are bits past the last window that ends at a position, and from `i` on none of
those before is `b`. -/
structure PastWindows (bits : List Bool) (b : Bool) (i : Nat) : Prop where
  lt_length : i < bits.length
  windowsEnd_lt : windowsEnd 0 < bits.length
  absent : ∀ p, i ≤ p → p < windowsEnd 0 → bits[p]? ≠ some b

/-- A scan upwards finds the lowest position, or comes past all windows that end at
positions. -/
theorem Reads.next_eq (h : s.Reads bits) (b : Bool) (i : Nat) :
    (∃ found, s.next b i = .ok found ∧ Least (fun p => i ≤ p ∧ bits[p]? = some b) found) ∨
      PastWindows bits b i ∧ s.next b i = .error (.overflow .sum) := by
  by_cases hover : bits.length ≤ i
  · exact .inl ⟨none, by rw [next, h.length_eq, if_pos hover], least_past hover⟩
  have hi := Nat.lt_of_not_le hover
  obtain ⟨ask, hnext, hfind, hstop⟩ := h.next_search b hi
  have hcount := wordsFor_le bits.length
  have hin := wordOf_lt_wordsFor hi
  rw [hnext]
  refine (searchUp_least_or (fun k failure => windowsEnd 0 ≤ 64 * k ∧ failure = .overflow .sum)
    ?_ ?_).imp_right ?_
  · rintro p ⟨hp, hb⟩
    have hlast := wordOf_lt_wordsFor (lt_length_of_getElem? hb)
    unfold wordOf at hlast ⊢
    omega
  · intro k hlo hhi
    by_cases hend : 64 * k ≤ maxPosition - 64
    · exact .inl (hfind k hlo (by omega) hend)
    · have hpast := mt (window_le_windowsEnd_iff 0 k).mp (by rwa [Nat.zero_add])
      exact .inr ⟨_, hstop k (Nat.lt_of_not_le hend), by unfold windowsEnd at hpast ⊢; omega, rfl⟩
  · rintro ⟨k, _, hk, hrun, ⟨hend, rfl⟩, hclear⟩
    refine ⟨⟨hi, by omega, fun p hp hlt hb => ?_⟩, hrun⟩
    have hword := hclear p ⟨hp, hb⟩
    unfold wordOf at hword
    omega

/-- A scan upwards that comes past all windows that end at positions is given up. -/
theorem Reads.next_past (h : s.Reads bits) {b : Bool} {i : Nat} (hpast : PastWindows bits b i) :
    s.next b i = .error (.overflow .sum) := by
  obtain ⟨ask, hnext, hfind, hstop⟩ := h.next_search b hpast.lt_length
  have hend := hpast.windowsEnd_lt
  have hcount := le_wordsFor bits.length
  have hin := wordOf_lt_wordsFor hpast.lt_length
  rw [hnext]
  have hfar : maxPosition - 64 < 64 * max (wordOf i) (windowsEnd 0 / 64) := by
    unfold windowsEnd maxPosition
    omega
  refine searchUp_error (Nat.le_max_left _ _) (by omega) (fun k hlo hhi => ?_) (hstop _ hfar)
  have hwindow : 64 * (k + 1) ≤ windowsEnd 0 := by omega
  obtain ⟨found, hrun, hleast⟩ := hfind k hlo (by omega)
    (by rwa [← Nat.zero_add (64 * (k + 1)), window_le_windowsEnd_iff, Nat.zero_add] at hwindow)
  cases hleast with
  | absent => exact hrun
  | @present p hp _ =>
    obtain ⟨⟨hlow, hb⟩, hword⟩ := hp
    unfold wordOf at hword
    exact absurd hb (hpast.absent p hlow (by omega))

theorem Reads.previous_eq (h : s.Reads bits) (b : Bool) (i : Nat) :
    ∃ found, s.previous b i = .ok found ∧
      Greatest (fun p => p < i ∧ bits[p]? = some b) found := by
  unfold previous
  rw [h.length_eq]
  have hcount := wordsFor_le (min i bits.length)
  apply searchDown_greatest
  · rintro p ⟨hp, hb⟩
    have hlt := lt_length_of_getElem? hb
    exact wordOf_lt_wordsFor (by omega)
  · intro k hk
    obtain ⟨w, hread, -, hmost⟩ := h.scan_window b
      (show 64 * k ≤ min (64 * (k + 1)) (min i bits.length) by omega) (by omega) (by omega)
    refine ⟨_, bind_of_ok hread, hmost.congr fun p => ?_⟩
    unfold wordOf
    constructor
    · rintro ⟨hp, hlt, hb⟩
      exact ⟨⟨by omega, hb⟩, by omega⟩
    · rintro ⟨⟨hp, hb⟩, hword⟩
      have hlt := lt_length_of_getElem? hb
      exact ⟨by omega, by omega, hb⟩

end Source

/-! ## In words -/

namespace WordVec

variable {S : Type} [WordStore S] [LawfulStore S] {v : WordVec S} {bits : List Bool}

/-- A word is the window that begins with it. -/
theorem Holds.word_eq (h : v.Holds bits) {k : Nat} (hk : 64 * k < bits.length) :
    ∃ w, WordStore.word v.store k = .ok w ∧ ∀ j, w.getLsbD j =
      (decide (j < min (64 * (k + 1)) bits.length - 64 * k) && bits[64 * k + j]?.getD false) := by
  have hcount := le_wordsFor bits.length
  obtain ⟨w, hread, hbits⟩ := Image.word_eq h (show k < wordsFor bits.length by omega)
  refine ⟨w, hread, fun j => ?_⟩
  by_cases hj : j < 64
  · rw [hbits j hj]
    by_cases hin : 64 * k + j < bits.length
    · rw [decide_eq_true (by omega), Bool.true_and]
    · rw [List.getElem?_eq_none (Nat.le_of_not_lt hin), Option.getD_none, Bool.and_false]
  · rw [BitVec.getLsbD_of_ge w j (Nat.le_of_not_lt hj), decide_eq_false (by omega),
      Bool.false_and]

theorem Holds.countOnes_eq (h : v.Holds bits) : v.countOnes = .ok (bits.count true) := by
  rw [countOnes, wordCount, h.length_eq]
  apply foldUp_countOnes
  intro count k hk
  obtain ⟨w, hread, hw⟩ := h.word_eq hk
  rw [bind_of_ok hread, Word.ones_eq_count (Nat.min_le_right _ _) (by omega) hw]
  rfl

/-- The ones of a word that is searched are the places that hold the bit. -/
theorem Image.holding_eq {n count : Nat} {f : Nat → Bool} (h : v.Image n count f) (b : Bool)
    {k : Nat} (hk : k < count) :
    ∃ w, v.holding b k = .ok w ∧
      ∀ j, j < 64 → (w.getLsbD j = true ↔ f (64 * k + j) = b) := by
  obtain ⟨w, hread, hbits⟩ := h.word_eq hk
  refine ⟨if b then w else ~~~w, bind_of_ok hread, fun j hj => ?_⟩
  rw [← hbits j hj]
  cases b with
  | true => rw [if_pos rfl]
  | false =>
    rw [if_neg Bool.false_ne_true, BitVec.getLsbD_not, decide_eq_true hj, Bool.true_and,
      Bool.not_eq_true']

theorem wordOf_mul_add (k : Nat) {j : Nat} (hj : j < 64) : wordOf (64 * k + j) = k := by
  unfold wordOf
  omega

/-- The search goes on to the end of the last word, past the last bit too. -/
theorem Holds.search_least (h : v.Holds bits) (b : Bool) {i : Nat} (hi : i < bits.length) :
    ∃ found, (searchUp (wordOf i) (wordsFor bits.length - wordOf i) fun k => do
        let below := Word.mask (max i (64 * k) - 64 * k)
        return ((← v.holding b k) &&& ~~~below).lowest?.map (64 * k + ·)) = .ok found ∧
      Least (fun p => i ≤ p ∧ wordOf p < wordsFor bits.length ∧ bits[p]?.getD false = b)
        found := by
  have hfirst := wordOf_lt_wordsFor hi
  apply searchUp_least
  · rintro p ⟨hp, hword, -⟩
    unfold wordOf at hword ⊢
    omega
  · intro k hlo hhi
    obtain ⟨w, hread, hones⟩ := Image.holding_eq h b (show k < wordsFor bits.length by omega)
    refine ⟨_, bind_of_ok hread, Word.Marks.least ⟨?_, ?_⟩⟩
    · rintro p ⟨-, hword⟩
      unfold wordOf at hword
      omega
    · intro j hj
      rw [BitVec.getLsbD_and, BitVec.getLsbD_not, Word.getLsbD_mask, decide_eq_true hj,
        Bool.true_and, Bool.true_and, Bool.and_eq_true, hones j hj, Bool.not_eq_true',
        decide_eq_false_iff_not, wordOf_mul_add k hj]
      constructor
      · rintro ⟨hb, hge⟩
        exact ⟨⟨by omega, by omega, hb⟩, rfl⟩
      · rintro ⟨⟨hge, -, hb⟩, -⟩
        exact ⟨hb, by omega⟩

/-- There are no ones past the last bit to be found, and a zero found there is
dropped. -/
theorem Holds.next_eq (h : v.Holds bits) (b : Bool) (i : Nat) :
    ∃ found, v.next b i = .ok found ∧ Least (fun p => i ≤ p ∧ bits[p]? = some b) found := by
  unfold next
  rw [h.length_eq, wordCount, h.length_eq]
  split
  · rename_i hpast
    exact ⟨none, rfl, least_past hpast⟩
  · rename_i hin
    obtain ⟨found, hrun, hfound⟩ := h.search_least b (Nat.lt_of_not_le hin)
    refine ⟨_, bind_of_ok hrun, ?_⟩
    cases b with
    | true =>
      refine hfound.congr fun p => ?_
      constructor
      · rintro ⟨hp, -, hone⟩
        exact ⟨hp, getElem?_eq_some_true_iff.mpr hone⟩
      · rintro ⟨hp, hone⟩
        have hlt := lt_length_of_getElem? hone
        exact ⟨hp, wordOf_lt_wordsFor hlt, getElem?_eq_some_true_iff.mp hone⟩
    | false =>
      refine (hfound.filter_lt bits.length).congr fun p => ?_
      rw [getElem?_eq_some_iff_getD]
      constructor
      · rintro ⟨⟨hp, -, hzero⟩, hlt⟩
        exact ⟨hp, hzero, hlt⟩
      · rintro ⟨hp, hzero, hlt⟩
        exact ⟨⟨hp, wordOf_lt_wordsFor hlt, hzero⟩, hlt⟩

theorem Holds.previous_eq (h : v.Holds bits) (b : Bool) (i : Nat) :
    ∃ found, v.previous b i = .ok found ∧
      Greatest (fun p => p < i ∧ bits[p]? = some b) found := by
  unfold previous
  rw [h.length_eq]
  have hcount := wordsFor_le (min i bits.length)
  apply searchDown_greatest
  · rintro p ⟨hp, hb⟩
    have hlt := lt_length_of_getElem? hb
    exact wordOf_lt_wordsFor (by omega)
  · intro k hk
    have hword : k < wordsFor bits.length := by
      have hlow := le_wordsFor bits.length
      omega
    obtain ⟨w, hread, hones⟩ := Image.holding_eq h b hword
    refine ⟨_, bind_of_ok hread, Word.Marks.greatest ⟨?_, ?_⟩⟩
    · rintro p ⟨-, hword⟩
      unfold wordOf at hword
      omega
    · intro j hj
      rw [BitVec.getLsbD_and, Word.getLsbD_mask, decide_eq_true hj, Bool.true_and,
        Bool.and_eq_true, hones j hj, decide_eq_true_iff, getElem?_eq_some_iff_getD,
        wordOf_mul_add k hj]
      constructor
      · rintro ⟨hb, hlt⟩
        exact ⟨⟨by omega, hb, by omega⟩, rfl⟩
      · rintro ⟨⟨hlt, hb, hin⟩, -⟩
        exact ⟨hb, by omega⟩

theorem Holds.faithful (h : v.Holds bits) : Faithful v bits where
  reads := h.reads
  countOnes_eq := h.countOnes_eq
  next_eq := h.next_eq
  previous_eq := h.previous_eq

end WordVec

end PackedBits
