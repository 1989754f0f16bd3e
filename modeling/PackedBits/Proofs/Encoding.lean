import Mathlib.Data.List.Infix
import PackedBits.Proofs.Meaning
import PackedBits.Stream

/-!
# The written form of bits

The written form of a list of bits is its length and then its words, each in
eight bytes. `Stream.write_eq` says that any source with those bits is written
so. Read the other way, `Canonical` says which bytes begin with a written form
and `content` which bits it is of; `Malformed` says what is wrong with any other
bytes, and which failure tells it.
-/

namespace PackedBits

/-- So many words are needed when one less would not do. -/
theorem wordsFor_eq_of_le {n count : Nat} (henough : n ≤ 64 * count)
    (hneeded : 64 * count < n + 64) : wordsFor n = count := by
  have hlow := le_wordsFor n
  have hhigh := wordsFor_le n
  omega

namespace Stream

variable {bytes rest : List Byte} {bits : List Bool} {n k : Nat}

/-! ## Words of a stream -/

/-- Word `k` of a stream; the length is word 0. -/
def wordAt (bytes : List Byte) (k : Nat) : Word := Word.ofBigEndian ((bytes.drop (8 * k)).take 8)

theorem wordAt_flatMap {words : List Word} {w : Word} (h : words[k]? = some w)
    (rest : List Byte) : wordAt (words.flatMap Word.bigEndian ++ rest) k = w := by
  unfold wordAt
  induction words generalizing k with
  | nil => cases h
  | cons first words ih =>
    rw [List.flatMap_cons, List.append_assoc]
    cases k with
    | zero =>
      cases h
      rw [Nat.mul_zero, List.drop_zero, List.take_left' (Word.length_bigEndian w),
        Word.ofBigEndian_bigEndian]
    | succ k =>
      rw [show 8 * (k + 1) = (Word.bigEndian first).length + 8 * k by
        rw [Word.length_bigEndian]; omega, List.drop_length_add_append]
      exact ih h

/-- Whole words at the head of a stream are written as they stand there. -/
theorem flatMap_wordAt {count : Nat} (h : 8 * count ≤ bytes.length) :
    ((List.range count).map (wordAt bytes)).flatMap Word.bigEndian = bytes.take (8 * count) := by
  induction count with
  | zero => rfl
  | succ count ih =>
    have hword : ((bytes.drop (8 * count)).take 8).length = 8 := by
      rw [List.length_take, List.length_drop]
      omega
    rw [List.range_succ, List.map_append, List.flatMap_append, ih (by omega), List.map_singleton,
      List.flatMap_singleton, wordAt, Word.bigEndian_ofBigEndian hword, ← List.take_add]
    rfl

/-- The next word of a stream is read if all of it is there. -/
theorem readWord_drop (h : 8 * (k + 1) ≤ bytes.length) :
    readWord (bytes.drop (8 * k)) = .ok (wordAt bytes k, bytes.drop (8 * (k + 1))) := by
  have hword : ((bytes.drop (8 * k)).take 8).length = 8 := by
    rw [List.length_take, List.length_drop]
    omega
  have htake := Word.takeBytes_append hword ((bytes.drop (8 * k)).drop 8)
  rw [List.take_append_drop, List.drop_drop] at htake
  rw [readWord, htake]
  rfl

theorem readWord_drop_error (h : bytes.length < 8 * (k + 1)) :
    readWord (bytes.drop (8 * k)) = .error .inputOutput := by
  have hshort : (bytes.drop (8 * k)).length < 8 := by
    rw [List.length_drop]
    omega
  rw [readWord, Word.takeBytes_eq_none hshort]

/-! ## Writing -/

/-- Word `k` of bits. -/
def packed (bits : List Bool) (k : Nat) : Word :=
  (BitVec.ofBoolListLE ((bits.drop (64 * k)).take 64)).setWidth 64

theorem getLsbD_packed (bits : List Bool) (k j : Nat) :
    (packed bits k).getLsbD j = (decide (j < 64) && bits[64 * k + j]?.getD false) := by
  rw [packed, BitVec.getLsbD_setWidth, BitVec.getLsbD_ofBoolListLE, List.getD_eq_getElem?_getD,
    List.getElem?_take, List.getElem?_drop]
  by_cases hj : j < 64
  · rw [if_pos hj]
  · rw [decide_eq_false hj, Bool.false_and, Bool.false_and]

/-- The window that begins at a word is that word. -/
theorem eq_packed_of_window {w : Word} (hw : ∀ j, w.getLsbD j =
      (decide (j < min (64 * (k + 1)) bits.length - 64 * k) && bits[64 * k + j]?.getD false)) :
    w = packed bits k := by
  apply BitVec.eq_of_getLsbD_eq
  intro j hj
  rw [hw, getLsbD_packed]
  by_cases hin : 64 * k + j < bits.length
  · rw [decide_eq_true hj, decide_eq_true (by omega)]
  · rw [List.getElem?_eq_none (Nat.le_of_not_lt hin), Option.getD_none, Bool.and_false,
      Bool.and_false]

/-- The length of bits and the first `count` of their words. -/
def wordsOf (bits : List Bool) (count : Nat) : List Word :=
  BitVec.ofNat 64 bits.length :: (List.range count).map (packed bits)

theorem length_wordsOf (bits : List Bool) (count : Nat) :
    (wordsOf bits count).length = count + 1 := by
  rw [wordsOf, List.length_cons, List.length_map, List.length_range]

theorem wordsOf_succ (bits : List Bool) (count : Nat) :
    wordsOf bits (count + 1) = wordsOf bits count ++ [packed bits count] := by
  rw [wordsOf, List.range_succ, List.map_append]
  rfl

/-- The written form of bits. -/
def encoding (bits : List Bool) : List Byte :=
  (wordsOf bits (wordsFor bits.length)).flatMap Word.bigEndian

theorem length_flatMap_bigEndian (words : List Word) :
    (words.flatMap Word.bigEndian).length = 8 * words.length := by
  simp only [List.length_flatMap, Word.length_bigEndian, List.map_const', List.sum_replicate_nat,
    Nat.mul_comm]

theorem length_encoding (bits : List Bool) :
    (encoding bits).length = 8 * (wordsFor bits.length + 1) := by
  rw [encoding, length_flatMap_bigEndian, length_wordsOf]

/-- The written form begins with the length and any number of the words. -/
theorem wordsOf_prefix_encoding {count : Nat} (hcount : count ≤ wordsFor bits.length) :
    (wordsOf bits count).flatMap Word.bigEndian <+: encoding bits := by
  have hwords : wordsOf bits count <+: wordsOf bits (wordsFor bits.length) := by
    refine List.cons_prefix_cons.mpr ⟨rfl, ?_⟩
    rw [← Nat.add_sub_cancel' hcount, List.range_add, List.map_append]
    exact List.prefix_append _ _
  exact hwords.flatMap Word.bigEndian

/-- A writer puts the words of the written form one after the other, as long as each is
taken; `given` says what a sink is that was given the bytes so far. -/
theorem yields_write {s : Source} (h : s.Reads bits) (hlength : bits.length ≤ maxLength)
    (given : List Byte → Sink → Prop) {sink : Sink} {failed : Failure → Sink → Prop}
    (hnone : given [] sink)
    (hput : ∀ before w sink, before ++ Word.bigEndian w <+: encoding bits → given before sink →
      (Sink.put (Word.bigEndian w)).Yields sink (fun _ => given (before ++ Word.bigEndian w))
        failed) :
    (write s).Yields sink (fun _ => given (encoding bits)) failed := by
  have hcheck : require (s.length ≤ maxLength) (.invalidFormat (.lengthTooLarge s.length)) =
      .ok () := require_eq_ok_iff.mpr (h.length_eq ▸ hlength)
  have hheader : (wordsOf bits 0).flatMap Word.bigEndian =
      [] ++ Word.bigEndian (BitVec.ofNat 64 s.length) := by
    rw [h.length_eq]
    exact List.flatMap_singleton _ _
  have hfirst := wordsOf_prefix_encoding (Nat.zero_le (wordsFor bits.length))
  rw [hheader] at hfirst
  refine Edit.yields_liftM_bind_ok hcheck ((hput [] _ sink hfirst hnone).bind fun _ sink hsink => ?_)
  rw [← hheader] at hsink
  rw [h.length_eq]
  -- As many words are written as the bits before the next window take.
  apply Edit.yields_visitWindows (fun m (sink : Sink) =>
    given ((wordsOf bits (wordsFor m)).flatMap Word.bigEndian) sink) (Nat.zero_le _) hsink
  intro k hk sink hsink
  rw [Nat.zero_add] at hk hsink
  rw [Nat.zero_add, Nat.zero_add]
  obtain ⟨w, hread, hw⟩ := h.window_eq (64 * k) (min (64 * (k + 1)) bits.length) (by omega)
    (by omega) (by omega)
  have hneeded := le_wordsFor bits.length
  have hbefore : wordsFor (64 * k) = k := wordsFor_eq_of_le (Nat.le_refl _) (by omega)
  have hafter : wordsFor (min (64 * (k + 1)) bits.length) = k + 1 :=
    wordsFor_eq_of_le (by omega) (by omega)
  have hnext : (wordsOf bits (k + 1)).flatMap Word.bigEndian =
      (wordsOf bits k).flatMap Word.bigEndian ++ Word.bigEndian w := by
    rw [wordsOf_succ, List.flatMap_append, List.flatMap_singleton, eq_packed_of_window hw]
  have hstays := wordsOf_prefix_encoding (show k + 1 ≤ wordsFor bits.length by omega)
  rw [hbefore] at hsink
  rw [hafter, hnext]
  rw [hnext] at hstays
  exact Edit.yields_liftM_bind_ok hread (hput _ w sink hstays hsink)

/-- Whatever its type, a vector is written in the written form of its bits. -/
theorem write_eq {s : Source} (h : s.Reads bits) (hlength : bits.length ≤ maxLength)
    (written : Array Byte) :
    write s ⟨written, none⟩ = .ok () ⟨written ++ encoding bits, none⟩ := by
  have hwrite : (write s).Yields ⟨written, none⟩
      (fun _ sink => sink = ⟨written ++ encoding bits, none⟩) fun _ _ => False := by
    refine yields_write h hlength (fun bytes sink => sink = ⟨written ++ bytes, none⟩) ?_ ?_
    · exact congrArg (Sink.mk · none) (Array.appendList_nil).symm
    · rintro before w _ - rfl
      refine Edit.yields_of_ok rfl (congrArg (Sink.mk · none) ?_)
      apply Array.toList_inj.mp
      simp only [Array.toList_appendList, List.append_assoc]
  obtain ⟨_, _, hrun, rfl⟩ := hwrite.exists_ok
  exact hrun

example : encoding [true, false, true] = [0, 0, 0, 0, 0, 0, 0, 3, 0, 0, 0, 0, 0, 0, 0, 5] := by
  decide +kernel

/-! ## What may be read -/

/-- The length that stands at the head of a stream. -/
def announced (bytes : List Byte) : Int := (wordAt bytes 0).toInt

/-- Bytes begin with the written form of `n` bits: a length that is not below
zero, all the words that it needs, and no one past the last bit. -/
structure Canonical (bytes : List Byte) (n : Nat) : Prop where
  enough : 8 + 8 * wordsFor n ≤ bytes.length
  length_eq : announced bytes = n
  clean : n % 64 ≠ 0 → Word.Narrow (n % 64) (wordAt bytes (n / 64 + 1))

/-- The first `n` bits of the words after the length. -/
def content (bytes : List Byte) (n : Nat) : List Bool :=
  (List.range n).map fun i => (wordAt bytes (i / 64 + 1)).getLsbD (i % 64)

/-- Why bytes do not begin with a written form: they end early, in the length or
in a word, the length is below zero, or the last word has ones past it. -/
inductive Malformed (bytes : List Byte) : Failure → Prop where
  | noLength : bytes.length < 8 → Malformed bytes .inputOutput
  | negative : 8 ≤ bytes.length → announced bytes < 0 →
    Malformed bytes (.invalidFormat (.negativeLength (announced bytes)))
  | cutOff : 8 ≤ bytes.length → 0 ≤ announced bytes →
    bytes.length < 8 + 8 * wordsFor (announced bytes).toNat → Malformed bytes .inputOutput
  | strayOnes : 8 + 8 * wordsFor (announced bytes).toNat ≤ bytes.length → 0 ≤ announced bytes →
    (announced bytes).toNat % 64 ≠ 0 →
    ¬Word.Narrow ((announced bytes).toNat % 64) (wordAt bytes ((announced bytes).toNat / 64 + 1)) →
    Malformed bytes (.invalidFormat (.strayOnes (announced bytes).toNat))

theorem toNat_announced (h : 0 ≤ announced bytes) :
    (announced bytes).toNat = (wordAt bytes 0).toNat := by
  rw [announced, BitVec.toInt_eq_toNat_of_lt (BitVec.toInt_pos_iff.mp h), Int.toNat_natCast]

/-- Bytes are malformed in one way only. -/
theorem Malformed.eq {failure failure' : Failure} (h : Malformed bytes failure)
    (h' : Malformed bytes failure') : failure = failure' := by
  cases h <;> cases h'
  all_goals first
    | rfl
    | omega

/-- Bytes that begin with a written form are not malformed. -/
theorem Malformed.not_canonical {failure : Failure} (h : Malformed bytes failure) :
    ¬Canonical bytes n := by
  rintro ⟨henough, hlength, hclean⟩
  have hn : (announced bytes).toNat = n := by rw [hlength, Int.toNat_natCast]
  cases h with
  | noLength hshort => omega
  | negative _ hnegative => omega
  | cutOff _ _ hshort => exact absurd hshort (Nat.not_lt.mpr (hn ▸ henough))
  | strayOnes _ _ hwidth hstray =>
    rw [hn] at hwidth hstray
    exact hstray (hclean hwidth)

theorem canonical_or_malformed (bytes : List Byte) :
    (∃ n, Canonical bytes n) ∨ ∃ failure, Malformed bytes failure := by
  rcases Nat.lt_or_ge bytes.length 8 with hshort | hheader
  · exact .inr ⟨_, .noLength hshort⟩
  rcases Int.lt_or_le (announced bytes) 0 with hnegative | hlength
  · exact .inr ⟨_, .negative hheader hnegative⟩
  rcases Nat.lt_or_ge bytes.length (8 + 8 * wordsFor (announced bytes).toNat) with hcut | henough
  · exact .inr ⟨_, .cutOff hheader hlength hcut⟩
  by_cases hclean : (announced bytes).toNat % 64 ≠ 0 → Word.Narrow ((announced bytes).toNat % 64)
      (wordAt bytes ((announced bytes).toNat / 64 + 1))
  · exact .inl ⟨_, henough, (Int.toNat_of_nonneg hlength).symm, hclean⟩
  · obtain ⟨hwidth, hstray⟩ := Classical.not_imp.mp hclean
    exact .inr ⟨_, .strayOnes henough hlength hwidth hstray⟩

theorem length_content (bytes : List Byte) (n : Nat) : (content bytes n).length = n := by
  rw [content, List.length_map, List.length_range]

theorem getElem?_content (bytes : List Byte) {n i : Nat} (hi : i < n) :
    (content bytes n)[i]? = some ((wordAt bytes (i / 64 + 1)).getLsbD (i % 64)) := by
  rw [content, List.getElem?_map, List.getElem?_range hi, Option.map_some]

/-! ## One written form for each list of bits -/

theorem Canonical.ofNat_eq (h : Canonical bytes n) : BitVec.ofNat 64 n = wordAt bytes 0 := by
  have hn : (announced bytes).toNat = n := by rw [h.length_eq, Int.toNat_natCast]
  rw [← hn, toNat_announced (h.length_eq ▸ Int.natCast_nonneg n), BitVec.ofNat_toNat,
    BitVec.setWidth_eq]

/-- The words that were read are those of the bits that they hold. -/
theorem Canonical.packed_content (h : Canonical bytes n) (hk : k < wordsFor n) :
    packed (content bytes n) k = wordAt bytes (k + 1) := by
  apply BitVec.eq_of_getLsbD_eq
  intro j hj
  rw [getLsbD_packed, decide_eq_true hj, Bool.true_and]
  by_cases hin : 64 * k + j < n
  · rw [getElem?_content bytes hin, Option.getD_some, show (64 * k + j) / 64 = k by omega,
      show (64 * k + j) % 64 = j by omega]
  · have hneeded := wordsFor_le n
    have hlast : k = n / 64 := by omega
    rw [List.getElem?_eq_none (by rw [length_content]; omega), Option.getD_none, hlast,
      h.clean (by omega) j (by omega)]

/-- What begins with a written form begins with that of its content. -/
theorem Canonical.encoding_content (h : Canonical bytes n) :
    encoding (content bytes n) = bytes.take (8 + 8 * wordsFor n) := by
  have henough := h.enough
  have hwords : wordsOf (content bytes n) (wordsFor n) =
      (List.range (wordsFor n + 1)).map (wordAt bytes) := by
    rw [wordsOf, length_content, h.ofNat_eq, List.range_succ_eq_map, List.map_cons, List.map_map]
    congr 1
    apply List.map_congr_left
    intro k hk
    exact h.packed_content (List.mem_range.mp hk)
  rw [encoding, length_content, hwords, flatMap_wordAt (by omega),
    show 8 * (wordsFor n + 1) = 8 + 8 * wordsFor n by omega]

theorem wordAt_encoding_zero (bits : List Bool) (rest : List Byte) :
    wordAt (encoding bits ++ rest) 0 = BitVec.ofNat 64 bits.length :=
  wordAt_flatMap rfl rest

theorem wordAt_encoding_succ (hk : k < wordsFor bits.length) (rest : List Byte) :
    wordAt (encoding bits ++ rest) (k + 1) = packed bits k := by
  apply wordAt_flatMap
  rw [wordsOf, List.getElem?_cons_succ, List.getElem?_map, List.getElem?_range hk]
  rfl

/-- A written form is one, whatever follows it. -/
theorem canonical_encoding (hlength : bits.length ≤ maxLength) (rest : List Byte) :
    Canonical (encoding bits ++ rest) bits.length where
  enough := by
    rw [List.length_append, length_encoding]
    omega
  length_eq := by
    have hmax : maxLength = 2 ^ 63 - 1 := rfl
    have hnat : (BitVec.ofNat 64 bits.length).toNat = bits.length :=
      Nat.mod_eq_of_lt (by omega)
    rw [announced, wordAt_encoding_zero, BitVec.toInt_eq_toNat_of_lt (by omega), hnat]
  clean := by
    intro hwidth j hj
    have hneeded := le_wordsFor bits.length
    rw [wordAt_encoding_succ (by omega), getLsbD_packed, List.getElem?_eq_none (by omega),
      Option.getD_none, Bool.and_false]

/-- The content of a written form is the bits that it is of. -/
theorem content_encoding (bits : List Bool) (rest : List Byte) :
    content (encoding bits ++ rest) bits.length = bits := by
  apply List.ext_getElem?
  intro i
  rcases Nat.lt_or_ge i bits.length with hi | hi
  · have hword : i / 64 < wordsFor bits.length := wordOf_lt_wordsFor hi
    rw [getElem?_content _ hi, wordAt_encoding_succ hword, getLsbD_packed, Nat.div_add_mod,
      List.getElem?_eq_getElem hi, decide_eq_true (Nat.mod_lt i (by decide))]
    rfl
  · rw [List.getElem?_eq_none hi, List.getElem?_eq_none (by rwa [length_content])]

end Stream

end PackedBits
