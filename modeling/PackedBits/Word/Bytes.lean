import PackedBits.Word

/-!
# Words as bytes

A word is eight bytes, in one of two orders: the lowest first or the highest
first. Either way the bytes say all of the word, so it is read back from them.
-/

namespace PackedBits

namespace Word

/-- The eight bytes of a word, the lowest first. -/
def littleEndian (w : Word) : List Byte :=
  (List.range 8).map fun k => w.extractLsb' (8 * k) 8

/-- The eight bytes of a word, the highest first. -/
def bigEndian (w : Word) : List Byte := (littleEndian w).reverse

/-- The word of bytes, the highest first. -/
def ofBigEndian (bytes : List Byte) : Word :=
  bytes.foldl (fun w byte => (w <<< 8) ||| byte.setWidth 64) 0#64

/-- The word of bytes, the lowest first. -/
def ofLittleEndian (bytes : List Byte) : Word := ofBigEndian bytes.reverse

/-- The eight bytes at the head of a list and the rest of it, if there are as
many. -/
def takeBytes (bytes : List Byte) : Option (List Byte × List Byte) :=
  let (head, rest) := bytes.splitAt 8
  if head.length = 8 then some (head, rest) else none

/-! ## Reading back -/

@[simp] theorem length_littleEndian (w : Word) : (littleEndian w).length = 8 := by
  simp [littleEndian]

@[simp] theorem length_bigEndian (w : Word) : (bigEndian w).length = 8 := by
  simp [bigEndian]

/-- The bits of a word that takes one more byte at its low end. -/
theorem getLsbD_takeByte (w : Word) (byte : Byte) (i : Nat) :
    ((w <<< 8) ||| byte.setWidth 64).getLsbD i =
      (decide (i < 64) && if i < 8 then byte.getLsbD i else w.getLsbD (i - 8)) := by
  simp only [BitVec.getLsbD_or, BitVec.getLsbD_shiftLeft, BitVec.getLsbD_setWidth]
  by_cases hi : i < 8
  · simp [hi, show i < 64 by omega]
  · have hbyte : byte.getLsbD i = false := BitVec.getLsbD_of_ge byte i (by omega)
    simp [hi, hbyte]

/-- The bits of the word of bytes, the lowest first. -/
theorem getLsbD_ofLittleEndian (bytes : List Byte) (i : Nat) :
    (ofLittleEndian bytes).getLsbD i =
      (decide (i < 64) && ((bytes[i / 8]?).getD 0).getLsbD (i % 8)) := by
  unfold ofLittleEndian ofBigEndian
  rw [List.foldl_reverse]
  induction bytes generalizing i with
  | nil => simp
  | cons byte rest ih =>
    rw [List.foldr_cons, getLsbD_takeByte, ih]
    by_cases hword : i < 64
    · by_cases hi : i < 8
      · rw [Nat.div_eq_of_lt hi, Nat.mod_eq_of_lt hi]
        simp [hi, hword]
      · obtain ⟨k, rfl⟩ : ∃ k, i = k + 8 := ⟨i - 8, by omega⟩
        rw [Nat.add_div_right k (by decide), Nat.add_mod_right, Nat.add_sub_cancel]
        simp [hi, hword, show k < 64 by omega]
    · simp [hword]

/-- A word is read back from its bytes, the lowest first. -/
theorem ofLittleEndian_littleEndian (w : Word) : ofLittleEndian (littleEndian w) = w := by
  apply BitVec.eq_of_getLsbD_eq
  intro i hi
  rw [getLsbD_ofLittleEndian]
  have hbyte : (littleEndian w)[i / 8]? = some (w.extractLsb' (8 * (i / 8)) 8) := by
    rw [littleEndian, List.getElem?_map, List.getElem?_range (by omega)]
    rfl
  rw [hbyte, Option.getD_some, BitVec.getLsbD_extractLsb', Nat.div_add_mod]
  simp [hi, Nat.mod_lt i (show 0 < 8 by decide)]

/-- A word is read back from its bytes, the highest first. -/
theorem ofBigEndian_bigEndian (w : Word) : ofBigEndian (bigEndian w) = w := by
  have h := ofLittleEndian_littleEndian w
  rwa [ofLittleEndian] at h

/-- Eight bytes, the lowest first, are those of the word read from them. -/
theorem littleEndian_ofLittleEndian {bytes : List Byte} (h : bytes.length = 8) :
    littleEndian (ofLittleEndian bytes) = bytes := by
  apply List.ext_getElem
  · rw [length_littleEndian, h]
  · intro k hk hlt
    rw [length_littleEndian] at hk
    simp only [littleEndian, List.getElem_map, List.getElem_range]
    apply BitVec.eq_of_getLsbD_eq
    intro j hj
    rw [BitVec.getLsbD_extractLsb', getLsbD_ofLittleEndian,
      show (8 * k + j) / 8 = k by omega, show (8 * k + j) % 8 = j by omega,
      List.getElem?_eq_getElem hlt]
    simp [hj, show 8 * k + j < 64 by omega]

/-- Eight bytes, the highest first, are those of the word read from them. -/
theorem bigEndian_ofBigEndian {bytes : List Byte} (h : bytes.length = 8) :
    bigEndian (ofBigEndian bytes) = bytes := by
  have hreverse := littleEndian_ofLittleEndian (bytes.length_reverse.trans h)
  rw [ofLittleEndian, List.reverse_reverse] at hreverse
  rw [bigEndian, hreverse, List.reverse_reverse]

/-- Eight bytes in front of a list are the ones taken from it. -/
theorem takeBytes_append {head : List Byte} (h : head.length = 8) (rest : List Byte) :
    takeBytes (head ++ rest) = some (head, rest) := by
  rw [takeBytes, List.splitAt_eq, List.take_left' h, List.drop_left' h]
  exact if_pos h

/-- The bytes taken are eight, and stand at the head of the list. -/
theorem takeBytes_eq_some {bytes head rest : List Byte} (h : takeBytes bytes = some (head, rest)) :
    head.length = 8 ∧ bytes = head ++ rest := by
  rw [takeBytes, List.splitAt_eq] at h
  obtain ⟨hlength, hsplit⟩ := Option.ite_none_right_eq_some.mp h
  cases hsplit
  exact ⟨hlength, (List.take_append_drop 8 bytes).symm⟩

/-- A list with less than eight bytes has no eight bytes at its head. -/
theorem takeBytes_eq_none {bytes : List Byte} (h : bytes.length < 8) :
    takeBytes bytes = none := by
  rw [takeBytes, List.splitAt_eq]
  refine if_neg ?_
  rw [List.length_take]
  omega

end Word

end PackedBits
