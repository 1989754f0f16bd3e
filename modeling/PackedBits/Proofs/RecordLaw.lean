import PackedBits.Proofs.AdoptionLaw

/-!
# Vectors as records and back

A record becomes a vector exactly when it is `Exact`: it has the words that its length
needs and no one past the length. Then the record is that of the vector again, and the
record of a vector that can be made is always exact, so it becomes a vector with the same
bits in any store. In bytes a record is read back from in front of whatever follows, and
bytes that are read as a record begin with the bytes of that record.
-/

namespace PackedBits

namespace Record

variable {r : Record} {bytes rest : List Byte}

/-! ## Records and vectors -/

/-- A record with exactly the words that its length needs and no one at or past the length. -/
structure Exact (r : Record) : Prop where
  count : r.words.size = wordsFor r.length
  clean (k : Nat) (w : Word) : r.words[k]? = some w → ∀ place, r.length ≤ 64 * k + place →
    w.getLsbD place = false

theorem exact_iff :
    r.Exact ↔ r.words.size = wordsFor r.length ∧ Admits r.words.toList r.length := by
  constructor
  · intro h
    refine ⟨h.count, Nat.le_of_eq h.count.symm, fun k w hw => h.clean k w ?_⟩
    rwa [Array.getElem?_toList] at hw
  · intro h
    obtain ⟨hcount, hadmits⟩ := h
    refine ⟨hcount, fun k w hw => hadmits.clean k w ?_⟩
    rwa [Array.getElem?_toList]

/-- The bits of a record. -/
def bits (r : Record) : List Bool := (List.range r.length).map (bitAt r.words.toList)

section

variable {S : Type} [WordStore S] [LawfulStore S] {v : WordVec S}

theorem exists_toVector_iff : (∃ v : WordVec S, r.toVector = .ok v) ↔ r.Exact := by
  simp only [toVector_eq_ok_iff, exists_and_left, exact_iff]
  exact and_congr_right fun _ => (WordVec.adopts_ofWords r.words r.length).exists_ok_iff

/-- A vector that comes of a record has the bits of the record, and the record is its own. -/
theorem of_toVector (h : r.toVector = .ok v) : v.Holds r.bits ∧ ofVector v = .ok r := by
  obtain ⟨hcount, hv⟩ := toVector_eq_ok_iff.mp h
  obtain ⟨hadmits, hover⟩ := (WordVec.adopts_ofWords r.words r.length).of_ok hv
  have hwords := (hover.keepsWords hadmits).words_eq
  rw [← hcount, ← Array.length_toList, List.take_length] at hwords
  refine ⟨hover.holds hadmits, ?_⟩
  rw [ofVector, bind_of_ok hwords, hover.length_eq]
  rfl

end

/-- The record of a vector in good order is exact and has its bits. -/
theorem exists_ofVector {S : Type} [WordStore S] [LawfulStore S] {v : WordVec S}
    {content : List Bool} (h : v.Holds content) :
    ∃ r, ofVector v = .ok r ∧ r.Exact ∧ r.bits = content := by
  obtain ⟨hlength, words, hwords, hcount, hbits⟩ := h
  have hread := WordVec.words_eq hwords (by rw [WordVec.wordCount, hlength, hcount])
  refine ⟨⟨content.length, words.toArray⟩, ?_, ⟨hcount, fun k w hw place hpast => ?_⟩, ?_⟩
  · rw [ofVector, bind_of_ok hread, hlength]
    rfl
  · rw [List.getElem?_toArray] at hw
    refine bitAt_clean_iff.mp (fun i hi => ?_) k w hw place hpast
    rw [hbits, List.getElem?_eq_none hi, Option.getD_none]
  · refine List.ext_getElem? fun i => ?_
    rw [bits, List.getElem?_map]
    rcases Nat.lt_or_ge i content.length with hi | hi
    · rw [List.getElem?_range hi, Option.map_some, hbits, List.getElem?_eq_getElem hi,
        Option.getD_some]
    · rw [List.getElem?_eq_none (by rwa [List.length_range]), List.getElem?_eq_none hi,
        Option.map_none]

/-! ## Records and bytes -/

theorem takeWord_eq_ok {taken : Word × List Byte} (h : takeWord bytes = .ok taken) :
    bytes = Word.littleEndian taken.1 ++ taken.2 := by
  unfold takeWord at h
  rcases htake : Word.takeBytes bytes with _ | ⟨head, tail⟩
  · rw [htake] at h
    cases h
  · rw [htake] at h
    cases h
    obtain ⟨hlength, hsplit⟩ := Word.takeBytes_eq_some htake
    rw [Word.littleEndian_ofLittleEndian hlength, hsplit]

/-- Takes one more word from the bytes that are left. -/
def takeNext (taken : Array Word × List Byte) (_ : Nat) :
    Except RecordFailure (Array Word × List Byte) := do
  let head ← takeWord taken.2
  return (taken.1.push head.1, head.2)

theorem decode_eq (bytes : List Byte) : decode bytes = do
    let length ← takeWord bytes
    let count ← takeWord length.2
    let taken ← foldUp 0 count.1.toNat (#[], count.2) takeNext
    return ⟨length.1.toNat, taken.1⟩ := rfl

/-- Taken words stood in front of what is left. -/
theorem foldUp_takeNext_eq_ok {start count : Nat} {before after : Array Word × List Byte}
    (h : foldUp start count before takeNext = .ok after) :
    ∃ words : List Word, words.length = count ∧ after.1 = before.1 ++ words ∧
      before.2 = words.flatMap Word.littleEndian ++ after.2 := by
  induction count generalizing start before with
  | zero =>
    cases h
    exact ⟨[], rfl, by simp, rfl⟩
  | succ count ih =>
    rw [foldUp] at h
    obtain ⟨_, hnext, h⟩ := bind_eq_ok h
    obtain ⟨head, htake, hnext⟩ := bind_eq_ok hnext
    cases hnext
    obtain ⟨words, hcount, hafter, hleft⟩ := ih h
    refine ⟨head.1 :: words, by rw [List.length_cons, hcount], ?_, ?_⟩
    · rw [hafter]
      simp
    · rw [takeWord_eq_ok htake, hleft, List.flatMap_cons, List.append_assoc]

/-- Words in front of bytes are taken from them. -/
theorem foldUp_takeNext (start : Nat) (before : Array Word) (words : List Word)
    (rest : List Byte) :
    foldUp start words.length (before, words.flatMap Word.littleEndian ++ rest) takeNext =
      .ok (before ++ words, rest) := by
  induction words generalizing start before with
  | nil => rfl
  | cons w words ih =>
    have hnext : takeNext (before, (w :: words).flatMap Word.littleEndian ++ rest) start =
        .ok (before.push w, words.flatMap Word.littleEndian ++ rest) := by
      rw [takeNext, List.flatMap_cons, List.append_assoc, bind_of_ok (takeWord_littleEndian w _)]
      rfl
    rw [List.length_cons, foldUp, bind_of_ok hnext, ih]
    simp

/-- The length of a record and the number of its words can be written in eight bytes. -/
def Writable (r : Record) : Prop := r.length ≤ maxPosition ∧ r.words.size ≤ maxPosition

/-- Bytes are read as the record whose bytes they begin with. -/
theorem decode_eq_ok_iff :
    decode bytes = .ok r ↔ r.Writable ∧ ∃ rest, bytes = r.encode ++ rest := by
  rw [decode_eq]
  constructor
  · intro h
    obtain ⟨length, hlength, h⟩ := bind_eq_ok h
    obtain ⟨count, hcount, h⟩ := bind_eq_ok h
    obtain ⟨taken, htaken, h⟩ := bind_eq_ok h
    cases h
    obtain ⟨words, hsize, hwords, hleft⟩ := foldUp_takeNext_eq_ok htaken
    have hsize : taken.1.size = count.1.toNat := by
      rw [hwords]
      simpa using hsize
    refine ⟨⟨Nat.le_of_lt_succ length.1.isLt, ?_⟩, taken.2, ?_⟩
    · rw [hsize]
      exact Nat.le_of_lt_succ count.1.isLt
    · simp only [encode, hsize, BitVec.ofNat_toNat, BitVec.setWidth_eq, List.append_assoc]
      rw [takeWord_eq_ok hlength, takeWord_eq_ok hcount, hleft, hwords]
      simp
  · intro h
    obtain ⟨⟨hlength, hcount⟩, rest, rfl⟩ := h
    have hfits : ∀ {n : Nat}, n ≤ maxPosition → (BitVec.ofNat 64 n).toNat = n := fun hn => by
      rw [BitVec.toNat_ofNat, Nat.mod_eq_of_lt (show _ < 2 ^ 64 from Nat.lt_succ_of_le hn)]
    rw [encode, List.append_assoc, List.append_assoc, bind_of_ok (takeWord_littleEndian _ _),
      bind_of_ok (takeWord_littleEndian _ _), hfits hcount, ← Array.length_toList,
      bind_of_ok (foldUp_takeNext 0 #[] r.words.toList rest), hfits hlength]
    simp [pure, Except.pure]

theorem length_encode (r : Record) : r.encode.length = 8 * (2 + r.words.size) := by
  simp only [encode, List.length_append, List.length_flatMap, Word.length_littleEndian,
    List.map_const', List.sum_replicate_nat, Array.length_toList]
  omega

theorem Exact.writable (h : r.Exact) (hlength : r.length ≤ maxPosition) : r.Writable := by
  refine ⟨hlength, ?_⟩
  have hneeded := wordsFor_le r.length
  rw [h.count]
  omega

end Record

/-- A record becomes a vector exactly when it has the words that its length needs and no one
past the length, and it is then the record of that vector. The record of a vector that can be
made becomes a vector with the same bits and the same record, whatever the two are stored in,
also by way of bytes. Bytes that are a record and nothing else, and become a vector, are the
bytes of the record of that vector. -/
theorem StoreKind.record_read_back (kind kind' : StoreKind) :
    (∀ r : Record, (∃ v : WordVec kind.Store, r.toVector = .ok v) ↔ r.Exact) ∧
      (∀ (r : Record) (v : WordVec kind.Store), r.toVector = .ok v →
        Record.ofVector v = .ok r) ∧
      (∀ v : WordVec kind.Store, kind.Reached v →
        ∃ (r : Record) (w : WordVec kind'.Store), Record.ofVector v = .ok r ∧
          r.toVector = .ok w ∧ Bits.toArray w = Bits.toArray v ∧ Record.ofVector w = .ok r ∧
          (v.length ≤ maxPosition → ∀ rest, Record.decode (r.encode ++ rest) = .ok r)) ∧
      ∀ (bytes : List Byte) (r : Record) (v : WordVec kind.Store), Record.decode bytes = .ok r →
        bytes.length = 8 * (2 + r.words.size) → r.toVector = .ok v →
          ∃ r', Record.ofVector v = .ok r' ∧ r'.encode = bytes := by
  refine ⟨fun r => Record.exists_toVector_iff, fun r v hv => (Record.of_toVector hv).2,
    fun v hv => ?_, fun bytes r v hdecode hlength hv => ?_⟩
  · obtain ⟨content, hcontent⟩ := hv.exists_bits
    obtain ⟨r, hr, hexact, hbits⟩ := Record.exists_ofVector hcontent
    obtain ⟨w, hw⟩ := (Record.exists_toVector_iff (S := kind'.Store)).mpr hexact
    obtain ⟨hholds, hback⟩ := Record.of_toVector hw
    rw [hbits] at hholds
    refine ⟨r, w, hr, hw, ?_, hback, fun hshort rest => ?_⟩
    · rw [hholds.reads.toArray_eq, hcontent.reads.toArray_eq]
    · refine Record.decode_eq_ok_iff.mpr ⟨hexact.writable ?_, rest, rfl⟩
      rwa [← show r.bits.length = r.length by simp [Record.bits], hbits, ← hcontent.length_eq]
  · obtain ⟨-, rest, rfl⟩ := Record.decode_eq_ok_iff.mp hdecode
    rw [List.length_append, Record.length_encode] at hlength
    obtain rfl : rest = [] := List.eq_nil_of_length_eq_zero (by omega)
    exact ⟨r, (Record.of_toVector hv).2, (List.append_nil _).symm⟩

/-- Seventy ones in segments of one word are the record of two words that they are in one
piece, also by way of bytes. -/
theorem StoreKind.record_read_back_from_segments :
    let filled : Script := .andThen (.change .unlimited (.setLength 70) trivial) <|
      .change .unlimited .flipAll trivial
    let v : WordVec (segmented 0).Store := filled.run.after WordVec.empty
    let r : Record := ⟨70, #[BitVec.allOnes 64, 0x3F#64]⟩
    (segmented 0).Reached v ∧ Record.ofVector v = .ok r ∧
      (∃ w : WordVec flat.Store, r.toVector = .ok w ∧ Bits.toArray w = Bits.toArray v ∧
        Record.ofVector w = .ok r) ∧
      Record.decode r.encode = .ok r ∧
      ∃ (u : WordVec (segmented 0).Store) (r' : Record), r.toVector = .ok u ∧
        Record.ofVector u = .ok r' ∧ r'.encode = r.encode := by
  intro filled v r
  have hv : (segmented 0).Reached v := .script filled .empty
  have hrecord : Record.ofVector v = .ok r := by decide +kernel
  have hlength : v.length ≤ maxPosition := by decide +kernel
  obtain ⟨hgiven, -, hreached, hbytes⟩ := record_read_back (segmented 0) flat
  obtain ⟨r', w, hr', hw, hsame, hback, hdecode⟩ := hreached v hv
  obtain rfl : r = r' := Except.ok.inj (hrecord.symm.trans hr')
  have hread : Record.decode r.encode = .ok r := by
    simpa only [List.append_nil] using hdecode hlength []
  have hexact : r.Exact := ((record_read_back flat flat).1 r).mp ⟨w, hw⟩
  obtain ⟨u, hu⟩ := (hgiven r).mpr hexact
  obtain ⟨r', hr', hencode⟩ := hbytes r.encode r u hread (by decide +kernel) hu
  exact ⟨hv, hrecord, ⟨w, hw, hsame, hback⟩, hread, u, r', hu, hr', hencode⟩

end PackedBits
