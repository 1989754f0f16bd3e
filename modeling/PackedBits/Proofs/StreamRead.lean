import PackedBits.Proofs.Encoding
import PackedBits.Proofs.Readable

/-!
# What is read from a stream

A reader follows the words of a stream: after each word it has the bits that far
and the bytes from there on. It comes to the end exactly when the stream begins
with a written form, with the content of that form and the bytes after it; else
it fails as `Malformed` says and leaves no bits. `StoreKind.readInto_iff` is that
statement. As a vector of any type is written in the written form of its bits,
what is written is read back, one vector after the other: `Stream.readsBack`.
-/

namespace PackedBits

namespace Stream

variable {S : Type} [WordStore S] [LawfulStore S] {v : WordVec S} {memory : Allocator}
  {bytes : List Byte} {n k width : Nat}

/-! ## Word by word -/

/-- A reader stops where memory is refused or where the stream is malformed, with
some bits read. -/
def Stopped (bytes : List Byte) (failure : Failure) (w : WordVec S) : Prop :=
  (failure.isRefusal = true ∨ Malformed bytes failure) ∧ w.Sound

theorem stopped_of_refusal {failure : Failure} {w : WordVec S}
    (h : failure.isRefusal = true ∧ w.Sound) : Stopped bytes failure w :=
  ⟨.inl h.1, h.2⟩

/-- After `k` words a reader has their bits, and the bytes that come after them. -/
structure ReadTo (bytes : List Byte) (k : Nat) (rest : List Byte) (w : WordVec S) : Prop where
  enough : 8 * (k + 1) ≤ bytes.length
  rest_eq : rest = bytes.drop (8 * (k + 1))
  holds : w.Holds (content bytes (64 * k))

/-- At the end a reader has the bits of a written form, and the bytes after it. -/
structure ReadAll (bytes : List Byte) (n : Nat) (rest : List Byte) (w : WordVec S) : Prop where
  canonical : Canonical bytes n
  rest_eq : rest = bytes.drop (8 + 8 * wordsFor n)
  holds : w.Holds (content bytes n)

/-- The next word is read, or the stream ends before it does. -/
theorem yields_readWord {V α : Type} {v : V} {next : Word × List Byte → Edit V α}
    {goal : α → V → Prop} {failed : Failure → V → Prop}
    (hok : 8 * (k + 1) ≤ bytes.length →
      (next (wordAt bytes k, bytes.drop (8 * (k + 1)))).Yields v goal failed)
    (hshort : bytes.length < 8 * (k + 1) → failed .inputOutput v) :
    ((liftM (readWord (bytes.drop (8 * k))) : Edit V _) >>= next).Yields v goal failed := by
  rcases Nat.lt_or_ge bytes.length (8 * (k + 1)) with hcut | henough
  · exact Edit.yields_of_error (Edit.bind_error (Edit.liftM_error (readWord_drop_error hcut)))
      (hshort hcut)
  · exact Edit.yields_liftM_bind_ok (readWord_drop henough) (hok henough)

/-- The bits of a word follow those of the words before it. -/
theorem content_append (bytes : List Byte) (k : Nat) (hwidth : width ≤ 64) :
    content bytes (64 * k) ++ (List.range width).map (wordAt bytes (k + 1)).getLsbD =
      content bytes (64 * k + width) := by
  rw [content, content, List.range_add, List.map_append, List.map_map]
  congr 1
  apply List.map_congr_left
  intro j hj
  have hlt := List.mem_range.mp hj
  rw [Function.comp_apply, show (64 * k + j) / 64 = k by omega,
    show (64 * k + j) % 64 = j by omega]

theorem yields_appendWord (h : v.Holds (content bytes (64 * k))) (hwidth : width ≤ 64) :
    (WordVec.appendBits memory (wordAt bytes (k + 1)) width).Yields v
      (fun _ w => w.Holds (content bytes (64 * k + width))) (Stopped bytes) := by
  have hplan : Plan.appendBits (wordAt bytes (k + 1)) width (content bytes (64 * k)) =
      .ok ((), content bytes (64 * k + width)) := by
    rw [Plan.appendBits_of_le _ hwidth, content_append bytes k hwidth]
  exact ((WordVec.follows_appendBits memory _ width).yields h hplan).mono
    (fun _ _ hpost => hpost.2) fun _ _ => stopped_of_refusal

/-- The whole words of a stream are read one after the other. -/
theorem yields_wholeWords {first : List Byte} (h : ReadTo bytes 0 first v) (count : Nat)
    (hcut : bytes.length < 8 * (count + 1) → Malformed bytes .inputOutput) :
    (foldUp 0 count first fun bytes _ => do
      let (w, bytes) ← readWord bytes
      WordVec.appendBits memory w 64
      return bytes : Edit (WordVec S) (List Byte)).Yields v (ReadTo bytes count)
      (Stopped bytes) := by
  refine (Edit.yields_foldUp (ReadTo bytes) h ?_).imp fun _ _ hread => ?_
  · rintro k _ _ hk w ⟨-, rfl, hw⟩
    refine yields_readWord (fun henough => ?_) fun hshort => ?_
    · refine (yields_appendWord hw (Nat.le_refl 64)).bind fun _ x hx => ?_
      exact Edit.yields_pure ⟨henough, rfl, hx⟩
    · exact ⟨.inr (hcut (by omega)), _, hw⟩
  · rwa [Nat.zero_add] at hread

/-- The bits that do not fill a word are read from one more, if there are any. -/
theorem yields_lastWord {rest : List Byte} (h : ReadTo bytes (n / 64) rest v)
    (hlength : announced bytes = n) :
    (do
      let width := bitOf n
      if width = 0 then return rest
      let (w, bytes) ← readWord rest
      require (w &&& ~~~Word.mask width = 0#64) (.invalidFormat (.strayOnes n))
      WordVec.appendBits memory w width
      return bytes : Edit (WordVec S) (List Byte)).Yields v (ReadAll bytes n) (Stopped bytes) := by
  obtain ⟨henough, rfl, hv⟩ := h
  have hn : (announced bytes).toNat = n := by rw [hlength, Int.toNat_natCast]
  have hnonneg : 0 ≤ announced bytes := by omega
  show Edit.Yields (if n % 64 = 0 then _ else _) _ _ _
  by_cases hwidth : n % 64 = 0
  · have hwords : wordsFor n = n / 64 := wordsFor_eq_of_le (by omega) (by omega)
    rw [if_pos hwidth]
    refine Edit.yields_pure ⟨⟨by omega, hlength, fun hsome => absurd hwidth hsome⟩, ?_, ?_⟩
    · rw [hwords, Nat.mul_add, Nat.add_comm]
    · rwa [show 64 * (n / 64) = n by omega] at hv
  · have hwords : wordsFor n = n / 64 + 1 := wordsFor_eq_of_le (by omega) (by omega)
    rw [if_neg hwidth]
    refine yields_readWord (fun hword => ?_) fun hshort => ?_
    · refine Edit.yields_liftM_bind (fun _ hrun => ?_) fun failure hrun => ?_
      · have hclean : Word.Narrow (n % 64) (wordAt bytes (n / 64 + 1)) :=
          Word.and_not_mask_eq_zero_iff.mp (require_eq_ok_iff.mp hrun)
        refine (yields_appendWord hv (Nat.le_of_lt (bitOf_lt n))).bind fun _ w hw => ?_
        refine Edit.yields_pure ⟨⟨by omega, hlength, fun _ => hclean⟩, ?_, ?_⟩
        · rw [hwords, Nat.mul_add, Nat.add_comm]
        · rwa [bitOf, Nat.div_add_mod] at hw
      · obtain ⟨hdirty, rfl⟩ := require_eq_error_iff.mp hrun
        have hstray := fun hclean => hdirty (Word.and_not_mask_eq_zero_iff.mpr hclean)
        subst hn
        exact ⟨.inr (.strayOnes (by omega) hnonneg hwidth hstray), _, hv⟩
    · subst hn
      exact ⟨.inr (.cutOff (by omega) hnonneg (by omega)), _, hv⟩

/-- A reader that comes to the end has read a written form. -/
theorem yields_readWords (h : v.Holds []) : (readWords memory bytes).Yields v
    (fun rest w => ∃ n, ReadAll bytes n rest w) (Stopped bytes) := by
  have hsound : v.Sound := ⟨[], h⟩
  refine yields_readWord (k := 0) (fun hheader => ?_) fun hshort =>
    ⟨.inr (.noLength hshort), hsound⟩
  refine Edit.yields_liftM_bind (fun _ hrun => ?_) fun failure hrun => ?_
  · have hlength : 0 ≤ announced bytes := require_eq_ok_iff.mp hrun
    have hneeded := le_wordsFor (announced bytes).toNat
    refine Edit.Yields.bind ((h.reserve memory _).mono (fun _ _ hw => hw)
      fun _ _ => stopped_of_refusal) fun _ w hw => ?_
    dsimp only
    rw [← toNat_announced hlength]
    -- A stream that ends in the whole words ends before the words that it needs.
    refine (yields_wholeWords ⟨hheader, rfl, hw⟩ _ fun hshort => ?_).bind fun rest x hx => ?_
    · exact .cutOff hheader hlength (by omega)
    · refine (yields_lastWord hx (Int.toNat_of_nonneg hlength).symm).imp ?_
      exact fun rest y hy => ⟨_, hy⟩
  · obtain ⟨hnegative, rfl⟩ := require_eq_error_iff.mp hrun
    exact ⟨.inr (.negative hheader (Int.not_le.mp hnegative)), hsound⟩

/-- Whatever the vector held, it ends with what was read, or with no bits if that was no
written form. -/
theorem yields_readInto (h : v.Sound) (memory : Allocator) (bytes : List Byte) :
    (readInto memory bytes).Yields v (fun rest w => ∃ n, ReadAll bytes n rest w)
      fun failure w => failure.isRefusal = true ∨ Malformed bytes failure ∧ w.Holds [] := by
  have hempty : ∀ bits : List Bool, resized 0 false bits = [] := fun bits =>
    resized_length_append [] bits false
  obtain ⟨bits, hv⟩ := h
  refine (hv.shorten 0).bind fun _ w hw => ?_
  rw [hempty] at hw
  -- What was read before the failure is taken off again.
  refine (yields_readWords hw).onFailure ?_
  rintro failure x ⟨hfailure, held, hx⟩
  unfold discardWords
  split
  · exact .inl rfl
  · refine (hx.shorten 0).imp fun _ y hy => ?_
    rw [hempty] at hy
    exact hfailure.imp_right fun hmalformed => ⟨hmalformed, hy⟩

theorem Canonical.eq {m : Nat} (h : Canonical bytes n) (h' : Canonical bytes m) : n = m :=
  Int.natCast_inj.mp (h.length_eq.symm.trans h'.length_eq)

/-- A written form at the head of a stream is read, and nothing after it. -/
theorem Canonical.readInto_eq (h : Canonical bytes n) (hv : v.Sound)
    (hgranted : ¬(readInto memory bytes).Refused v) :
    ∃ w, readInto memory bytes v = .ok (bytes.drop (8 + 8 * wordsFor n)) w ∧
      w.Holds (content bytes n) := by
  have hread := yields_readInto hv memory bytes
  rcases hrun : readInto memory bytes v with ⟨rest, w⟩ | ⟨failure, w⟩
  · obtain ⟨m, hm, rfl, hw⟩ := hread.of_ok hrun
    cases h.eq hm
    exact ⟨w, rfl, hw⟩
  · obtain hrefused | ⟨hmalformed, -⟩ := hread.of_error hrun
    · exact absurd ⟨failure, w, hrun, hrefused⟩ hgranted
    · exact absurd h hmalformed.not_canonical

/-- A stream that does not begin with a written form leaves no bits. -/
theorem Malformed.readInto_eq {failure : Failure} (h : Malformed bytes failure) (hv : v.Sound)
    (hgranted : ¬(readInto memory bytes).Refused v) :
    ∃ w, readInto memory bytes v = .error failure w ∧ w.Holds [] := by
  have hread := yields_readInto hv memory bytes
  rcases hrun : readInto memory bytes v with ⟨rest, w⟩ | ⟨other, w⟩
  · obtain ⟨n, hn⟩ := hread.of_ok hrun
    exact absurd hn.canonical h.not_canonical
  · obtain hrefused | ⟨hmalformed, hw⟩ := hread.of_error hrun
    · exact absurd ⟨other, w, hrun, hrefused⟩ hgranted
    · obtain rfl := h.eq hmalformed
      exact ⟨w, rfl, hw⟩

theorem empty_append (bytes : List Byte) : (#[] : Array Byte) ++ bytes = bytes.toArray := by
  apply Array.toList_inj.mp
  rw [Array.toList_appendList]
  rfl

/-- A vector of any type is written at the head of an empty sink in the written
form of its bits. -/
theorem write_fresh {s : Source} {bits : List Bool} (h : s.Reads bits)
    (hlength : bits.length ≤ maxLength) :
    write s (Sink.fresh none) = .ok () ⟨(encoding bits).toArray, none⟩ := by
  rw [← empty_append]
  exact write_eq h hlength #[]

theorem Canonical.le_maxLength (h : Canonical bytes n) : n ≤ maxLength := by
  have hmax : maxLength = 2 ^ 63 - 1 := rfl
  have hbelow : announced bytes < 2 ^ 63 := BitVec.toInt_lt
  have hlength := h.length_eq
  omega

end Stream

/-- A reader accepts the written forms and nothing else. From a stream that begins
with one it takes that and no more, and the vector has its length and its bits,
which are written as the bytes that were taken; else the reader fails for the
reason why the stream does not, and the vector has no bits. -/
theorem StoreKind.readInto_iff {kind : StoreKind} {v : WordVec kind.Store} (hv : kind.Reached v)
    {memory : Allocator} {bytes : List Byte}
    (hgranted : ¬(Stream.readInto memory bytes).Refused v) :
    ((∃ rest w, Stream.readInto memory bytes v = .ok rest w) ↔
        ∃ n, Stream.Canonical bytes n) ∧
      (∀ n, Stream.Canonical bytes n → ∃ w,
        Stream.readInto memory bytes v = .ok (bytes.drop (8 + 8 * wordsFor n)) w ∧
          Bits.length w = n ∧
          (∀ i, i < n →
            Bits.bit w i = .ok ((Stream.wordAt bytes (i / 64 + 1)).getLsbD (i % 64))) ∧
          Stream.write (Bits.source w) (Sink.fresh none) =
            .ok () ⟨(bytes.take (8 + 8 * wordsFor n)).toArray, none⟩) ∧
      ((¬∃ n, Stream.Canonical bytes n) → ∃ failure, Stream.Malformed bytes failure) ∧
      ∀ failure, Stream.Malformed bytes failure → ∃ w,
        Stream.readInto memory bytes v = .error failure w ∧ Bits.length w = 0 ∧
          Bits.toArray w = .ok #[] := by
  have hsound : v.Sound := hv.exists_bits
  refine ⟨⟨?_, ?_⟩, ?_, ?_, ?_⟩
  · rintro ⟨rest, w, hrun⟩
    obtain ⟨n, hn⟩ := (Stream.yields_readInto hsound memory bytes).of_ok hrun
    exact ⟨n, hn.canonical⟩
  · rintro ⟨n, hn⟩
    obtain ⟨w, hrun, -⟩ := hn.readInto_eq hsound hgranted
    exact ⟨_, w, hrun⟩
  · intro n hn
    obtain ⟨w, hrun, hw⟩ := hn.readInto_eq hsound hgranted
    have hlength := Stream.length_content bytes n
    refine ⟨w, hrun, hw.length_eq.trans hlength, fun i hi => ?_, ?_⟩
    · exact hw.bit_eq (Stream.getElem?_content bytes hi)
    · rw [Stream.write_fresh hw.reads (hlength.symm ▸ hn.le_maxLength), hn.encoding_content]
  · exact (Stream.canonical_or_malformed bytes).resolve_left
  · intro failure hfailure
    obtain ⟨w, hrun, hw⟩ := hfailure.readInto_eq hsound hgranted
    exact ⟨w, hrun, hw.length_eq, hw.reads.toArray_eq⟩

/-- Sixty-six ones, and one byte more, read into a vector in segments that held
seventy of them; the same with a third one in the last word is refused. -/
theorem StoreKind.readInto_iff_over_a_seam :
    let filled : Script := .andThen (.change .unlimited (.setLength 70) trivial)
      (.change .unlimited .flipAll trivial)
    let v : WordVec (StoreKind.segmented 0).Store := filled.run.after WordVec.empty
    let header : List Byte := [0, 0, 0, 0, 0, 0, 0, 66] ++ List.replicate 8 255
    let good : List Byte := header ++ [0, 0, 0, 0, 0, 0, 0, 3, 9]
    let bad : List Byte := header ++ [0, 0, 0, 0, 0, 0, 0, 7]
    (StoreKind.segmented 0).Reached v ∧ ¬(Stream.readInto .unlimited good).Refused v ∧
      ¬(Stream.readInto .unlimited bad).Refused v ∧ Stream.Canonical good 66 ∧
      (∃ w, Stream.readInto .unlimited good v = .ok (good.drop (8 + 8 * wordsFor 66)) w ∧
        Bits.length w = 66 ∧
        (∀ i, i < 66 →
          Bits.bit w i = .ok ((Stream.wordAt good (i / 64 + 1)).getLsbD (i % 64))) ∧
        Stream.write (Bits.source w) (Sink.fresh none) =
          .ok () ⟨(good.take (8 + 8 * wordsFor 66)).toArray, none⟩) ∧
      ∃ w, Stream.readInto .unlimited bad v = .error (.invalidFormat (.strayOnes 66)) w ∧
        Bits.length w = 0 ∧ Bits.toArray w = .ok #[] := by
  intro filled v header good bad
  have hv : (StoreKind.segmented 0).Reached v := .script filled .empty
  have hgood : ¬(Stream.readInto .unlimited good).Refused v := by decide +kernel
  have hbad : ¬(Stream.readInto .unlimited bad).Refused v := by decide +kernel
  have hcanonical : Stream.Canonical good 66 :=
    ⟨by decide, by decide +kernel,
      fun _ => Word.and_not_mask_eq_zero_iff.mp (by decide +kernel)⟩
  have hlength : (Stream.announced bad).toNat = 66 := by decide +kernel
  have hstray : ¬Word.Narrow (66 % 64) (Stream.wordAt bad (66 / 64 + 1)) := fun hclean =>
    absurd (Word.and_not_mask_eq_zero_iff.mpr hclean) (by decide +kernel)
  have hmalformed : Stream.Malformed bad (.invalidFormat (.strayOnes 66)) := by
    rw [← hlength] at hstray ⊢
    exact .strayOnes (by decide +kernel) (by decide +kernel) (by decide +kernel) hstray
  obtain ⟨-, hread, -, -⟩ := readInto_iff hv hgood
  obtain ⟨-, -, -, hfail⟩ := readInto_iff hv hbad
  exact ⟨hv, hgood, hbad, hcanonical, hread 66 hcanonical, hfail _ hmalformed⟩

namespace Stream

/-! ## Vectors one after the other -/

/-- A vector of any type, not too long to be written. -/
structure Entry where
  {V : Type}
  [bits : Bits V]
  vector : V
  readable : Readable vector
  fits : Bits.length vector ≤ maxLength

attribute [instance] Entry.bits

/-- The vector as the writer sees it. -/
def Entry.source (e : Entry) : Source := Bits.source e.vector

/-- The vectors are read one after the other from a stream, each into any vector
of words, whatever it held, by as many bytes as its length and its words take;
`rest` is left in the end. -/
def ReadsBack (rest : List Byte) : List Entry → List Byte → Prop
  | [], bytes => bytes = rest
  | e :: entries, bytes => ∃ taken after : List Byte,
      bytes = taken ++ after ∧ taken.length = 8 + 8 * wordsFor (Bits.length e.vector) ∧
      (∀ (kind : StoreKind) (v : WordVec kind.Store) (memory : Allocator), kind.Reached v →
        ¬(readInto memory bytes).Refused v → ∃ w, readInto memory bytes v = .ok after w ∧
          Bits.length w = Bits.length e.vector ∧ Bits.toArray w = Bits.toArray e.vector) ∧
      ReadsBack rest entries after

theorem Entry.reads (e : Entry) : e.source.Reads e.source.bits := by
  obtain ⟨bits, hreads⟩ := e.readable.exists_reads
  exact hreads.lawful

theorem Entry.length_bits (e : Entry) : e.source.bits.length = Bits.length e.vector :=
  e.reads.length_eq.symm

/-- Vectors are written one after the other, each in its written form. -/
theorem forM_write_eq (entries : List Entry) (written : Array Byte) :
    (entries.forM fun e => write e.source) ⟨written, none⟩ =
      .ok () ⟨written ++ entries.flatMap fun e => encoding e.source.bits, none⟩ := by
  induction entries generalizing written with
  | nil => rfl
  | cons e entries ih =>
    have hfirst := write_eq e.reads (e.length_bits.symm ▸ e.fits) written
    have happend : written ++ encoding e.source.bits ++
        (entries.flatMap fun e => encoding e.source.bits) =
        written ++ (e :: entries).flatMap fun e => encoding e.source.bits := by
      apply Array.toList_inj.mp
      simp only [Array.toList_appendList, List.flatMap_cons, List.append_assoc]
    rw [← happend]
    exact (Edit.bind_ok hfirst).trans (ih _)

/-- A vector that was written is read back, and nothing after it. -/
theorem Entry.readInto_eq (e : Entry) (after : List Byte) {kind : StoreKind}
    {v : WordVec kind.Store} {memory : Allocator} (hv : kind.Reached v)
    (hgranted : ¬(readInto memory (encoding e.source.bits ++ after)).Refused v) :
    ∃ w, readInto memory (encoding e.source.bits ++ after) v = .ok after w ∧
      Bits.length w = Bits.length e.vector ∧ Bits.toArray w = Bits.toArray e.vector := by
  have hcanonical := canonical_encoding (e.length_bits.symm ▸ e.fits) after
  obtain ⟨w, hrun, hw⟩ := hcanonical.readInto_eq hv.exists_bits hgranted
  rw [content_encoding] at hw
  refine ⟨w, ?_, hw.length_eq.trans e.length_bits, ?_⟩
  · rwa [List.drop_left' (by rw [length_encoding]; omega)] at hrun
  · exact hw.reads.toArray_eq.trans e.reads.toArray_eq.symm

theorem readsBack_flatMap (entries : List Entry) (rest : List Byte) :
    ReadsBack rest entries ((entries.flatMap fun e => encoding e.source.bits) ++ rest) := by
  induction entries with
  | nil => rfl
  | cons e entries ih =>
    rw [List.flatMap_cons, List.append_assoc]
    refine ⟨_, _, rfl, ?_, fun kind v memory hv hgranted => e.readInto_eq _ hv hgranted, ih⟩
    rw [length_encoding, e.length_bits, Nat.mul_add, Nat.add_comm]

/-- Vectors of any types that are written one after the other are read back in
the same order, whatever comes after them. -/
theorem readsBack (entries : List Entry) (rest : List Byte) : ∃ bytes : List Byte,
    (entries.forM fun e => write e.source) (Sink.fresh none) = .ok () ⟨bytes.toArray, none⟩ ∧
      ReadsBack rest entries (bytes ++ rest) := by
  have hwrite := forM_write_eq entries #[]
  rw [empty_append] at hwrite
  exact ⟨_, hwrite, readsBack_flatMap entries rest⟩

/-- Seventy ones that are stored nowhere, and sixty-five of them as a part. -/
theorem readsBack_part :
    let ones : Entry := ⟨(⟨70, true⟩ : Uniform), .uniform _, by decide⟩
    let part : Entry := ⟨(⟨⟨70, true⟩, 3, 68⟩ : Part Uniform),
      .part 3 68 (.uniform _) (Part.of_eq_ok (by decide) (by decide)), by decide⟩
    ∃ bytes : List Byte, ([ones, part].forM fun e => write e.source) (Sink.fresh none) =
        .ok () ⟨bytes.toArray, none⟩ ∧
      ReadsBack [7] [ones, part] (bytes ++ [7]) := by
  intro ones part
  exact readsBack [ones, part] [7]

end Stream

end PackedBits
