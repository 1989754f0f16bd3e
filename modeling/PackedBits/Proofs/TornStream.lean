import PackedBits.Proofs.StreamRead

/-!
# A stream that is cut off

A sink that takes `k` bytes and no more has the first `k` of those that it is handed, in the
middle of a word too, and fails on the first that it cannot take. A written form that is cut
off anywhere is malformed: it ends in the length or before the words that the length needs.
So what a failed write has delivered is never read as a vector: `Stream.torn` says what is
delivered, and that the reader fails on it and leaves no bits.
-/

namespace PackedBits

namespace Sink

variable {before bytes : List Byte} {k : Nat}

/-- The sink for `k` bytes that was handed `bytes`. -/
def handed (k : Nat) (bytes : List Byte) : Sink :=
  ⟨(bytes.take k).toArray, some (k - bytes.length)⟩

theorem handed_of_le (h : bytes.length ≤ k) :
    handed k bytes = ⟨bytes.toArray, some (k - bytes.length)⟩ := by
  rw [handed, List.take_of_length_le h]

theorem handed_of_ge (h : k ≤ bytes.length) : handed k bytes = ⟨(bytes.take k).toArray, some 0⟩ := by
  rw [handed, Nat.sub_eq_zero_of_le h]

/-- Bytes that come after the last one taken change nothing. -/
theorem handed_eq_of_prefix (h : before <+: bytes) (hfull : k ≤ before.length) :
    handed k before = handed k bytes := by
  obtain ⟨rest, rfl⟩ := h
  have hmore : k ≤ (before ++ rest).length := by
    rw [List.length_append]
    omega
  rw [handed_of_ge hfull, handed_of_ge hmore, List.take_append_of_le_length hfull]

/-- More bytes are taken as far as there is room, and fail where there is not. -/
theorem put_handed (hroom : before.length ≤ k) (bytes : List Byte) :
    put bytes (handed k before) =
      if (before ++ bytes).length ≤ k then .ok () (handed k (before ++ bytes))
      else .error .inputOutput (handed k (before ++ bytes)) := by
  have happend : ∀ more : List Byte, before.toArray ++ more = (before ++ more).toArray := by
    intro more
    apply Array.toList_inj.mp
    rw [Array.toList_appendList]
  rw [handed_of_le hroom, put, List.length_append, happend, happend]
  by_cases hfits : before.length + bytes.length ≤ k
  · have hall : (before ++ bytes).length ≤ k := by rwa [List.length_append]
    rw [if_pos hfits, if_pos (by omega), handed_of_le hall, List.length_append, Nat.sub_sub]
  · have hmore : k ≤ (before ++ bytes).length := by
      rw [List.length_append]
      omega
    have htake : before.take k = before := List.take_of_length_le hroom
    rw [if_neg hfits, if_neg (by omega), handed_of_ge hmore, List.take_append, htake]

end Sink

namespace Stream

variable {bytes : List Byte} {bits : List Bool} {n k : Nat}

/-! ## What is delivered -/

/-- A writer hands the written form to its sink, and fails where the sink does. -/
theorem write_limited {s : Source} (h : s.Reads bits) (hlength : bits.length ≤ maxLength)
    (k : Nat) :
    write s (Sink.fresh (some k)) =
      if (encoding bits).length ≤ k then .ok () (Sink.handed k (encoding bits))
      else .error .inputOutput (Sink.handed k (encoding bits)) := by
  have hwrite : (write s).Yields (Sink.fresh (some k))
      (fun _ sink => sink = Sink.handed k (encoding bits) ∧ (encoding bits).length ≤ k)
      fun failure sink => failure = .inputOutput ∧ sink = Sink.handed k (encoding bits) ∧
        ¬(encoding bits).length ≤ k := by
    refine yields_write h hlength
      (fun bytes sink => sink = Sink.handed k bytes ∧ bytes.length ≤ k) ?_ ?_
    · exact ⟨congrArg (Sink.mk · _) (congrArg List.toArray List.take_nil).symm, Nat.zero_le k⟩
    · rintro before w _ hprefix ⟨rfl, hroom⟩
      have hput := Sink.put_handed hroom (Word.bigEndian w)
      split at hput
      · exact Edit.yields_of_ok hput ⟨rfl, ‹_›⟩
      · rename_i hcut
        have hwhole := hprefix.length_le
        have hsame := Sink.handed_eq_of_prefix hprefix (Nat.le_of_not_le hcut)
        exact Edit.yields_of_error hput ⟨rfl, hsame, fun hall => hcut (Nat.le_trans hwhole hall)⟩
  rcases hrun : write s (Sink.fresh (some k)) with ⟨_, sink⟩ | ⟨failure, sink⟩
  · obtain ⟨rfl, hall⟩ := hwrite.of_ok hrun
    rw [if_pos hall]
  · obtain ⟨rfl, rfl, hcut⟩ := hwrite.of_error hrun
    rw [if_neg hcut]

/-! ## What is read of it -/

/-- A written form that is cut off ends in its length or in the words that it needs. -/
theorem Canonical.malformed_take (h : Canonical bytes n) (hk : k < 8 + 8 * wordsFor n) :
    Malformed (bytes.take k) .inputOutput := by
  have henough := h.enough
  have hlength : (bytes.take k).length = k := List.length_take_of_le (by omega)
  rcases Nat.lt_or_ge k 8 with hshort | hheader
  · exact .noLength (hlength.symm ▸ hshort)
  · have hsame : announced (bytes.take k) = n := by
      rw [← h.length_eq, announced, announced, wordAt, wordAt, Nat.mul_zero, List.drop_zero,
        List.drop_zero, List.take_take, Nat.min_eq_left hheader]
    refine .cutOff (hlength.symm ▸ hheader) (hsame ▸ Int.natCast_nonneg n) ?_
    rwa [hlength, hsame, Int.toNat_natCast]

/-- A vector of any type is written as one sequence of bytes. A sink for at least so many gets
them all; a sink for fewer gets as many of the first ones as it takes, and the writer fails
with it. What it got is then a vector to no reader: whatever the vector of words that reads it,
the reader fails for want of bytes, unless memory is refused before, and leaves no bits. -/
theorem torn {V : Type} [Bits V] {v : V} (hv : Readable v) (hlength : Bits.length v ≤ maxLength)
    (k : Nat) :
    ∃ bytes : List Byte, bytes.length = 8 + 8 * wordsFor (Bits.length v) ∧
      write (Bits.source v) (Sink.fresh none) = .ok () ⟨bytes.toArray, none⟩ ∧
      (bytes.length ≤ k → write (Bits.source v) (Sink.fresh (some k)) =
        .ok () ⟨bytes.toArray, some (k - bytes.length)⟩) ∧
      (k < bytes.length →
        write (Bits.source v) (Sink.fresh (some k)) =
          .error .inputOutput ⟨(bytes.take k).toArray, some 0⟩ ∧
        ∀ (kind : StoreKind) (u : WordVec kind.Store) (memory : Allocator), kind.Reached u →
          (∀ rest w, readInto memory (bytes.take k) u ≠ .ok rest w) ∧
          (¬(readInto memory (bytes.take k)).Refused u →
            ∃ w, readInto memory (bytes.take k) u = .error .inputOutput w ∧
              Bits.length w = 0 ∧ Bits.toArray w = .ok #[])) := by
  obtain ⟨bits, hreads⟩ := hv.exists_reads
  have hn : Bits.length v = bits.length := hreads.length_eq
  rw [hn] at hlength
  have hsize : (encoding bits).length = 8 + 8 * wordsFor bits.length := by
    rw [length_encoding, Nat.mul_add, Nat.add_comm]
  have hwrite := write_limited hreads hlength k
  refine ⟨encoding bits, hn ▸ hsize, write_fresh hreads hlength, fun hall => ?_, fun hcut => ?_⟩
  · rwa [if_pos hall, Sink.handed_of_le hall] at hwrite
  · rw [if_neg (Nat.not_le.mpr hcut), Sink.handed_of_ge (Nat.le_of_lt hcut)] at hwrite
    refine ⟨hwrite, fun kind u memory hu => ?_⟩
    have hcanonical := canonical_encoding hlength []
    rw [List.append_nil] at hcanonical
    have htorn : Malformed ((encoding bits).take k) .inputOutput :=
      hcanonical.malformed_take (hsize ▸ hcut)
    refine ⟨fun rest w hrun => ?_, fun hgranted => ?_⟩
    · obtain ⟨n, hn⟩ := (yields_readInto hu.exists_bits memory _).of_ok hrun
      exact htorn.not_canonical hn.canonical
    · obtain ⟨w, hrun, hw⟩ := htorn.readInto_eq hu.exists_bits hgranted
      exact ⟨w, hrun, hw.length_eq, hw.reads.toArray_eq⟩

/-- Seventy ones that are stored nowhere, written to a sink for thirteen bytes, and what it got
read into a vector in segments that held seventy ones of its own. -/
theorem torn_inside_word :
    let ones : Uniform := ⟨70, true⟩
    let filled : Script := .andThen (.change .unlimited (.setLength 70) trivial)
      (.change .unlimited .flipAll trivial)
    let u : WordVec (StoreKind.segmented 0).Store := filled.run.after WordVec.empty
    let got : List Byte := [0, 0, 0, 0, 0, 0, 0, 70, 255, 255, 255, 255, 255]
    Readable ones ∧ Bits.length ones ≤ maxLength ∧ (StoreKind.segmented 0).Reached u ∧
      write (Bits.source ones) (Sink.fresh (some 13)) = .error .inputOutput ⟨got.toArray, some 0⟩ ∧
      ¬(readInto .unlimited got).Refused u ∧
      ∃ w, readInto .unlimited got u = .error .inputOutput w ∧ Bits.length w = 0 ∧
        Bits.toArray w = .ok #[] := by
  have hwritten : write (Bits.source (⟨70, true⟩ : Uniform)) (Sink.fresh none) =
      .ok () ⟨([0, 0, 0, 0, 0, 0, 0, 70, 255, 255, 255, 255, 255] ++
        [255, 255, 255, 0, 0, 0, 0, 0, 0, 0, 63] : List Byte).toArray, none⟩ := by rfl
  intro ones filled u got
  have hones : Readable ones := .uniform _
  have hlength : Bits.length ones ≤ maxLength := by decide
  have hu : (StoreKind.segmented 0).Reached u := .script filled .empty
  have hgranted : ¬(readInto .unlimited got).Refused u := by decide +kernel
  obtain ⟨bytes, hsize, hwhole, -, hcut⟩ := torn hones hlength 13
  have hbytes : bytes = got ++ [255, 255, 255, 0, 0, 0, 0, 0, 0, 0, 63] := by
    rw [hwritten] at hwhole
    injection hwhole with _ hsink
    exact (congrArg Array.toList (Sink.mk.inj hsink).1).symm
  obtain ⟨hfailed, hread⟩ := hcut (by rw [hbytes]; decide)
  have hgot : bytes.take 13 = got := by
    rw [hbytes]
    rfl
  rw [hgot] at hfailed hread
  exact ⟨hones, hlength, hu, hfailed, hgranted, (hread _ u .unlimited hu).2 hgranted⟩

end Stream

end PackedBits
