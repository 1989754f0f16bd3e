import PackedBits.Proofs.Adoption
import PackedBits.Proofs.Kept
import PackedBits.Proofs.StoreRoom
import PackedBits.Proofs.WordBuildLaw
import PackedBits.Record

/-!
# What leaves a vector of words sound

A property of vectors is steady when the empty vector has it and the operations
and the few constructors that do not go through them leave it true; then whatever
is made from nothing has it too. A vector of words is sound when it holds some
bits, in the words that they need and with zeros after them. Soundness is steady,
also where memory is refused halfway or an argument cannot be read, and words from
outside are admitted only as a sound vector.
-/

namespace PackedBits

theorem Follows.keeps {V α : Type} {holds : V → List Bool → Prop} {edit : Edit V α}
    {plan : Plan α} (h : Follows holds (fun w => ∃ bits, holds w bits) edit plan) :
    edit.Keeps fun v => ∃ bits, holds v bits := by
  rintro v ⟨bits, hv⟩
  rcases hplan : plan bits with failure | ⟨a, bits'⟩
  · rw [Edit.after_of_error (h.error hv hplan)]
    exact ⟨bits, hv⟩
  · exact ((h.yields hv hplan).mono (fun _ _ hpost => ⟨bits', hpost.2⟩)
      fun _ _ hfailed => hfailed.2).after

theorem Follows.keeps_of_exact {V α : Type} {holds : V → List Bool → Prop} {edit : Edit V α}
    {plan : Plan α} (h : Follows holds (fun _ => False) edit plan) :
    edit.Keeps fun v => ∃ bits, holds v bits :=
  Follows.keeps (h.mono fun _ hfalse => hfalse.elim)

namespace Edit

variable {V α : Type} {inv : V → Prop}

theorem Keeps.build {edit : Edit V Unit} {v w : V} (h : edit.Keeps inv) (hv : inv v)
    (hrun : edit.build v = .ok w) : inv w := by
  have hafter := h v hv
  rwa [after_of_ok (build_eq_ok.mp hrun)] at hafter

end Edit

namespace WordVec

/-! ## Steady properties -/

section

variable {S : Type} [WordStore S] {inv : WordVec S → Prop} {v : WordVec S} {n : Nat}

/-- A property that no edit of a vector takes away. -/
structure Stays (inv : WordVec S → Prop) : Prop where
  kept : Kept inv
  reserve (memory : Allocator) (n : Nat) : (reserve memory n).Keeps inv

/-- A property that the empty vector has and that stays, whatever is done. -/
structure Steady (inv : WordVec S → Prop) : Prop extends Stays inv where
  empty : inv empty
  ones {memory : Allocator} {n : Nat} {v : WordVec S} : ones memory n = .ok v → inv v
  ofBuffer {words : Buffer Word} {n : Nat} {v : WordVec S} :
    words.Fits → ofBuffer words n = .ok v → inv v
  duplicate {v : WordVec S} : inv v → inv v.duplicate
  trim {v : WordVec S} : inv v → inv v.trim

namespace Stays

theorem ensureCapacity (h : Stays inv) (memory : Allocator) (n : Nat) :
    (ensureCapacity memory n).Keeps inv :=
  (h.reserve memory n).reword

theorem shorten_zero (h : Stays inv) : (shorten 0).Keeps inv := by
  intro v hv
  have hcut : setLength .unlimited 0 v = shorten 0 v := by
    rw [setLength, Edit.view_bind, if_neg (Nat.not_lt_zero _)]
  have hset : inv ((setLength .unlimited 0).after v) := h.kept.setLength .unlimited 0 v hv
  rwa [Edit.after_congr hcut] at hset

theorem extendBits (h : Stays inv) (memory : Allocator) (bits : List Bool) :
    (extendBits memory bits).Keeps inv :=
  (Edit.keeps_view _).bind fun _ => (Edit.keeps_liftM _).bind fun _ =>
    (h.ensureCapacity memory _).bind fun _ => Edit.keeps_forM (h.kept.push memory) bits

theorem extendPositions (h : Stays inv) (memory : Allocator) (positions : List Nat) :
    (extendPositions memory positions).Keeps inv := by
  refine Edit.keeps_forM (fun i => (Edit.keeps_view _).bind fun n => ?_) positions
  split
  · exact (Edit.keeps_liftM _).bind fun n => (h.kept.setLength memory n).bind fun _ =>
      (h.kept.set i true).discard
  · exact (h.kept.set i true).discard

/-- The property stays however far the stream reaches. -/
theorem readInto (h : Stays inv) (memory : Allocator) (bytes : List Byte) :
    (Stream.readInto memory bytes).Keeps inv := by
  refine h.shorten_zero.bind fun _ => Edit.Keeps.onFailure ?_ fun failure => by
    unfold Stream.discardWords
    split
    · exact Edit.keeps_pure _
    · exact h.shorten_zero
  refine (Edit.keeps_liftM _).bind fun ⟨field, rest⟩ => (Edit.keeps_liftM _).bind fun _ => ?_
  refine (h.reserve memory _).bind fun _ => ?_
  refine Edit.Keeps.bind (Edit.keeps_foldUp (fun rest _ => ?_) 0 _ rest) fun rest => ?_
  · refine (Edit.keeps_liftM _).bind fun ⟨w, rest⟩ => ?_
    exact (h.kept.appendBits memory w 64).bind fun _ => Edit.keeps_pure rest
  · show Edit.Keeps _ (if bitOf field.toNat = 0 then _ else _)
    split
    · exact Edit.keeps_pure rest
    · refine (Edit.keeps_liftM _).bind fun ⟨w, rest⟩ => (Edit.keeps_liftM _).bind fun _ => ?_
      exact (h.kept.appendBits memory w _).bind fun _ => Edit.keeps_pure rest

end Stays

namespace Steady

theorem of_withCapacity (h : Steady inv) {memory : Allocator}
    (hv : withCapacity memory n = .ok v) : inv v :=
  (h.ensureCapacity memory n).build h.empty hv

theorem of_zeros (h : Steady inv) {memory : Allocator} (hv : zeros memory n = .ok v) : inv v := by
  obtain ⟨u, hu, hv⟩ := bind_eq_ok hv
  exact (h.kept.setLength memory n).build (h.of_withCapacity hu) hv

theorem of_ofBits (h : Steady inv) {memory : Allocator} {bits : List Bool}
    (hv : ofBits memory bits = .ok v) : inv v :=
  (h.extendBits memory bits).build h.empty hv

theorem of_ofPositions (h : Steady inv) {memory : Allocator} {positions : List Nat}
    (hv : ofPositions memory positions = .ok v) : inv v :=
  (h.extendPositions memory positions).build h.empty hv

theorem of_read (h : Steady inv) {memory : Allocator} {bytes : List Byte}
    (hv : Stream.read memory bytes = .ok v) : inv v :=
  (h.readInto memory bytes).discard.build h.empty hv

theorem of_ofWords (h : Steady inv) {words : Array Word} (hv : ofWords words n = .ok v) : inv v :=
  h.ofBuffer (Buffer.fits_ofArray words) ((ofBuffer_ofArray words n).trans hv)

theorem of_toVector (h : Steady inv) {r : Record} (hv : r.toVector = .ok v) : inv v :=
  h.of_ofWords (Record.toVector_eq_ok_iff.mp hv).2

end Steady

end

variable {S : Type} [WordStore S] [LawfulStore S] {v : WordVec S} {n : Nat} {f : Nat → Bool}
  {bits : List Bool}

/-! ## Operations -/

theorem keeps_onStore {α : Type} {edit : Edit S α} (h : ∀ store words,
    LawfulStore.Holds store words → LawfulStore.Holds (edit.after store) words) :
    (onStore edit).Keeps Sound := by
  rintro v ⟨bits, hlength, words, hwords, hcount, hbits⟩
  rw [(editsPiece_onStore edit v).after_eq]
  exact ⟨bits, hlength, words, h v.store words hwords, hcount, hbits⟩

theorem keeps_reserve (memory : Allocator) (m : Nat) :
    (reserve memory m : Edit (WordVec S) Unit).Keeps Sound := by
  refine keeps_onStore fun store words hwords => ?_
  exact ((LawfulStore.reserve memory (wordsFor m) hwords).mono (fun _ _ hkept => hkept)
    fun _ _ hfailed => hfailed.2).after

theorem keeps_ensureCapacity (memory : Allocator) (m : Nat) :
    (ensureCapacity memory m : Edit (WordVec S) Unit).Keeps Sound :=
  (keeps_reserve memory m).reword

theorem keeps_appendBits (memory : Allocator) (w : Word) (count : Nat) :
    (appendBits memory w count : Edit (WordVec S) Unit).Keeps Sound :=
  Follows.keeps (follows_appendBits memory w count)

/-- A source is put at the end as far as it can be read. -/
theorem keeps_append (memory : Allocator) (other : Source) :
    (append memory other : Edit (WordVec S) Unit).Keeps Sound := by
  refine (Edit.keeps_view _).bind fun n => (Edit.keeps_liftM _).bind fun _ => ?_
  refine (keeps_ensureCapacity memory _).bind fun _ => ?_
  refine Edit.keeps_visitWindows (fun lo hi => ?_) 0 other.length
  exact (Edit.keeps_liftM _).bind fun w => keeps_appendBits memory w (hi - lo)

/-- A source without stray ones leaves none, also where it cannot be read to its
end. -/
theorem yields_combine {failed : Failure → WordVec S → Prop} (op : Connective) {other : Source}
    (hother : other.Trimmed) (h : v.Sound)
    (hfailed : ∀ lo hi failure (w : WordVec S), lo ≤ hi → hi ≤ other.length → hi - lo ≤ 64 →
      other.window lo hi = .error failure → w.Sound → failed failure w) :
    (combine op other).Yields v (fun _ w => w.Sound) failed := by
  obtain ⟨bits, hv⟩ := h
  have hview : Edit.view (fun v : WordVec S => min v.length other.length) v =
      .ok (min bits.length other.length) v := by
    rw [← hv.length_eq]
    rfl
  refine Edit.yields_bind_ok hview ?_
  refine (Edit.yields_visitWindows (fun _ (w : WordVec S) => w.Sound ∧ w.length = bits.length)
    (Nat.zero_le _) ⟨⟨bits, hv⟩, hv.length_eq⟩ ?_).imp fun _ _ hw => hw.1
  rintro k hk w ⟨⟨bits', hw⟩, hlength⟩
  rw [hw.length_eq] at hlength
  have hcount := le_wordsFor bits'.length
  refine Edit.yields_liftM_bind (fun word hread => ?_) fun failure hread =>
    hfailed _ _ failure w (by omega) (by omega) (by omega) hread ⟨bits', hw⟩
  have hword : wordOf (0 + 64 * k) = k := by
    unfold wordOf
    omega
  rw [hword]
  have hnarrow := hother _ _ word (by omega) (by omega) (by omega) hread
  refine (Image.combineWindow hw op (by omega) (by omega) hnarrow).imp
    fun _ x hx => ⟨hx.sound fun i hi => ?_, hx.length_eq.trans hlength⟩
  rw [retouched, if_neg (by omega), List.getElem?_eq_none hi, Option.getD_none]

theorem keeps_combine (op : Connective) {other : Source} (hother : other.Trimmed) :
    (combine op other : Edit (WordVec S) Unit).Keeps Sound :=
  Edit.keeps_of_yields fun _ hv => yields_combine op hother hv fun _ _ _ _ _ _ _ _ hw => hw

/-- Every operation leaves a sound vector sound. -/
theorem kept [LawfulFill S] : Kept (Sound (S := S)) where
  set i b := Follows.keeps_of_exact (follows_set i b)
  setBits lo width value := Follows.keeps_of_exact (follows_setBits lo width value)
  fillRange lo hi b := Follows.keeps_of_exact (follows_fillRange lo hi b)
  flipRange lo hi := Follows.keeps_of_exact (follows_flipRange lo hi)
  combine op _ hother := keeps_combine op hother
  setLength memory n := Follows.keeps (follows_setLength memory n)
  insert memory i b := Follows.keeps (follows_insert memory i b)
  remove i := Follows.keeps_of_exact (follows_remove i)
  push memory b := Follows.keeps (follows_push memory b)
  appendBits := keeps_appendBits
  append := keeps_append

theorem Sound.trim (h : v.Sound) : v.trim.Sound := by
  obtain ⟨bits, hlength, words, hwords, hcount, hbits⟩ := h
  exact ⟨bits, hlength, words, LawfulStore.shrink hwords, hcount, hbits⟩

theorem Sound.duplicate (h : v.Sound) : v.duplicate.Sound := by
  obtain ⟨bits, hlength, words, hwords, hcount, hbits⟩ := h
  exact ⟨bits, hlength, words, LawfulStore.duplicate hwords, hcount, hbits⟩

/-! ## Vectors from nothing -/

theorem sound_empty : (empty : WordVec S).Sound := ⟨[], holds_empty⟩

theorem sound_of_ones [LawfulFill S] {memory : Allocator} (h : ones memory n = .ok v) :
    v.Sound := by
  have hones := grants_ones (S := S) memory n
  rw [h] at hones
  exact ⟨_, hones⟩

/-! ## Vectors over words from outside -/

theorem sound_of_ofBuffer {words : Buffer Word} (h : ofBuffer words n = .ok v) : v.Sound := by
  obtain ⟨hadmits, hover⟩ := (adopts_ofBuffer words n).of_ok h
  exact ⟨_, hover.holds hadmits⟩

theorem sound_of_ofBuffers {shift : Nat} {segments : Buffer (Buffer Word)}
    {v : WordVec (Segmented shift)} (h : ofBuffers segments n = .ok v) : v.Sound := by
  obtain ⟨⟨-, hadmits⟩, hover⟩ := (adopts_ofBuffers shift segments n).of_ok h
  exact ⟨_, hover.holds hadmits⟩

/-- Whatever is made and done, a vector is sound. -/
theorem steady_sound [LawfulFill S] : Steady (Sound (S := S)) where
  kept := WordVec.kept
  reserve := keeps_reserve
  empty := sound_empty
  ones := sound_of_ones
  ofBuffer _ := sound_of_ofBuffer
  duplicate := Sound.duplicate
  trim := Sound.trim

end WordVec

end PackedBits
