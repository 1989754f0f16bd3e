import Mathlib.Algebra.Group.Nat.Defs
import PackedBits.Proofs.Search
import PackedBits.Proofs.SegmentLaw
import PackedBits.Proofs.WordRead
import PackedBits.WordVec.Adoption

/-!
# Words from outside

`Admits` and `WellSegmented` say which words and which segments can become the storage of
a vector. An answer `Adopts` under a condition when it is given exactly then and is refused
as an adoption otherwise. The check of words, the adoption of segments and the two
constructors over storage from outside are such answers, and the constructors leave a
vector whose store holds the words that the length needs and no other.
-/

namespace PackedBits

/-! ## Answers under a condition -/

section

variable {α β : Type} {answer : Answer α} {next : α → Answer β} {condition more : Prop}
  {good : α → Prop} {goal : β → Prop}

/-- An answer is given, and as it should be, exactly under a condition; otherwise what is
handed in is refused as storage. -/
def Adopts (answer : Answer α) (condition : Prop) (good : α → Prop) : Prop :=
  (condition ∧ ∃ a, answer = .ok a ∧ good a) ∨
    ¬condition ∧ ∃ cause, answer = .error (.invalidAdoption cause)

theorem adopts_require {cause : AdoptionFault} [Decidable condition] :
    Adopts (require condition (.invalidAdoption cause)) condition fun _ => True := by
  by_cases h : condition
  · exact .inl ⟨h, (), require_eq_ok_iff.mpr h, trivial⟩
  · exact .inr ⟨h, cause, require_eq_error_iff.mpr ⟨h, rfl⟩⟩

theorem Adopts.bind (h : Adopts answer condition good)
    (hnext : condition → ∀ a, good a → Adopts (next a) more goal) :
    Adopts (answer >>= next) (condition ∧ more) goal := by
  rcases h with ⟨hcondition, a, rfl, hgood⟩ | ⟨hcondition, cause, rfl⟩
  · rcases hnext hcondition a hgood with ⟨hmore, b, hb, hgoal⟩ | ⟨hmore, cause, hrefused⟩
    · exact .inl ⟨⟨hcondition, hmore⟩, b, hb, hgoal⟩
    · exact .inr ⟨fun hboth => hmore hboth.2, cause, hrefused⟩
  · exact .inr ⟨fun hboth => hcondition hboth.1, cause, rfl⟩

/-- What follows an answer and is always given comes under the same condition. -/
theorem Adopts.bind_ok (h : Adopts answer condition good)
    (hnext : condition → ∀ a, good a → ∃ b, next a = .ok b ∧ goal b) :
    Adopts (answer >>= next) condition goal := by
  rcases h with ⟨hcondition, a, rfl, hgood⟩ | ⟨hcondition, cause, rfl⟩
  · exact .inl ⟨hcondition, hnext hcondition a hgood⟩
  · exact .inr ⟨hcondition, cause, rfl⟩

theorem Adopts.congr {condition' : Prop} (h : Adopts answer condition good)
    (hcondition : condition ↔ condition') : Adopts answer condition' good := by
  rwa [Adopts, ← hcondition]

theorem Adopts.exists_ok_iff (h : Adopts answer condition good) :
    (∃ a, answer = .ok a) ↔ condition := by
  rcases h with ⟨hcondition, a, hanswer, -⟩ | ⟨hcondition, cause, rfl⟩
  · exact ⟨fun _ => hcondition, fun _ => ⟨a, hanswer⟩⟩
  · exact ⟨nofun, fun hmet => absurd hmet hcondition⟩

theorem Adopts.of_ok (h : Adopts answer condition good) {a : α} (hanswer : answer = .ok a) :
    condition ∧ good a := by
  subst hanswer
  rcases h with ⟨hcondition, _, ⟨⟩, hgood⟩ | ⟨-, _, ⟨⟩⟩
  exact ⟨hcondition, hgood⟩

theorem Adopts.of_error (h : Adopts answer condition good) {failure : Failure}
    (hanswer : answer = .error failure) : ∃ cause, failure = .invalidAdoption cause := by
  subst hanswer
  rcases h with ⟨-, _, ⟨⟩, -⟩ | ⟨-, cause, ⟨⟩⟩
  exact ⟨cause, rfl⟩

end

/-! ## Segments -/

/-- Every segment but the last holds exactly `2 ^ shift` words, and the last no more. -/
structure WellSegmented (shift : Nat) (segments : Array (Array Word)) : Prop where
  full (s : Nat) (segment : Array Word) : segments[s]? = some segment → s + 1 < segments.size →
    segment.size = 2 ^ shift
  last (s : Nat) (segment : Array Word) : segments[s]? = some segment → s + 1 = segments.size →
    segment.size ≤ 2 ^ shift

namespace Segmented

variable {shift : Nat} {segments : Array (Array Word)}

theorem wellSegmented_iff :
    WellSegmented shift segments ↔ ∀ s segment, segments.toList[s]? = some segment →
      if s < segments.size - 1 then segment.size = segmentSize shift
      else segment.size ≤ segmentSize shift := by
  simp only [segmentSize, Nat.one_shiftLeft, Array.getElem?_toList]
  constructor
  · intro h s segment hs
    have hlt := (Array.getElem?_eq_some_iff.mp hs).1
    split
    · exact h.full s segment hs (by omega)
    · exact h.last s segment hs (by omega)
  · intro h
    refine ⟨fun s segment hs hbefore => ?_, fun s segment hs hlast => ?_⟩
    · simpa only [if_pos (show s < segments.size - 1 by omega)] using h s segment hs
    · simpa only [if_neg (show ¬s < segments.size - 1 by omega)] using h s segment hs

/-- Adopted segments hold their words one segment after the other. -/
theorem adopts_adopt (shift : Nat) (segments : Array (Array Word)) :
    Adopts (adopt segments) (WellSegmented shift segments) fun store : Segmented shift =>
      LawfulStore.Holds store segments.flatten.toList := by
  by_cases hgood : WellSegmented shift segments
  · have hadopt := adopt_eq_ok_iff.mpr ⟨wellSegmented_iff.mp hgood, rfl⟩
    refine .inl ⟨hgood, _, hadopt, ?_⟩
    rw [Array.toList_flatten]
    exact chunked_of_adopt hadopt
  · refine .inr ⟨hgood, ?_⟩
    rcases hadopt : (adopt segments : Answer (Segmented shift)) with failure | store
    · unfold adopt at hadopt
      simp only at hadopt
      split at hadopt
      · cases hadopt
        exact ⟨_, rfl⟩
      · cases hadopt
    · exact absurd (wellSegmented_iff.mpr (adopt_eq_ok_iff.mp hadopt).1) hgood

/-- The room that segments have is not asked about. -/
theorem adopts_adoptBuffers (shift : Nat) (segments : Buffer (Buffer Word)) :
    Adopts (adoptBuffers segments) (WellSegmented shift (segments.items.map Buffer.items))
      fun store : Segmented shift =>
        LawfulStore.Holds store (segments.items.map Buffer.items).flatten.toList := by
  rcases adopts_adopt shift (segments.items.map Buffer.items) with
    ⟨hgood, store, hadopt, -⟩ | ⟨hbad, cause, hrefused⟩
  · have hadopted : adoptBuffers segments = .ok (⟨segments, store.size⟩ : Segmented shift) := by
      rw [adoptBuffers, hadopt]
      rfl
    refine .inl ⟨hgood, _, hadopted, ?_⟩
    rw [Array.toList_flatten]
    exact (chunked_of_adoptBuffers hadopted).1
  · refine .inr ⟨hbad, cause, ?_⟩
    rw [adoptBuffers, hrefused]
    rfl

end Segmented

/-! ## Words -/

/-- Words can hold `n` bits: there are enough of them, and in none of them, needed or not,
does a one stand at a position from `n` on. -/
structure Admits (words : List Word) (n : Nat) : Prop where
  enough : wordsFor n ≤ words.length
  clean (k : Nat) (w : Word) : words[k]? = some w → ∀ place, n ≤ 64 * k + place →
    w.getLsbD place = false

namespace WordVec

variable {words : List Word} {n : Nat}

theorem admits_iff : Admits words n ↔ wordsFor n ≤ words.length ∧
    ∀ k w, words[k]? = some w → Word.Narrow (n - 64 * k) w :=
  ⟨fun h => ⟨h.enough, fun k w hw j hj => h.clean k w hw j (by omega)⟩,
    fun h => ⟨h.1, fun k w hw j hj => h.2 k w hw j (by omega)⟩⟩

/-- Asks whether a one stands at or past `n` in word `k`. -/
def strayAt (word : Nat → Answer Word) (n k : Nat) : Answer (Option Nat) := do
  let allowed := Word.mask (max n (64 * k) - 64 * k)
  return if (← word k) &&& ~~~allowed = 0#64 then none else some k

theorem strayAt_cases {word : Nat → Answer Word} {k : Nat} {w : Word} (hw : word k = .ok w) :
    (strayAt word n k = .ok none ∧ Word.Narrow (n - 64 * k) w) ∨
      strayAt word n k = .ok (some k) ∧ ¬Word.Narrow (n - 64 * k) w := by
  have hwidth : max n (64 * k) - 64 * k = n - 64 * k := by omega
  rw [strayAt, bind_of_ok hw, hwidth, ← Word.and_not_mask_eq_zero_iff]
  by_cases hclean : w &&& ~~~Word.mask (n - 64 * k) = 0#64
  · rw [if_pos hclean]
    exact .inl ⟨rfl, hclean⟩
  · rw [if_neg hclean]
    exact .inr ⟨rfl, hclean⟩

/-- The search goes from the last word needed on: the words before it have no place past the
length. -/
theorem searchUp_strayAt {word : Nat → Answer Word}
    (hword : ∀ k w, words[k]? = some w → word k = .ok w) :
    (searchUp (wordsFor n - 1) (words.length - (wordsFor n - 1)) (strayAt word n) = .ok none ∧
      ∀ k w, k < wordsFor n - 1 + (words.length - (wordsFor n - 1)) → words[k]? = some w →
        Word.Narrow (n - 64 * k) w) ∨
      ∃ k, searchUp (wordsFor n - 1) (words.length - (wordsFor n - 1)) (strayAt word n) =
        .ok (some k) ∧ ¬∀ k w, words[k]? = some w → Word.Narrow (n - 64 * k) w := by
  have hneeded := wordsFor_le n
  apply searchUp_invariant
    (fun k => ∀ i w, i < k → words[i]? = some w → Word.Narrow (n - 64 * i) w)
    (fun _ => ¬∀ k w, words[k]? = some w → Word.Narrow (n - 64 * k) w)
  · exact fun i w hi _ j hj => BitVec.getLsbD_of_ge w j (by omega)
  · intro k hlo hhi hbefore
    have hw := List.getElem?_eq_getElem (show k < words.length by omega)
    rcases strayAt_cases (n := n) (hword k _ hw) with ⟨hnone, hnarrow⟩ | ⟨hsome, hstray⟩
    · refine .inl ⟨hnone, fun i w hi hiw => ?_⟩
      rcases Nat.lt_succ_iff_lt_or_eq.mp hi with hlt | rfl
      · exact hbefore i w hlt hiw
      · cases hw.symm.trans hiw
        exact hnarrow
    · exact .inr ⟨k, hsome, fun hall => hstray (hall k _ hw)⟩

theorem adopts_checkAdoption (words : List Word) (n : Nat) {word : Nat → Answer Word}
    (hword : ∀ k w, words[k]? = some w → word k = .ok w) :
    Adopts (checkAdoption word words.length n) (Admits words n) fun _ => True := by
  refine Adopts.congr (adopts_require.bind fun _ _ _ => ?_) admits_iff.symm
  rcases searchUp_strayAt hword with ⟨hnone, hclean⟩ | ⟨k, hsome, hstray⟩
  · refine .inl ⟨fun k w hw => hclean k w ?_ hw, (), (bind_of_ok hnone).trans rfl, trivial⟩
    have hlt := (List.getElem?_eq_some_iff.mp hw).1
    omega
  · exact .inr ⟨hstray, .strayOnes k n, (bind_of_ok hsome).trans rfl⟩

variable {S : Type} [WordStore S] [LawfulStore S] {v : WordVec S}

/-- A vector of `n` bits whose store holds those of the words that the bits need. -/
structure Over (v : WordVec S) (words : List Word) (n : Nat) : Prop where
  length_eq : v.length = n
  holds_store : LawfulStore.Holds v.store (words.take (wordsFor n))

theorem adopts_ofWords (words : Array Word) (n : Nat) :
    Adopts (ofWords words n) (Admits words.toList n) fun v : WordVec S =>
      v.Over words.toList n := by
  refine Adopts.bind_ok (adopts_checkAdoption words.toList n fun k w hw => ?_)
    fun _ _ _ => ⟨_, rfl, rfl, ?_⟩
  · rw [Array.getElem?_toList] at hw
    simp only [hw]
  · have hstore := LawfulStore.ofBuffer (S := S) ((Buffer.ofArray words).truncate (wordsFor n))
    rwa [show ((Buffer.ofArray words).truncate (wordsFor n)).items.toList =
      words.toList.take (wordsFor n) by simp [Buffer.truncate, Buffer.ofArray]] at hstore

theorem adopts_ofBuffer (words : Buffer Word) (n : Nat) :
    Adopts (ofBuffer words n) (Admits words.items.toList n) fun v : WordVec S =>
      v.Over words.items.toList n := by
  refine (adopts_ofWords words.items n).bind_ok fun _ v hv => ⟨_, rfl, hv.length_eq, ?_⟩
  have hstore := LawfulStore.ofBuffer (S := S) (words.truncate (wordsFor n))
  rwa [show (words.truncate (wordsFor n)).items.toList = words.items.toList.take (wordsFor n) by
    simp [Buffer.truncate]] at hstore

/-- A store that is adopted becomes a vector when its words can hold the bits. -/
theorem adopts_overStore {answer : Answer S} {condition : Prop}
    (hstore : Adopts answer condition fun store => LawfulStore.Holds store words) (n : Nat) :
    Adopts (do
      let store ← answer
      checkAdoption (WordStore.word store) (WordStore.size store) n
      return ⟨WordStore.resize (wordsFor n) store, n⟩)
      (condition ∧ Admits words n) fun v : WordVec S => v.Over words n := by
  refine hstore.bind fun _ store hwords => ?_
  have hcheck := adopts_checkAdoption _ n fun k w hw => LawfulStore.word_eq hwords hw
  rw [← LawfulStore.size_eq hwords] at hcheck
  refine hcheck.bind_ok fun hadmits _ _ => ⟨_, rfl, rfl, ?_⟩
  have hresized := LawfulStore.resize (wordsFor n) hwords
  rwa [resized, Nat.sub_eq_zero_of_le hadmits.enough, List.replicate_zero, List.append_nil]
    at hresized

theorem adopts_ofSegments (shift : Nat) (segments : Array (Array Word)) (n : Nat) :
    Adopts (ofSegments segments n)
      (WellSegmented shift segments ∧ Admits segments.flatten.toList n)
      fun v : WordVec (Segmented shift) => v.Over segments.flatten.toList n :=
  adopts_overStore (Segmented.adopts_adopt shift segments) n

theorem adopts_ofBuffers (shift : Nat) (segments : Buffer (Buffer Word)) (n : Nat) :
    Adopts (ofBuffers segments n)
      (WellSegmented shift (segments.items.map Buffer.items) ∧
        Admits (segments.items.map Buffer.items).flatten.toList n)
      fun v : WordVec (Segmented shift) =>
        v.Over (segments.items.map Buffer.items).flatten.toList n :=
  adopts_overStore (Segmented.adopts_adoptBuffers shift segments) n

/-- Admitted words are those of a vector in good order. -/
theorem Over.holds (hv : v.Over words n) (h : Admits words n) :
    v.Holds ((List.range n).map (bitAt words)) := by
  have himage : v.Image n (wordsFor n) (bitAt (words.take (wordsFor n))) :=
    ⟨hv.length_eq, _, hv.holds_store, List.length_take_of_le h.enough, fun _ => rfl⟩
  have hclean := bitAt_clean_iff.mpr h.clean
  refine (himage.congr fun i => ?_).holds_map hclean
  rcases Nat.lt_or_ge (wordOf i) (wordsFor n) with hkept | hcut
  · rw [bitAt, bitAt, List.getElem?_take, if_pos hkept]
  · have hpast : n ≤ i := by
      have hneeded := le_wordsFor n
      have hplace := wordOf_bitOf i
      omega
    rw [hclean i hpast, bitAt, List.getElem?_take, if_neg (Nat.not_lt.mpr hcut), Option.getD_none,
      BitVec.getLsbD_zero]

end WordVec

end PackedBits
