import PackedBits.Proofs.Listed
import PackedBits.Proofs.Outcome
import PackedBits.Store.Plain

/-!
# What a store of words owes

`LawfulStore` is the contract of a word store, said through the list of the
words that it holds: which list each operation leaves, that words are read and
changed below the size only, and that a request for room leaves the words alone
whether it is granted or not. `LawfulFill` is the contract of filling, which a
store that fills word by word keeps without more. A store in one piece keeps
both. How much room there is does not enter them.
-/

namespace PackedBits

/-- The contract of a word store. -/
class LawfulStore (S : Type) [WordStore S] where
  /-- A store is in good order and holds these words. -/
  Holds : S → List Word → Prop
  empty : Holds WordStore.empty []
  ofBuffer (buffer : Buffer Word) : Holds (WordStore.ofBuffer buffer) buffer.items.toList
  size_eq {store : S} {words : List Word} :
    Holds store words → WordStore.size store = words.length
  word_eq {store : S} {words : List Word} {i : Nat} {w : Word} :
    Holds store words → words[i]? = some w → WordStore.word store i = .ok w
  word_past {store : S} {words : List Word} {i : Nat} :
    Holds store words → words.length ≤ i →
      ∃ cause, WordStore.word store i = .error (.fault cause)
  modifyWord_eq {store : S} {words : List Word} {i : Nat} (f : Word → Word) :
    Holds store words → i < words.length →
      ∃ store', WordStore.modifyWord i f store = .ok () store' ∧ Holds store' (words.modify i f)
  modifyWord_past {store : S} {words : List Word} {i : Nat} (f : Word → Word) :
    Holds store words → words.length ≤ i →
      ∃ cause, WordStore.modifyWord i f store = .error (.fault cause) store
  reserve {store : S} {words : List Word} (memory : Allocator) (n : Nat) :
    Holds store words → (WordStore.reserve memory n).Yields store
      (fun _ store' => Holds store' words)
      fun failure store' => failure = .allocation ∧ Holds store' words
  resize {store : S} {words : List Word} (n : Nat) :
    Holds store words → Holds (WordStore.resize n store) (resized n 0#64 words)
  shrink {store : S} {words : List Word} :
    Holds store words → Holds (WordStore.shrink store) words
  duplicate {store : S} {words : List Word} :
    Holds store words → Holds (WordStore.duplicate store) words

/-- Writes `value` from `lo` up to `hi` word by word, as a store does that has
no way of its own. -/
def WordStore.fillEach {S : Type} [WordStore S] (lo hi : Nat) (value : Word) : Edit S Unit :=
  visitUp lo (hi - lo) fun i => WordStore.modifyWord i fun _ => value

/-- A range of words that are held is filled. -/
class LawfulFill (S : Type) [WordStore S] [LawfulStore S] : Prop where
  fill_eq {store : S} {words : List Word} {lo hi : Nat} (value : Word) :
    LawfulStore.Holds store words → lo ≤ hi → hi ≤ words.length →
      ∃ store', WordStore.fill lo hi value store = .ok () store' ∧
        LawfulStore.Holds store' (rewritten lo hi (fun _ _ => value) words)

section

variable {S : Type} [WordStore S] [LawfulStore S]

/-- A range written word by word holds the value afterwards, and every other
word is the same. -/
theorem LawfulStore.exists_fillEach {store : S} {words : List Word} {lo hi : Nat} (value : Word)
    (h : LawfulStore.Holds store words) (hle : lo ≤ hi) (hhi : hi ≤ words.length) :
    ∃ store', WordStore.fillEach lo hi value store = .ok () store' ∧
      LawfulStore.Holds store' (rewritten lo hi (fun _ _ => value) words) := by
  have hloop : (WordStore.fillEach lo hi value).Yields store
      (fun _ store' => LawfulStore.Holds store'
        (rewritten lo (lo + (hi - lo)) (fun _ _ => value) words))
      fun _ _ => False := by
    refine Edit.yields_visitUp
      (fun i store' => LawfulStore.Holds store' (rewritten lo i (fun _ _ => value) words)) ?_ ?_
    · rwa [rewritten_of_le (Nat.le_refl lo)]
    · intro i hlo hlt store' hstore'
      have hin : i < (rewritten lo i (fun _ _ => value) words).length := by
        rw [length_rewritten]
        omega
      obtain ⟨store'', hrun, hstore''⟩ := LawfulStore.modifyWord_eq (fun _ => value) hstore' hin
      refine Edit.yields_of_ok hrun ?_
      rwa [rewritten_succ hlo]
  obtain ⟨_, store', hrun, hstore'⟩ := hloop.exists_ok
  rw [Nat.add_sub_cancel' hle] at hstore'
  exact ⟨store', hrun, hstore'⟩

/-- A store that fills word by word fills. -/
theorem LawfulFill.of_fillEach
    (hfill : ∀ lo hi value, (WordStore.fill lo hi value : Edit S Unit) =
      WordStore.fillEach lo hi value) : LawfulFill S where
  fill_eq value h hle hhi := by
    rw [hfill]
    exact LawfulStore.exists_fillEach value h hle hhi

end

/-! ## Buffers -/

namespace Buffer

variable {α : Type} {buffer : Buffer α}

/-- A request for room leaves the items alone, granted or not. -/
theorem yields_of_request {edit : Edit (Buffer α) Unit} {needed room : Nat} {granted : Bool}
    (hrun : edit buffer = if needed ≤ buffer.capacity then .ok () buffer
      else if granted = true then .ok () { buffer with capacity := room }
      else .error .allocation buffer) :
    edit.Yields buffer (fun _ buffer' => buffer'.items = buffer.items)
      fun failure buffer' => failure = .allocation ∧ buffer'.items = buffer.items := by
  unfold Edit.Yields
  rw [hrun]
  rcases Nat.lt_or_ge buffer.capacity needed with hless | hroom
  · rw [if_neg (Nat.not_le.mpr hless)]
    cases granted with
    | true => rfl
    | false => exact ⟨rfl, rfl⟩
  · rw [if_pos hroom]

theorem toList_resize (buffer : Buffer α) (n : Nat) (item : α) :
    (buffer.resize n item).items.toList = resized n item buffer.items.toList := by
  obtain ⟨items, capacity⟩ := buffer
  simp only [Buffer.resize, resized]
  split
  · rename_i hle
    have hzero : n - items.toList.length = 0 := by
      rw [Array.length_toList]
      omega
    rw [hzero, List.replicate_zero, List.append_nil, Array.toList_shrink]
  · rename_i hgt
    rw [Array.toList_append, Array.toList_replicate, Array.length_toList,
      List.take_of_length_le (by rw [Array.length_toList]; omega)]

theorem toList_modifyRange (buffer : Buffer α) {lo hi : Nat} (hle : lo ≤ hi) (value : α) :
    (buffer.modifyRange lo (hi - lo) fun _ _ => value).items.toList =
      rewritten lo hi (fun _ _ => value) buffer.items.toList := by
  apply List.ext_getElem?
  intro i
  rw [Array.getElem?_toList, Buffer.getElem?_modifyRange, getElem?_rewritten,
    Array.getElem?_toList, Nat.add_sub_cancel' hle]
  split
  · rfl
  · rw [Option.map_id']

end Buffer

/-! ## Stores in one piece -/

namespace Flat

theorem editsPiece_onBuffer {α : Type} (edit : Edit (Buffer Word) α) (store : Flat) :
    (onBuffer edit).EditsPiece store edit store.buffer Flat.mk where
  ok hrun := by simp only [onBuffer, hrun]
  error hrun := by simp only [onBuffer, hrun]

instance : LawfulStore Flat where
  Holds store words := store.buffer.items.toList = words
  empty := rfl
  ofBuffer _ := rfl
  size_eq := by
    intro store words h
    subst h
    exact (Array.length_toList).symm
  word_eq := by
    intro store words i w h hw
    subst h
    rw [Array.getElem?_toList] at hw
    simp [WordStore.word, word, hw]
  word_past := by
    intro store words i h hpast
    subst h
    rw [Array.length_toList] at hpast
    exact ⟨.wordIndex i store.buffer.size, by simp [WordStore.word, word, hpast]⟩
  modifyWord_eq := by
    intro store words i f h hlt
    subst h
    rw [Array.length_toList] at hlt
    exact ⟨⟨store.buffer.modify i f⟩, if_pos hlt, Array.toList_modify⟩
  modifyWord_past := by
    intro store words i f h hpast
    subst h
    rw [Array.length_toList] at hpast
    exact ⟨.wordIndex i store.buffer.size, if_neg (Nat.not_lt.mpr hpast)⟩
  reserve := by
    intro store words memory n h
    subst h
    refine (editsPiece_onBuffer _ store).yields ((Buffer.yields_of_request rfl).mono ?_ ?_)
    · intro _ buffer hitems
      exact congrArg Array.toList hitems
    · rintro _ buffer ⟨hfailure, hitems⟩
      exact ⟨hfailure, congrArg Array.toList hitems⟩
  resize := by
    intro store words n h
    subst h
    exact Buffer.toList_resize store.buffer n 0#64
  shrink := by
    intro store words h
    subst h
    rfl
  duplicate := by
    intro store words h
    subst h
    rfl

instance : LawfulFill Flat where
  fill_eq := by
    intro store words lo hi value h hle hhi
    subst h
    rw [Array.length_toList] at hhi
    exact ⟨_, (editsPiece_onBuffer _ store).ok (if_pos ⟨hle, hhi⟩),
      Buffer.toList_modifyRange store.buffer hle value⟩

end Flat

namespace Plain

theorem editsPiece_onFlat {α : Type} (edit : Edit Flat α) (store : Plain) :
    (onFlat edit).EditsPiece store edit store.flat Plain.mk where
  ok hrun := by simp only [onFlat, hrun]
  error hrun := by simp only [onFlat, hrun]

instance : LawfulStore Plain where
  Holds store words := LawfulStore.Holds store.flat words
  empty := LawfulStore.empty (S := Flat)
  ofBuffer buffer := LawfulStore.ofBuffer (S := Flat) buffer
  size_eq h := LawfulStore.size_eq (S := Flat) h
  word_eq h hw := LawfulStore.word_eq (S := Flat) h hw
  word_past h hpast := LawfulStore.word_past (S := Flat) h hpast
  modifyWord_eq f h hlt := by
    obtain ⟨flat, hrun, hflat⟩ := LawfulStore.modifyWord_eq (S := Flat) f h hlt
    exact ⟨⟨flat⟩, (editsPiece_onFlat _ _).ok hrun, hflat⟩
  modifyWord_past f h hpast := by
    obtain ⟨cause, hrun⟩ := LawfulStore.modifyWord_past (S := Flat) f h hpast
    exact ⟨cause, (editsPiece_onFlat _ _).error hrun⟩
  reserve memory n h :=
    (editsPiece_onFlat _ _).yields (LawfulStore.reserve (S := Flat) memory n h)
  resize n h := LawfulStore.resize (S := Flat) n h
  shrink h := LawfulStore.shrink (S := Flat) h
  duplicate h := LawfulStore.duplicate (S := Flat) h

theorem fill_eq_fillEach (lo hi : Nat) (value : Word) :
    (WordStore.fill lo hi value : Edit Plain Unit) = WordStore.fillEach lo hi value := rfl

instance : LawfulFill Plain := .of_fillEach fill_eq_fillEach

end Plain

end PackedBits
