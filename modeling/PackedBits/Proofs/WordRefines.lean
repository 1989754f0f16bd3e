import PackedBits.Proofs.StoreGuard

/-!
# Vectors over a store under guard

Every operation on a vector in words over a store under guard runs as over the store or
ends in a fault. Each is followed step by step: the steps that touch the store do so by
the rules of the store, and the others are the same.
-/

namespace PackedBits

namespace WordVec

variable {S α : Type} [WordStore S] [StoreGuard S]

omit [WordStore S] [StoreGuard S] in
theorem refines_onStore {edit edit' : Edit S α} (h : Edit.Refines edit edit') :
    Edit.Refines (onStore edit) (onStore edit') := by
  intro v
  rcases h v.store with hsame | ⟨cause, store, hfault⟩
  · exact .inl (by simp only [onStore, hsame])
  · exact .inr ⟨cause, ⟨store, v.length⟩, by simp only [onStore, hfault]⟩

theorem refines_change (k : Nat) (f : Word → Word) :
    Edit.Refines (@modifyWord S WordStore.guarded k f) (modifyWord k f) :=
  refines_onStore (refines_modifyWord k f)

/-! ### Reading -/

theorem refines_bit (v : WordVec S) (i : Nat) :
    Refines (@bit S WordStore.guarded v i) (v.bit i) :=
  (refines_refl _).bind fun _ => (refines_word v.store _).bind fun _ => refines_refl _

theorem refines_window (v : WordVec S) (lo hi : Nat) :
    Refines (@window S WordStore.guarded v lo hi) (v.window lo hi) := by
  refine (refines_refl _).bind fun _ => ?_
  dsimp only
  split
  · exact refines_refl _
  · refine (refines_word v.store _).bind fun _ => (refines_refl _).bind fun _ => ?_
    split
    · exact refines_refl _
    · exact (refines_word v.store _).bind fun _ => refines_refl _

theorem refines_countOnes (v : WordVec S) :
    Refines (@countOnes S WordStore.guarded v) v.countOnes :=
  refines_foldUp fun _ i => (refines_word v.store i).bind fun _ => refines_refl _

theorem refines_holding (v : WordVec S) (b : Bool) (k : Nat) :
    Refines (@holding S WordStore.guarded v b k) (v.holding b k) :=
  (refines_word v.store k).bind fun _ => refines_refl _

theorem refines_next (v : WordVec S) (b : Bool) (i : Nat) :
    Refines (@next S WordStore.guarded v b i) (v.next b i) := by
  unfold next
  split
  · exact refines_refl _
  · refine (refines_searchUp fun k => ?_).bind fun _ => refines_refl _
    exact (refines_holding v b k).bind fun _ => refines_refl _

theorem refines_previous (v : WordVec S) (b : Bool) (i : Nat) :
    Refines (@previous S WordStore.guarded v b i) (v.previous b i) :=
  refines_searchDown fun k => (refines_holding v b k).bind fun _ => refines_refl _

theorem refines_getWord (v : WordVec S) (i : Nat) :
    Refines (@word S WordStore.guarded v i) (v.word i) :=
  (refines_refl _).bind fun _ => refines_word v.store i

theorem refines_words (v : WordVec S) : Refines (@words S WordStore.guarded v) v.words :=
  refines_foldUp fun _ i => (refines_getWord v i).bind fun _ => refines_refl _

/-! ### Changing in place -/

theorem refines_set (i : Nat) (b : Bool) :
    Edit.Refines (@set S WordStore.guarded i b) (set i b) :=
  (Edit.refines_inspect fun v => refines_bit v i).bind fun _ =>
    (refines_change _ _).bind fun _ => Edit.refines_refl _

theorem refines_setBits (lo width : Nat) (value : Word) :
    Edit.Refines (@setBits S WordStore.guarded lo width value) (setBits lo width value) := by
  refine (Edit.refines_refl _).bind fun _ => (Edit.refines_refl _).bind fun _ => ?_
  split
  · exact Edit.refines_refl _
  · refine (Edit.refines_refl _).bind fun _ => (Edit.refines_refl _).bind fun _ => ?_
    refine (refines_change _ _).bind fun _ => (Edit.refines_refl _).bind fun _ => ?_
    split
    · exact (Edit.refines_refl _).bind fun _ => (Edit.refines_refl _).bind fun _ =>
        refines_change _ _
    · exact Edit.refines_refl _

omit [WordStore S] [StoreGuard S] in
theorem refines_onRange {lo hi : Nat} {part part' : Nat → Word → Edit (WordVec S) Unit}
    {between between' : Nat → Nat → Edit (WordVec S) Unit}
    (hpart : ∀ k field, Edit.Refines (part k field) (part' k field))
    (hbetween : ∀ k l, Edit.Refines (between k l) (between' k l)) :
    Edit.Refines (onRange lo hi part between) (onRange lo hi part' between') := by
  refine (Edit.refines_refl _).bind fun _ => ?_
  split
  · exact Edit.refines_refl _
  · dsimp only
    split
    · exact (Edit.refines_refl _).bind fun _ => hpart _ _
    · refine (Edit.refines_refl _).bind fun _ => (hpart _ _).bind fun _ => ?_
      refine (hbetween _ _).bind fun _ => ?_
      split
      · exact hpart _ _
      · exact Edit.refines_refl _

theorem refines_fillRange (lo hi : Nat) (b : Bool) :
    Edit.Refines (@fillRange S WordStore.guarded lo hi b) (fillRange lo hi b) :=
  refines_onRange (fun _ _ => refines_change _ _) fun _ _ => refines_onStore (refines_fill _ _ _)

theorem refines_flipRange (lo hi : Nat) :
    Edit.Refines (@flipRange S WordStore.guarded lo hi) (flipRange lo hi) :=
  refines_onRange (fun _ _ => refines_change _ _) fun _ _ =>
    Edit.refines_visitUp fun _ => refines_change _ _

theorem refines_combine (op : Connective) (other : Source) :
    Edit.Refines (@combine S WordStore.guarded op other) (combine op other) :=
  (Edit.refines_refl _).bind fun _ => Edit.refines_visitWindows fun _ _ =>
    (Edit.refines_refl _).bind fun _ => refines_change _ _

/-! ### Growing and shrinking -/

theorem refines_reserve (memory : Allocator) (n : Nat) :
    Edit.Refines (@reserve S WordStore.guarded memory n) (reserve memory n) :=
  refines_onStore (StoreGuard.refines_reserve memory _)

theorem refines_ensureCapacity (memory : Allocator) (n : Nat) :
    Edit.Refines (@ensureCapacity S WordStore.guarded memory n) (ensureCapacity memory n) :=
  (refines_reserve memory n).reword fun _ => ⟨_, rfl⟩

theorem refines_shorten (n : Nat) :
    Edit.Refines (@shorten S WordStore.guarded n) (shorten n) := by
  refine (Edit.refines_refl _).bind fun _ => (Edit.refines_refl _).bind fun _ => ?_
  split
  · exact refines_change _ _
  · exact Edit.refines_refl _

theorem refines_setLength (memory : Allocator) (n : Nat) :
    Edit.Refines (@setLength S WordStore.guarded memory n) (setLength memory n) := by
  refine (Edit.refines_refl _).bind fun _ => ?_
  split
  · exact (refines_ensureCapacity memory n).bind fun _ => Edit.refines_refl _
  · exact refines_shorten n

theorem refines_push (memory : Allocator) (b : Bool) :
    Edit.Refines (@push S WordStore.guarded memory b) (push memory b) := by
  have hset : ∀ n, Edit.Refines
      (do
        if b then @modifyWord S WordStore.guarded (wordOf n) (· ||| 1#64 <<< bitOf n)
        modify fun v : WordVec S => ⟨v.store, n + 1⟩)
      (do
        if b then modifyWord (wordOf n) (· ||| 1#64 <<< bitOf n)
        modify fun v : WordVec S => ⟨v.store, n + 1⟩) := by
    intro n
    cases b with
    | false => exact Edit.refines_refl _
    | true => exact (refines_change _ _).bind fun _ => Edit.refines_refl _
  refine (Edit.refines_refl _).bind fun n => ?_
  dsimp only
  split
  · refine (refines_ensureCapacity memory _).bind fun _ => ?_
    exact (Edit.refines_refl _).bind fun _ => hset n
  · exact hset n

theorem refines_appendBits (memory : Allocator) (w : Word) (count : Nat) :
    Edit.Refines (@appendBits S WordStore.guarded memory w count) (appendBits memory w count) := by
  refine (Edit.refines_refl _).bind fun _ => (Edit.refines_refl _).bind fun _ => ?_
  split
  · exact Edit.refines_refl _
  · refine (refines_setLength memory _).bind fun _ => (Edit.refines_refl _).bind fun _ => ?_
    refine (refines_change _ _).bind fun _ => ?_
    split
    · exact (Edit.refines_refl _).bind fun _ => refines_change _ _
    · exact Edit.refines_refl _

theorem refines_insert (memory : Allocator) (i : Nat) (b : Bool) :
    Edit.Refines (@insert S WordStore.guarded memory i b) (insert memory i b) := by
  refine (Edit.refines_refl _).bind fun _ => (Edit.refines_refl _).bind fun _ => ?_
  split
  · exact refines_push memory b
  · refine (refines_setLength memory _).bind fun _ => ?_
    refine (Edit.refines_visitDown fun k => ?_).bind fun _ => ?_
    · refine (Edit.refines_refl _).bind fun lower => ?_
      refine (Edit.refines_inspect fun v : WordVec S => refines_word v.store lower).bind fun _ => ?_
      exact refines_change _ _
    · exact (Edit.refines_refl _).bind fun _ => refines_change _ _

theorem refines_remove (i : Nat) :
    Edit.Refines (@remove S WordStore.guarded i) (remove i) := by
  refine (Edit.refines_refl _).bind fun _ => ?_
  refine (Edit.refines_inspect fun v => refines_bit v i).bind fun _ => ?_
  split
  · exact (refines_shorten i).bind fun _ => Edit.refines_refl _
  · refine (refines_change _ _).bind fun _ => ?_
    refine (Edit.refines_visitUp fun k => ?_).bind fun _ => Edit.refines_refl _
    refine (Edit.refines_inspect fun v : WordVec S => refines_word v.store k).bind fun _ => ?_
    refine (Edit.refines_refl _).bind fun _ => (refines_change _ _).bind fun _ => ?_
    exact refines_change _ _

end WordVec

end PackedBits
