import PackedBits.Proofs.StoreRoom
import PackedBits.Proofs.WordSound

/-!
# Vectors of words with room made in advance

A property of the store that the steps of an operation keep is kept by the
operation; so the words of a vector lie in its room, whatever is done. A vector
that has room for so many words finds it again at every step: what stays within
the room is done without a request, cannot fail, and leaves the room and the
memory of the store as they are.
-/

namespace PackedBits

theorem wordsFor_mono {m n : Nat} (h : m ≤ n) : wordsFor m ≤ wordsFor n := by
  have hlow := wordsFor_le m
  have hhigh := le_wordsFor n
  omega

theorem lt_of_wordsFor_lt {m n : Nat} (h : wordsFor m < wordsFor n) : m < n :=
  Nat.lt_of_not_le fun hle => Nat.not_lt.mpr (wordsFor_mono hle) h

namespace WordVec

/-! ## Properties of the store -/

theorem keeps_store {S α : Type} {P : S → Prop} {edit : Edit S α} (h : edit.Keeps P) :
    (onStore edit).Keeps fun v => P v.store := by
  intro v hv
  rw [(editsPiece_onStore edit v).after_eq]
  exact h v.store hv

theorem keeps_onRange {S : Type} {P : S → Prop} (lo hi : Nat)
    {part : Nat → Word → Edit (WordVec S) Unit} {between : Nat → Nat → Edit (WordVec S) Unit}
    (hpart : ∀ k field, (part k field).Keeps fun v => P v.store)
    (hbetween : ∀ k l, (between k l).Keeps fun v => P v.store) :
    (onRange lo hi part between).Keeps fun v => P v.store := by
  unfold onRange
  refine (Edit.keeps_inspect _).bind fun _ => ?_
  split
  · exact Edit.keeps_pure ()
  · simp only
    split
    · exact (Edit.keeps_liftM _).bind fun field => hpart _ field
    · refine (Edit.keeps_liftM _).bind fun field => (hpart _ field).bind fun _ => ?_
      refine (hbetween _ _).bind fun _ => ?_
      split
      · exact hpart _ _
      · exact Edit.keeps_pure ()

variable {S : Type} [WordStore S]

/-- A property of a store that stays when a word is changed, and when room is asked
for or the size set to one of `sizes`. -/
structure StoreKeeps (sizes : Nat → Prop) (P : S → Prop) : Prop where
  modifyWord (i : Nat) (f : Word → Word) : (WordStore.modifyWord i f).Keeps P
  reserve (memory : Allocator) {n : Nat} : sizes n → (WordStore.reserve memory n).Keeps P
  resize {store : S} {n : Nat} : sizes n → P store → P (WordStore.resize n store)

namespace StoreKeeps

variable {sizes : Nat → Prop} {P : S → Prop} {v : WordVec S} {n : Nat}

theorem changeWord (h : StoreKeeps sizes P) (k : Nat) (f : Word → Word) :
    (WordVec.modifyWord k f).Keeps fun v => P v.store :=
  keeps_store (h.modifyWord k f)

theorem ensureCapacity (h : StoreKeeps sizes P) (memory : Allocator) (hn : sizes (wordsFor n)) :
    (ensureCapacity memory n).Keeps fun v => P v.store :=
  (keeps_store (h.reserve memory hn)).reword

theorem cutTo (h : StoreKeeps sizes P) (hn : sizes (wordsFor n)) :
    (cutTo n).Keeps fun v => P v.store :=
  fun _ hv => h.resize hn hv

theorem clearTail (h : StoreKeeps sizes P) : clearTail.Keeps fun v => P v.store := by
  refine (Edit.keeps_view _).bind fun n => ?_
  split
  · exact h.changeWord _ _
  · exact Edit.keeps_pure ()

theorem shorten (h : StoreKeeps sizes P) (hn : sizes (wordsFor n)) :
    (shorten n).Keeps fun v => P v.store :=
  (h.cutTo hn).bind fun _ => h.clearTail

theorem setLength (h : StoreKeeps sizes P) (memory : Allocator) (hn : sizes (wordsFor n)) :
    (setLength memory n).Keeps fun v => P v.store := by
  refine (Edit.keeps_view _).bind fun old => ?_
  split
  · exact (h.ensureCapacity memory hn).bind fun _ => h.cutTo hn
  · exact h.shorten hn

theorem push (h : StoreKeeps sizes P) (memory : Allocator) (b : Bool) (hv : P v.store)
    (hn : sizes (wordsFor (v.length + 1))) :
    (push memory b).Yields v (fun _ w => P w.store) fun _ w => P w.store := by
  have hlast : ∀ longer : WordVec S → WordVec S, (∀ w, (longer w).store = w.store) →
      (do
        if b then WordVec.modifyWord (wordOf v.length) (· ||| 1#64 <<< bitOf v.length)
        modify longer : Edit (WordVec S) Unit).Keeps fun w => P w.store := by
    intro longer hstore
    have hlonger : (modify longer : Edit (WordVec S) Unit).Keeps fun w => P w.store := by
      refine Edit.keeps_modify fun w hw => ?_
      rwa [hstore]
    cases b with
    | true => exact (h.changeWord _ _).bind fun _ => hlonger
    | false => exact hlonger
  refine Edit.yields_congr (Edit.view_bind WordVec.length) ?_
  rw [wordsFor_succ] at hn
  split
  · rename_i hfull
    rw [if_pos hfull] at hn
    have hwords : wordsFor (v.length + 1) = wordsFor v.length + 1 := by
      rw [wordsFor_succ, if_pos hfull]
    have hresize : (onStore (modify (WordStore.resize (wordsFor v.length + 1))) :
        Edit (WordVec S) Unit).Keeps fun w => P w.store :=
      keeps_store (Edit.keeps_modify fun _ hw => h.resize hn hw)
    refine Edit.Keeps.yields ((h.ensureCapacity memory (hwords ▸ hn)).bind fun _ =>
      hresize.bind fun _ => hlast _ ?_) hv
    exact fun _ => rfl
  · refine Edit.Keeps.yields (hlast _ ?_) hv
    exact fun _ => rfl

theorem appendBits (h : StoreKeeps sizes P) (memory : Allocator) (w : Word) {count : Nat}
    (hv : P v.store) (hn : sizes (wordsFor (v.length + count))) :
    (appendBits memory w count).Yields v (fun _ w => P w.store) fun _ w => P w.store := by
  refine Edit.yields_congr (Edit.view_bind WordVec.length) (Edit.Keeps.yields ?_ hv)
  refine (Edit.keeps_liftM _).bind fun _ => ?_
  split
  · exact Edit.keeps_pure ()
  · refine (h.setLength memory hn).bind fun _ => (Edit.keeps_liftM _).bind fun low => ?_
    refine (h.changeWord _ _).bind fun _ => ?_
    split
    · exact (Edit.keeps_liftM _).bind fun high => h.changeWord _ _
    · exact Edit.keeps_pure ()

theorem insert (h : StoreKeeps sizes P) (memory : Allocator) (i : Nat) (b : Bool) (hv : P v.store)
    (hn : sizes (wordsFor (v.length + 1))) :
    (insert memory i b).Yields v (fun _ w => P w.store) fun _ w => P w.store := by
  refine Edit.yields_congr (Edit.view_bind WordVec.length) ?_
  refine Edit.yields_liftM_bind (fun _ _ => ?_) fun _ _ => hv
  split
  · exact h.push memory b hv hn
  · refine Edit.Keeps.yields ((h.setLength memory hn).bind fun _ => ?_) hv
    refine Edit.Keeps.bind (Edit.keeps_visitDown (fun k => ?_) _ _) fun _ => ?_
    · exact (Edit.keeps_liftM _).bind fun _ => (Edit.keeps_inspect _).bind fun _ => h.changeWord _ _
    · exact (Edit.keeps_liftM _).bind fun _ => h.changeWord _ _

theorem remove (h : StoreKeeps sizes P) (i : Nat) (hv : P v.store)
    (hn : sizes (wordsFor (v.length - 1))) :
    (remove i).Yields v (fun _ w => P w.store) fun _ w => P w.store := by
  have hread : (Edit.inspect fun v : WordVec S => v.bit i).Keeps fun w => P w.store :=
    Edit.keeps_inspect _
  have hmove : (visitUp (wordOf i + 1) (wordsFor v.length - (wordOf i + 1)) fun k => do
      let w ← Edit.inspect fun v : WordVec S => WordStore.word v.store k
      WordVec.modifyWord (← minus k 1) (· ||| (w &&& 1#64) <<< topPlace)
      WordVec.modifyWord k fun _ => w >>> 1 : Edit (WordVec S) Unit).Keeps fun w => P w.store := by
    refine Edit.keeps_visitUp (fun k => ?_) _ _
    refine (Edit.keeps_inspect _).bind fun w => (Edit.keeps_liftM _).bind fun lower => ?_
    exact (h.changeWord _ _).bind fun _ => h.changeWord _ _
  refine Edit.yields_congr (Edit.view_bind WordVec.length) ?_
  refine (hread.yields hv).bind fun old w hw => ?_
  split
  · rename_i hend
    rw [show i = v.length - 1 by omega]
    exact ((h.shorten hn).bind fun _ => Edit.keeps_pure old).yields hw
  · refine ((h.changeWord _ _).yields hw).bind fun _ x hx => ?_
    refine (hmove.yields hx).bind fun _ y hy => ?_
    refine Edit.yields_liftM_bind (fun n hshorter => ?_) fun _ _ => hy
    rw [minus_eq_ok hshorter]
    exact ((h.cutTo hn).bind fun _ => Edit.keeps_pure old).yields hy

/-! ### All operations -/

theorem set (h : StoreKeeps sizes P) (i : Nat) (b : Bool) :
    (set i b).Keeps fun v => P v.store :=
  (Edit.keeps_inspect _).bind fun old => (h.changeWord _ _).bind fun _ => Edit.keeps_pure old

theorem setBits (h : StoreKeeps sizes P) (lo width : Nat) (value : Word) :
    (setBits lo width value).Keeps fun v => P v.store := by
  refine (Edit.keeps_inspect _).bind fun _ => (Edit.keeps_liftM _).bind fun _ => ?_
  split
  · exact Edit.keeps_pure ()
  · refine (Edit.keeps_liftM _).bind fun field => (Edit.keeps_liftM _).bind fun bits => ?_
    refine (h.changeWord _ _).bind fun _ => (Edit.keeps_liftM _).bind fun stored => ?_
    split
    · refine (Edit.keeps_liftM _).bind fun field => (Edit.keeps_liftM _).bind fun bits => ?_
      exact h.changeWord _ _
    · exact Edit.keeps_pure ()

theorem fillRange (h : StoreKeeps sizes P)
    (hfill : ∀ lo hi value, (WordStore.fill lo hi value).Keeps P) (lo hi : Nat) (b : Bool) :
    (fillRange lo hi b).Keeps fun v => P v.store :=
  keeps_onRange lo hi (fun _ _ => h.changeWord _ _) fun k l => keeps_store (hfill k l _)

theorem flipRange (h : StoreKeeps sizes P) (lo hi : Nat) :
    (flipRange lo hi).Keeps fun v => P v.store :=
  keeps_onRange lo hi (fun _ _ => h.changeWord _ _) fun k l =>
    Edit.keeps_visitUp (fun k => h.changeWord k _) k (l - k)

theorem combine (h : StoreKeeps sizes P) (op : Connective) (other : Source) :
    (combine op other).Keeps fun v => P v.store := by
  refine (Edit.keeps_view _).bind fun n => Edit.keeps_visitWindows (fun lo hi => ?_) 0 n
  exact (Edit.keeps_liftM _).bind fun bits => h.changeWord _ _

theorem append (h : StoreKeeps (fun _ => True) P) (memory : Allocator) (other : Source) :
    (append memory other).Keeps fun v => P v.store := by
  refine (Edit.keeps_view _).bind fun n => (Edit.keeps_liftM _).bind fun _ => ?_
  refine (h.ensureCapacity memory trivial).bind fun _ => ?_
  refine Edit.keeps_visitWindows (fun lo hi => (Edit.keeps_liftM _).bind fun w => ?_) 0 _
  exact Edit.keeps_of_yields fun v hv => h.appendBits memory w hv trivial

/-- What the store keeps, at every size, every operation keeps. -/
theorem kept (h : StoreKeeps (fun _ => True) P)
    (hfill : ∀ lo hi value, (WordStore.fill lo hi value).Keeps P) :
    Kept fun v : WordVec S => P v.store where
  set := h.set
  setBits := h.setBits
  fillRange := h.fillRange hfill
  flipRange := h.flipRange
  combine op other _ := h.combine op other
  setLength memory _ := h.setLength memory trivial
  insert memory i b := Edit.keeps_of_yields fun _ hv => h.insert memory i b hv trivial
  remove i := Edit.keeps_of_yields fun _ hv => h.remove i hv trivial
  push memory b := Edit.keeps_of_yields fun _ hv => h.push memory b hv trivial
  appendBits memory w _ := Edit.keeps_of_yields fun _ hv => h.appendBits memory w hv trivial
  append := h.append

end StoreKeeps

variable [LawfulStore S] [LawfulRoom S] {v : WordVec S} {bits : List Bool}

theorem storeKeeps_fits : StoreKeeps (fun _ => True) (LawfulRoom.Fits (S := S)) where
  modifyWord := LawfulRoom.modifyWord
  reserve memory n _ := LawfulRoom.reserve memory n
  resize _ hstore := LawfulRoom.resize _ hstore

/-- Words that are cut off leave their room. -/
theorem fits_of_ofBuffer {words : Buffer Word} {n : Nat} (hwords : words.Fits)
    (h : ofBuffer words n = .ok v) : LawfulRoom.Fits v.store := by
  obtain ⟨_, -, h⟩ := bind_eq_ok h
  cases h
  refine LawfulRoom.ofBuffer (Nat.le_trans ?_ hwords)
  rw [Buffer.truncate, Buffer.size, Array.size_shrink]
  exact Nat.min_le_right _ _

/-- Whatever is made and done, the words lie in their room. -/
theorem steady_fits : Steady fun v : WordVec S => LawfulRoom.Fits v.store := by
  have hkept : Kept fun v : WordVec S => LawfulRoom.Fits v.store :=
    storeKeeps_fits.kept LawfulRoom.fill
  have hreserve : ∀ memory n,
      (reserve memory n).Keeps fun v : WordVec S => LawfulRoom.Fits v.store :=
    fun memory n => keeps_store (LawfulRoom.reserve memory _)
  refine ⟨⟨hkept, hreserve⟩, LawfulRoom.empty, ?_, fits_of_ofBuffer, LawfulRoom.duplicate,
    LawfulRoom.shrink⟩
  intro memory n v h
  obtain ⟨u, hu, h⟩ := bind_eq_ok h
  obtain ⟨t, ht, hu⟩ := bind_eq_ok hu
  have hfill : (onStore (WordStore.fill 0 (wordsFor n) (BitVec.allOnes 64))).Keeps
      fun v : WordVec S => LawfulRoom.Fits v.store := keeps_store (LawfulRoom.fill _ _ _)
  have hroom := (hreserve memory n).reword.build LawfulRoom.empty ht
  have hzeros := (hkept.setLength memory n).build hroom hu
  exact (hfill.bind fun _ => storeKeeps_fits.clearTail).build hzeros h

/-! ## Room made in advance -/

/-- A store is in good order, with all the room and in all the memory of `made`. -/
structure HasRoomOf (made store : S) : Prop where
  exists_words : ∃ words, LawfulStore.Holds store words
  fits : LawfulRoom.Fits store
  sameRoom : WordStore.SameRoom made store

/-- Within the room of a store nothing is asked for. -/
theorem storeKeeps_room (made : S) :
    StoreKeeps (· ≤ WordStore.capacity made) (HasRoomOf made) where
  modifyWord i f := by
    intro store h
    obtain ⟨words, hwords⟩ := h.exists_words
    rcases Nat.lt_or_ge i words.length with hlt | hpast
    · obtain ⟨store', hrun, hstore'⟩ := LawfulStore.modifyWord_eq f hwords hlt
      have hfits := LawfulRoom.modifyWord i f store h.fits
      rw [Edit.after_of_ok hrun] at hfits ⊢
      exact ⟨⟨_, hstore'⟩, hfits,
        h.sameRoom.trans (LawfulRoom.sameRoom_modifyWord hwords h.fits hrun)⟩
    · obtain ⟨cause, hrun⟩ := LawfulStore.modifyWord_past f hwords hpast
      rwa [Edit.after_of_error hrun]
  reserve memory n hn := by
    intro store h
    rw [← h.sameRoom.capacity_eq] at hn
    rwa [Edit.after_of_ok (LawfulRoom.reserve_of_le memory hn)]
  resize := by
    intro store n hn h
    obtain ⟨words, hwords⟩ := h.exists_words
    rw [← h.sameRoom.capacity_eq] at hn
    exact ⟨⟨_, LawfulStore.resize n hwords⟩, LawfulRoom.resize n h.fits,
      h.sameRoom.trans (LawfulRoom.sameRoom_resize hwords h.fits hn)⟩

/-- A vector holds bits in the room and the memory of `made`. -/
structure Roomy (made : S) (v : WordVec S) (bits : List Bool) : Prop where
  holds : v.Holds bits
  room : HasRoomOf made v.store

namespace Roomy

variable {made : S} {memory : Allocator} {n : Nat} {failed : Failure → WordVec S → Prop}

theorem reserve (h : v.Roomy made bits) (memory : Allocator)
    (hn : wordsFor n ≤ WordStore.capacity made) : reserve memory n v = .ok () v := by
  rw [← h.room.sameRoom.capacity_eq] at hn
  exact (editsPiece_onStore _ v).ok (LawfulRoom.reserve_of_le memory hn)

theorem ensureCapacity (h : v.Roomy made bits) (memory : Allocator)
    (hn : wordsFor n ≤ WordStore.capacity made) : ensureCapacity memory n v = .ok () v :=
  Edit.reword_ok (h.reserve memory hn)

/-- What is known of the bits and what is known of the room hold together. -/
theorem yields_and {edit : Edit (WordVec S) Unit} {bits' : List Bool}
    {failed' : Failure → WordVec S → Prop}
    (hholds : edit.Yields v (fun _ w => w.Holds bits') failed)
    (hroom : edit.Yields v (fun _ w => HasRoomOf made w.store) failed') :
    edit.Yields v (fun _ w => w.Roomy made bits') failed :=
  (hholds.and hroom).imp fun _ _ hw => ⟨hw.1, hw.2⟩

theorem setLength (h : v.Roomy made bits) (hn : wordsFor n ≤ WordStore.capacity made) :
    (setLength memory n).Yields v (fun _ w => w.Roomy made (resized n false bits)) failed :=
  yields_and (h.holds.setLength fun _ => Edit.yields_of_ok (h.ensureCapacity memory hn) h.holds)
    (((storeKeeps_room made).setLength memory hn).yields h.room)

theorem push (h : v.Roomy made bits) (b : Bool)
    (hn : wordsFor (bits.length + 1) ≤ WordStore.capacity made) :
    (push memory b).Yields v (fun _ w => w.Roomy made (bits ++ [b])) failed :=
  yields_and (h.holds.push b (Edit.yields_of_ok (h.ensureCapacity memory hn) h.holds))
    ((storeKeeps_room made).push memory b h.room (h.holds.length_eq ▸ hn))

theorem appendBits (h : v.Roomy made bits) (w : Word) {width : Nat} (hwidth : width ≤ 64)
    (hn : wordsFor (bits.length + width) ≤ WordStore.capacity made) :
    (appendBits memory w width).Yields v
      (fun _ x => x.Roomy made (bits ++ (List.range width).map w.getLsbD)) failed :=
  yields_and
    (h.holds.appendBits w hwidth (Edit.yields_of_ok (h.ensureCapacity memory hn) h.holds))
    ((storeKeeps_room made).appendBits memory w h.room (h.holds.length_eq ▸ hn))

theorem insert (h : v.Roomy made bits) {i : Nat} (hle : i ≤ bits.length) (b : Bool)
    (hn : wordsFor (bits.length + 1) ≤ WordStore.capacity made) :
    (insert memory i b).Yields v (fun _ w => w.Roomy made (bits.insertIdx i b)) failed :=
  yields_and (h.holds.insert hle b (Edit.yields_of_ok (h.ensureCapacity memory hn) h.holds))
    ((storeKeeps_room made).insert memory i b h.room (h.holds.length_eq ▸ hn))

/-- What is left by a removal has the room that there was before. -/
theorem remove (h : v.Roomy made bits) {i : Nat} (hi : i < bits.length)
    (hn : wordsFor (bits.length - 1) ≤ WordStore.capacity made) :
    (remove i).Yields v (fun old w => old = bits[i] ∧ w.Roomy made (bits.eraseIdx i)) failed := by
  have hplan := Plan.remove_of_some (List.getElem?_eq_getElem hi)
  obtain ⟨w, hrun, hw⟩ := (follows_remove i).exists_ok h.holds hplan
  have hroom := (storeKeeps_room made).remove i h.room (h.holds.length_eq ▸ hn)
  exact Edit.yields_of_ok hrun ⟨rfl, hw, hroom.of_ok hrun⟩

/-- Room for all of a source is room for each word of it. -/
theorem append (h : v.Roomy made bits) {source : Source} {other : List Bool}
    (hsource : source.Reads other) {n : Nat} (hsum : plus bits.length other.length = .ok n)
    (hn : wordsFor (bits.length + other.length) ≤ WordStore.capacity made) :
    (append memory source).Yields v (fun _ w => w.Roomy made (bits ++ other)) failed := by
  refine h.holds.append hsource (fun _ herror => nomatch hsum.symm.trans herror)
    (Edit.yields_of_ok (h.ensureCapacity memory hn) h) ?_
  intro w front x width hw hwidth hfront
  exact hw.appendBits x hwidth (Nat.le_trans (wordsFor_mono hfront) hn)

theorem extendBits (h : v.Roomy made bits) {other : List Bool} {n : Nat}
    (hsum : plus bits.length other.length = .ok n)
    (hn : wordsFor (bits.length + other.length) ≤ WordStore.capacity made) :
    (extendBits memory other).Yields v (fun _ w => w.Roomy made (bits ++ other)) failed := by
  refine Edit.yields_congr (Edit.view_bind WordVec.length) ?_
  rw [h.holds.length_eq]
  apply Edit.yields_liftM_bind_ok hsum
  rw [plus_eq_ok hsum]
  refine Edit.yields_bind_ok (h.ensureCapacity memory hn) ?_
  refine (Edit.yields_forM (fun rest w => ∃ front, bits ++ other = front ++ rest ∧
    w.Roomy made front) ⟨bits, rfl, h⟩ ?_).imp ?_
  · rintro b rest w ⟨front, hfront, hw⟩
    have hlength := congrArg List.length hfront
    rw [List.length_append, List.length_append, List.length_cons] at hlength
    have hroom : wordsFor (front.length + 1) ≤ WordStore.capacity made :=
      Nat.le_trans (wordsFor_mono (by omega)) hn
    refine (hw.push b hroom).imp fun _ x hx => ⟨front ++ [b], ?_, hx⟩
    rw [hfront, List.append_assoc, List.singleton_append]
  · rintro _ w ⟨front, hfront, hw⟩
    rwa [hfront, List.append_nil]

end Roomy

end WordVec

end PackedBits
