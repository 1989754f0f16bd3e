import PackedBits.Proofs.FieldListLaw
import PackedBits.Proofs.PositionSetLaw
import PackedBits.Proofs.Reach
import PackedBits.Proofs.SegmentRoom
import PackedBits.Proofs.WordRoom

/-!
# Growth happens whole or not at all

Whatever may make a vector of words longer begins with one request for all the
room it needs. Where that request is refused, the operation fails and the bits are
as they were, also when some of the segments have got their room already; where it
is granted, no later step asks for more, so the operation is carried out to its
end. `StoreKind.growth_whole` is that statement for the stores in one piece and in
segments.
-/

namespace PackedBits

namespace WordVec

/-- A word more is needed only behind a full one. -/
theorem bitOf_eq_zero_of_wordsFor_lt {n : Nat} (h : wordsFor n < wordsFor (n + 1)) :
    bitOf n = 0 := by
  rw [wordsFor_succ] at h
  split at h
  · assumption
  · exact absurd h (Nat.lt_irrefl _)

variable {S : Type} [WordStore S] {memory : Allocator} {m n : Nat}

/-! ## Operations that begin with a request -/

/-- On a vector of `m` bits, an edit begins with a request for room for `n`. -/
def Requests (memory : Allocator) (n m : Nat) {α : Type} (edit : Edit (WordVec S) α) : Prop :=
  ∃ next : Unit → Edit (WordVec S) α, ∀ w, w.length = m →
    edit w = (ensureCapacity memory n >>= next) w

theorem Requests.congr {α : Type} {edit edit' : Edit (WordVec S) α}
    (h : Requests memory n m edit) (hsame : ∀ w, w.length = m → edit' w = edit w) :
    Requests memory n m edit' := by
  obtain ⟨next, hnext⟩ := h
  exact ⟨next, fun w hw => (hsame w hw).trans (hnext w hw)⟩

theorem Requests.bind {α β : Type} {edit : Edit (WordVec S) α}
    (h : Requests memory n m edit) (next : α → Edit (WordVec S) β) :
    Requests memory n m (edit >>= next) := by
  obtain ⟨first, hfirst⟩ := h
  refine ⟨fun a => first a >>= next, fun w hw => ?_⟩
  rw [← bind_assoc]
  exact Edit.bind_congr (hfirst w hw)

theorem Requests.discard {α : Type} {edit : Edit (WordVec S) α}
    (h : Requests memory n m edit) : Requests memory n m (discard edit) := by
  refine (h.bind fun _ => pure ()).congr fun w _ => ?_
  exact congrFun (map_eq_pure_bind (fun _ => PUnit.unit) edit) w

theorem requests_setLength (h : m < n) :
    Requests memory n m (setLength memory n : Edit (WordVec S) Unit) := by
  refine ⟨fun _ => cutTo n, fun w hw => ?_⟩
  rw [setLength, Edit.view_bind, hw, if_pos h]

theorem requests_push (h : bitOf m = 0) (b : Bool) :
    Requests memory (m + 1) m (push memory b : Edit (WordVec S) Unit) := by
  apply Exists.intro
  intro w hw
  rw [push, Edit.view_bind, hw]
  simp only [if_pos h]
  rfl

theorem requests_insert {i : Nat} (h : bitOf m = 0) (hle : i ≤ m) (b : Bool) :
    Requests memory (m + 1) m (insert memory i b : Edit (WordVec S) Unit) := by
  have hcheck : checkInsertIndex i m = .ok () := require_eq_ok_iff.mpr hle
  by_cases hend : i = m
  · refine (requests_push h b).congr fun w hw => ?_
    rw [insert, Edit.view_bind, hw, Edit.bind_ok (Edit.liftM_ok hcheck), if_pos hend]
  · apply Requests.congr ((requests_setLength (Nat.lt_succ_self m)).bind _)
    intro w hw
    rw [insert, Edit.view_bind, hw, Edit.bind_ok (Edit.liftM_ok hcheck), if_neg hend]

theorem requests_appendBits (w : Word) {count : Nat} (hsome : 0 < count) (hcount : count ≤ 64) :
    Requests memory (m + count) m (appendBits memory w count : Edit (WordVec S) Unit) := by
  have hlonger : m < m + count := Nat.lt_add_of_pos_right hsome
  apply Requests.congr ((requests_setLength hlonger).bind _)
  intro v hv
  rw [appendBits, Edit.view_bind, hv,
    Edit.bind_ok (Edit.liftM_ok (require_eq_ok_iff.mpr hcount)),
    if_neg (Nat.ne_of_gt hsome)]

theorem requests_append {other : Source} (hsum : plus m other.length = .ok n) :
    Requests memory n m (append memory other : Edit (WordVec S) Unit) := by
  apply Exists.intro
  intro w hw
  rw [append, Edit.view_bind, hw, Edit.bind_ok (Edit.liftM_ok hsum)]

theorem requests_extendBits {bits : List Bool} (hsum : plus m bits.length = .ok n) :
    Requests memory n m (extendBits memory bits : Edit (WordVec S) Unit) := by
  apply Exists.intro
  intro w hw
  rw [extendBits, Edit.view_bind, hw, Edit.bind_ok (Edit.liftM_ok hsum)]

theorem requests_raise {i : Nat} (h : m ≤ i) :
    Requests memory (i + 1) m (PositionSet.raise memory i : Edit (WordVec S) Bool) := by
  apply Requests.congr ((requests_setLength (Nat.lt_succ_of_le h)).bind _)
  intro w hw
  have hlength : Bits.length w = m := hw
  rw [PositionSet.raise, Edit.view_bind, hlength]
  simp only [if_pos h]
  rfl

/-! ## What a request decides -/

variable [LawfulStore S] [LawfulRoom S] {v : WordVec S} {bits bits' : List Bool}

/-- A vector holds bits, and its words lie in the room there is. -/
structure Fitting (v : WordVec S) (bits : List Bool) : Prop where
  holds : v.Holds bits
  fits : LawfulRoom.Fits v.store

/-- Room for `n` bits decides: an edit that is refused it fails and leaves what the
request left, and one that is granted it is carried out within that room. -/
structure Decides (memory : Allocator) (n : Nat) (edit : Edit (WordVec S) Unit) (v : WordVec S)
    (refusal : Failure) (bits' : List Bool) : Prop where
  refused {failure : Failure} {w : WordVec S} :
    reserve memory n v = .error failure w → edit v = .error refusal w
  granted {made : WordVec S} : reserve memory n v = .ok () made →
    edit.Yields v (fun _ w => w.Roomy made.store bits') fun _ _ => False

theorem fitting_empty : (empty : WordVec S).Fitting [] := ⟨holds_empty, LawfulRoom.empty⟩

namespace Fitting

theorem wordsFor_le_capacity (h : v.Fitting bits) :
    wordsFor bits.length ≤ WordStore.capacity v.store := by
  obtain ⟨words, hwords, hcount, -⟩ := Image.exists_words h.holds
  exact hcount ▸ LawfulRoom.length_le hwords h.fits

theorem roomy (h : v.Fitting bits) : v.Roomy v.store bits := by
  obtain ⟨words, hwords, -⟩ := Image.exists_words h.holds
  exact ⟨h.holds, ⟨words, hwords⟩, h.fits, rfl, rfl⟩

theorem reserve_of_le (h : v.Fitting bits) (memory : Allocator)
    (hn : wordsFor n ≤ wordsFor bits.length) : reserve memory n v = .ok () v :=
  h.roomy.reserve memory (Nat.le_trans hn h.wordsFor_le_capacity)

/-- A request that is granted makes the room that it is for. -/
theorem made (h : v.Fitting bits) {made : WordVec S} (hrun : reserve memory n v = .ok () made) :
    made.Roomy made.store bits ∧ wordsFor n ≤ WordStore.capacity made.store := by
  have hholds : made.Holds bits := (Image.reserve h.holds memory n).of_ok hrun
  have hfits := steady_fits.reserve memory n v h.fits
  obtain ⟨words, hwords, -⟩ := Image.exists_words h.holds
  have hroom : (reserve memory n).Yields v
      (fun _ w => wordsFor n ≤ WordStore.capacity w.store) fun _ _ => True := by
    refine (editsPiece_onStore _ v).yields ?_
    rcases hstore : WordStore.reserve memory (wordsFor n) v.store with _ | _
    · exact Edit.yields_of_ok hstore (LawfulRoom.le_capacity hwords h.fits hstore)
    · exact Edit.yields_of_error hstore trivial
  rw [Edit.after_of_ok hrun] at hfits
  exact ⟨Fitting.roomy ⟨hholds, hfits⟩, hroom.of_ok hrun⟩

/-- An edit that begins with a request, unless the vector has the words it needs,
is decided by it. -/
theorem decides (h : v.Fitting bits) {edit : Edit (WordVec S) Unit}
    (hrequests : wordsFor bits.length < wordsFor n → Requests memory n bits.length edit)
    (hrun : ∀ made : WordVec S, made.Roomy made.store bits →
      wordsFor n ≤ WordStore.capacity made.store →
      edit.Yields made (fun _ w => w.Roomy made.store bits') fun _ _ => False) :
    Decides memory n edit v (.cannotGrow n) bits' := by
  rcases Nat.lt_or_ge (wordsFor bits.length) (wordsFor n) with hless | henough
  · obtain ⟨next, hnext⟩ := hrequests hless
    have hedit := hnext v h.holds.length_eq
    constructor
    · intro failure w hrefused
      have hfailure := ((Image.reserve h.holds memory n).of_error hrefused).1
      have hask : ensureCapacity memory n v = .error (.cannotGrow n) w := by
        rw [ensureCapacity, Edit.reword_error hrefused, hfailure]
      exact hedit.trans (Edit.bind_error hask)
    · intro made hgranted
      obtain ⟨hmade, hroom⟩ := h.made hgranted
      have hask : ensureCapacity memory n v = .ok () made := Edit.reword_ok hgranted
      have hagain : ensureCapacity memory n made = .ok () made := hmade.ensureCapacity memory hroom
      have hsame : edit v = edit made := by
        rw [hedit, Edit.bind_ok hask, hnext made hmade.holds.length_eq, Edit.bind_ok hagain]
      exact Edit.yields_congr hsame (hrun made hmade hroom)
  · have hthere := h.reserve_of_le memory henough
    constructor
    · intro failure w hrefused
      cases hthere.symm.trans hrefused
    · intro made hgranted
      obtain ⟨hmade, hroom⟩ := h.made hgranted
      cases hthere.symm.trans hgranted
      exact hrun v hmade hroom

end Fitting

theorem Decides.congr {edit edit' : Edit (WordVec S) Unit} {refusal : Failure}
    (h : Decides memory n edit v refusal bits') (hsame : edit' v = edit v) :
    Decides memory n edit' v refusal bits' where
  refused hrefused := hsame.trans (h.refused hrefused)
  granted hgranted := Edit.yields_congr hsame (h.granted hgranted)

/-- Within the room, raising a bit asks for nothing. -/
theorem Roomy.raise [LawfulFill S] {made : S} (h : v.Roomy made bits) {i : Nat}
    (hn : wordsFor (i + 1) ≤ WordStore.capacity made) {failed : Failure → WordVec S → Prop} :
    (discard (PositionSet.raise memory i) : Edit (WordVec S) Unit).Yields v
      (fun _ w => w.Roomy made ((resized (max bits.length (i + 1)) false bits).set i true))
      failed := by
  refine Edit.Yields.discard (Edit.Yields.imp (PositionSet.yields_raise h h.holds.length_eq
    (fun _ => h.setLength hn) ?_) fun _ _ hw => hw.2)
  intro w front old hw hold
  have hroom : (do return !(← MutableBits.set i true) : Edit (WordVec S) Bool).Keeps
      fun x => HasRoomOf made x.store :=
    ((storeKeeps_room made).set i true).bind fun _ => Edit.keeps_pure _
  refine ((PositionSet.yields_put WordVec.lawful hw.holds hold).and (hroom.yields hw.room)).imp ?_
  intro fresh x hx
  exact ⟨hx.1.1, hx.1.2, hx.2⟩

end WordVec

/-! ## Growing -/

open PositionSet (Cut)

/-- What may make a vector longer. -/
inductive Growth where
  | reserve (n : Nat)
  | ensureCapacity (n : Nat)
  | setLength (n : Nat)
  | push (b : Bool)
  | insert (i : Nat) (b : Bool)
  | appendBits (w : Word) (count : Nat)
  | append (other : Source) (bits : List Bool) (reads : other.Reads bits)
  | extendBits (bits : List Bool)
  | insertPosition (cuts : List Cut) (i : Nat)
  | resizeNumbers (width n : Nat)

namespace Growth

/-- Grows a vector of words. -/
def run {S : Type} [WordStore S] (memory : Allocator) : Growth → Edit (WordVec S) Unit
  | reserve n => WordVec.reserve memory n
  | ensureCapacity n => WordVec.ensureCapacity memory n
  | setLength n => ResizableBits.setLength memory n
  | push b => ResizableBits.push memory b
  | insert i b => ResizableBits.insert memory i b
  | appendBits w count => ResizableBits.appendBits memory w count
  | append other _ _ => ResizableBits.append memory other
  | extendBits bits => WordVec.extendBits memory bits
  | insertPosition cuts i => discard (PositionSet.inside cuts (PositionSet.insert memory i))
  | resizeNumbers width n => FieldList.within width (FieldList.resize memory n)

/-- The number of bits that a vector of `length` bits needs room for, if a machine word
counts them. -/
def room (length : Nat) : Growth → Answer Nat
  | reserve n => .ok n
  | ensureCapacity n => .ok n
  | setLength n => .ok n
  | push _ => .ok (length + 1)
  | insert _ _ => .ok (length + 1)
  | appendBits _ count => .ok (length + count)
  | append other _ _ => plus length other.length
  | extendBits bits => plus length bits.length
  | insertPosition _ i => .ok (i + 1)
  | resizeNumbers width n => times n width

/-- The failure of a growth that is refused the room for `n` bits. -/
def refusal (n : Nat) : Growth → Failure
  | reserve _ => .allocation
  | _ => .cannotGrow n

/-- What a growth does to the bits. -/
def plan : Growth → Plan Unit
  | reserve _ => fun bits => .ok ((), bits)
  | ensureCapacity _ => fun bits => .ok ((), bits)
  | setLength n => Plan.setLength n
  | push b => Plan.push b
  | insert i b => Plan.insert i b
  | appendBits w count => Plan.appendBits w count
  | append _ other _ => Plan.append other
  | extendBits other => Plan.append other
  | insertPosition cuts i => fun bits => do
    let s := cuts.foldl Cut.apply (PositionSet.of bits)
    require (s.lower ≤ i ∧ i < s.upper) (.outOfView i s.lower s.upper)
    return ((), (resized (max bits.length (i + 1)) false bits).set i true)
  | resizeNumbers width n => fun bits => do
    FieldList.checkWidth width
    return ((), resized (n * width) false bits)

/-- The bounds that a plan checks are those of the set. -/
theorem plan_insertPosition {V : Type} (v : V) (cuts : List Cut) (i : Nat) (bits : List Bool) :
    (insertPosition cuts i).plan bits =
      (if PositionSet.Admitted cuts i then
        .ok ((), (resized (max bits.length (i + 1)) false bits).set i true)
      else .error (.outOfView i (cuts.foldl Cut.apply (PositionSet.of v)).lower
        (cuts.foldl Cut.apply (PositionSet.of v)).upper)) := by
  obtain ⟨hlower, hupper⟩ := PositionSet.bounds_foldl_apply cuts (s := PositionSet.of bits)
    (t := PositionSet.of v) rfl rfl
  have hiff := PositionSet.admitted_iff cuts v i
  simp only [plan, hlower, hupper, require]
  by_cases hin : PositionSet.Admitted cuts i
  · rw [if_pos hin, if_pos (hiff.mpr hin)]
    rfl
  · rw [if_neg hin, if_neg fun hbounds => hin (hiff.mp hbounds)]
    rfl

section

variable {S : Type} [WordStore S] [LawfulStore S] {memory : Allocator} {v : WordVec S}
  {bits bits' : List Bool} {failure : Failure}

/-- A growth that its plan rejects changes nothing. -/
theorem run_of_error (h : v.Holds bits) {g : Growth} (hplan : g.plan bits = .error failure) :
    g.run memory v = .error failure v := by
  cases g with
  | insert i b => exact (WordVec.follows_insert memory i b).error h hplan
  | appendBits w count => exact (WordVec.follows_appendBits memory w count).error h hplan
  | insertPosition cuts i =>
    rw [plan_insertPosition v] at hplan
    split at hplan
    · cases hplan
    · cases hplan
      exact Edit.map_error (PositionSet.inside_insert_error memory v ‹_›)
  | resizeNumbers width n =>
    rcases hwidth : FieldList.checkWidth width with wrong | _
    · rw [plan, hwidth] at hplan
      cases hplan
      simp only [run, FieldList.within, hwidth]
    · rw [plan, hwidth] at hplan
      cases hplan
  | reserve n => cases hplan
  | ensureCapacity n => cases hplan
  | setLength n => cases hplan
  | push b => cases hplan
  | append other bits reads => cases hplan
  | extendBits bits => cases hplan

/-- A growth to more bits than a machine word counts changes nothing. -/
theorem run_of_room_error (h : v.Holds bits) {g : Growth} (hplan : g.plan bits = .ok ((), bits'))
    (hroom : g.room bits.length = .error failure) : g.run memory v = .error failure v := by
  cases g with
  | append other bits reads =>
    show WordVec.append memory other v = _
    rw [WordVec.append, Edit.view_bind, h.length_eq]
    exact Edit.bind_error (Edit.liftM_error hroom)
  | extendBits bits =>
    show WordVec.extendBits memory bits v = _
    rw [WordVec.extendBits, Edit.view_bind, h.length_eq]
    exact Edit.bind_error (Edit.liftM_error hroom)
  | resizeNumbers width n =>
    obtain ⟨_, hwidth, -⟩ := bind_eq_ok hplan
    refine ((FieldList.editsPiece_within _ hwidth v).trans
      (FieldList.editsPiece_resize memory n ⟨v, width⟩)).error ?_
    exact Edit.bind_error (Edit.liftM_error hroom)
  | reserve n => cases hroom
  | ensureCapacity n => cases hroom
  | setLength n => cases hroom
  | push b => cases hroom
  | insert i b => cases hroom
  | appendBits w count => cases hroom
  | insertPosition cuts i => cases hroom

variable [LawfulRoom S]

theorem decides_setLength (h : v.Fitting bits) (memory : Allocator) (n : Nat) :
    WordVec.Decides memory n (WordVec.setLength memory n) v (.cannotGrow n)
      (resized n false bits) := by
  refine h.decides (fun hless => WordVec.requests_setLength (lt_of_wordsFor_lt hless)) ?_
  exact fun _ hmade hn => hmade.setLength hn

theorem decides_raise [LawfulFill S] (h : v.Fitting bits) (memory : Allocator) (i : Nat) :
    WordVec.Decides memory (i + 1) (discard (PositionSet.raise memory i)) v
      (.cannotGrow (i + 1)) ((resized (max bits.length (i + 1)) false bits).set i true) := by
  refine h.decides (fun hless => ?_) fun _ hmade hn => hmade.raise hn
  exact (WordVec.requests_raise (Nat.le_of_lt_succ (lt_of_wordsFor_lt hless))).discard

/-- Room for what a growth needs decides over it. -/
theorem decides [LawfulFill S] (h : v.Fitting bits) (memory : Allocator) {g : Growth} {n : Nat}
    (hplan : g.plan bits = .ok ((), bits')) (hroom : g.room bits.length = .ok n) :
    WordVec.Decides memory n (g.run memory) v (g.refusal n) bits' := by
  cases g with
  | reserve n =>
    cases hplan
    cases hroom
    constructor
    · intro failure w hrefused
      rwa [((WordVec.Image.reserve h.holds memory n).of_error hrefused).1] at hrefused
    · exact fun hgranted => Edit.yields_of_ok hgranted (h.made hgranted).1
  | ensureCapacity n =>
    cases hplan
    cases hroom
    refine h.decides (fun _ => ⟨pure, fun w _ => by rw [bind_pure]; rfl⟩) fun _ hmade hn => ?_
    exact Edit.yields_of_ok (hmade.ensureCapacity memory hn) hmade
  | setLength n =>
    cases hplan
    cases hroom
    exact decides_setLength h memory n
  | push b =>
    cases hplan
    cases hroom
    refine h.decides (fun hless => WordVec.requests_push ?_ b) fun _ hmade hn => hmade.push b hn
    exact WordVec.bitOf_eq_zero_of_wordsFor_lt hless
  | insert i b =>
    obtain ⟨_, hcheck, hplan⟩ := bind_eq_ok hplan
    have hle := require_eq_ok_iff.mp hcheck
    cases hplan
    cases hroom
    refine h.decides (fun hless => WordVec.requests_insert ?_ hle b) fun _ hmade hn =>
      hmade.insert hle b hn
    exact WordVec.bitOf_eq_zero_of_wordsFor_lt hless
  | appendBits w count =>
    obtain ⟨_, hcheck, hplan⟩ := bind_eq_ok hplan
    have hcount := require_eq_ok_iff.mp hcheck
    cases hplan
    cases hroom
    refine h.decides (fun hless => WordVec.requests_appendBits w ?_ hcount) fun _ hmade hn =>
      hmade.appendBits w hcount hn
    exact Nat.lt_add_right_iff_pos.mp (lt_of_wordsFor_lt hless)
  | append source other reads =>
    cases hplan
    have hsum : plus bits.length other.length = .ok n := reads.length_eq ▸ hroom
    refine h.decides (fun _ => WordVec.requests_append hroom) fun _ hmade hn => ?_
    exact hmade.append reads hsum (plus_eq_ok hsum ▸ hn)
  | extendBits other =>
    cases hplan
    refine h.decides (fun _ => WordVec.requests_extendBits hroom) fun _ hmade hn => ?_
    exact hmade.extendBits hroom (plus_eq_ok hroom ▸ hn)
  | insertPosition cuts i =>
    rw [plan_insertPosition v] at hplan
    cases hroom
    split at hplan
    · cases hplan
      exact (decides_raise h memory i).congr
        (Edit.discard_congr (PositionSet.inside_insert_eq memory v ‹_›))
    · cases hplan
  | resizeNumbers width count =>
    obtain ⟨_, hwidth, hplan⟩ := bind_eq_ok hplan
    cases hplan
    rw [← times_eq_ok hroom]
    refine (decides_setLength h memory n).congr ?_
    have hrun := ((FieldList.editsPiece_within _ hwidth v).trans
      (FieldList.editsPiece_resize memory count ⟨v, width⟩)).run_eq
    exact hrun.trans (Edit.bind_ok (Edit.liftM_ok hroom))

end

end Growth

/-! ## All or nothing -/

namespace WordVec

variable {S : Type} [WordStore S] [LawfulStore S] [LawfulRoom S] [LawfulFill S]

theorem fits_of_ofBuffers {shift : Nat} {segments : Buffer (Buffer Word)} {n : Nat}
    {v : WordVec (Segmented shift)} (hsegments : ∀ segment ∈ segments.items, segment.Fits)
    (h : ofBuffers segments n = .ok v) : LawfulRoom.Fits v.store := by
  obtain ⟨store, hadopt, h⟩ := bind_eq_ok h
  obtain ⟨_, -, h⟩ := bind_eq_ok h
  cases h
  exact LawfulRoom.resize _ (Segmented.fits_of_adoptBuffers hsegments hadopt)

omit [LawfulFill S] in
theorem Fitting.setLength_or {v : WordVec S} {bits : List Bool} (h : v.Fitting bits)
    (memory : Allocator) (n : Nat) :
    (WordVec.setLength memory n).Yields v (fun _ w => w.Fitting (resized n false bits))
      fun failure w => failure.isRefusal = true ∧ w.Fitting bits :=
  (((steady_fits.kept.setLength memory n).yields h.fits).both
    (h.holds.setLength_or memory n)).mono (fun _ _ hw => ⟨hw.2, hw.1⟩)
      fun _ _ hw => ⟨hw.2.1, hw.2.2, hw.1⟩

/-- A source is put at the end whole, or the bits are as they were. -/
theorem Fitting.append_or {v : WordVec S} {bits other : List Bool} {source : Source}
    (h : v.Fitting bits) (memory : Allocator) (hsource : source.Reads other) :
    (WordVec.append memory source).Yields v (fun _ w => w.Fitting (bits ++ other))
      fun failure w => failure.isRefusal = true ∧ w.Fitting bits := by
  let g : Growth := .append source other hsource
  rcases hroom : g.room bits.length with failure | n
  · have hfailure : failure = .overflow .sum := plus_eq_error hroom
    exact Edit.yields_of_error (Growth.run_of_room_error h.holds (g := g) rfl hroom)
      ⟨hfailure ▸ rfl, h⟩
  have hdecides := Growth.decides h memory (g := g) rfl hroom
  have hfits := (steady_fits.reserve memory n).yields h.fits
  rcases hrun : reserve memory n v with ⟨_, made⟩ | ⟨failure, w⟩
  · refine (hdecides.granted hrun).mono (fun _ w hw => ⟨hw.holds, hw.room.fits⟩) ?_
    exact fun _ _ hfalse => hfalse.elim
  · have hholds := ((Image.reserve h.holds memory _).of_error hrun).2
    exact Edit.yields_of_error (hdecides.refused hrun) ⟨rfl, hholds, hfits.of_error hrun⟩

/-- What a growth is rejected, refused and granted leaves. -/
theorem Fitting.grows {v : WordVec S} {bits : List Bool} (h : v.Fitting bits)
    (memory : Allocator) (g : Growth) :
    Bits.toArray v = .ok bits.toArray ∧
      (∀ failure, g.plan bits = .error failure → g.run memory v = .error failure v) ∧
      ∀ bits', g.plan bits = .ok ((), bits') →
        (∀ failure, g.room v.length = .error failure → g.run memory v = .error failure v) ∧
        ∀ n, g.room v.length = .ok n →
          (∀ failure w, reserve memory n v = .error failure w →
            g.run memory v = .error (g.refusal n) w ∧ w.length = v.length ∧
              Bits.toArray w = .ok bits.toArray) ∧
          ∀ made, reserve memory n v = .ok () made →
            ∃ w, g.run memory v = .ok () w ∧ Bits.toArray w = .ok bits'.toArray ∧
              w.bytes = made.bytes := by
  have hlength : v.length = bits.length := h.holds.length_eq
  refine ⟨h.holds.reads.toArray_eq, fun failure hplan => g.run_of_error h.holds hplan, ?_⟩
  intro bits' hplan
  rw [hlength]
  refine ⟨fun failure hroom => Growth.run_of_room_error h.holds hplan hroom, fun n hroom => ?_⟩
  have hdecides := Growth.decides h memory hplan hroom
  constructor
  · intro failure w hrefused
    have hw : w.Holds bits := ((Image.reserve h.holds memory _).of_error hrefused).2
    exact ⟨hdecides.refused hrefused, hw.length_eq, hw.reads.toArray_eq⟩
  · intro made hgranted
    obtain ⟨_, w, hrun, hw⟩ := (hdecides.granted hgranted).exists_ok
    refine ⟨w, hrun, hw.holds.reads.toArray_eq, ?_⟩
    rw [bytes, bytes, hw.room.sameRoom.bytes_eq]

end WordVec

namespace StoreKind

/-- The stores whose room is known: the one in one piece and those in segments. -/
def BuiltIn : StoreKind → Prop
  | flat => True
  | segmented _ => True
  | other _ => False

/-- The stores whose room is known keep its contract, those made over segments
from outside too. -/
theorem exists_lawfulRoom {kind : StoreKind} (hkind : kind.BuiltIn) :
    ∃ room : LawfulRoom kind.Store, ∀ w, kind.Wrapped w → room.Fits w.store := by
  cases kind with
  | flat => exact ⟨inferInstanceAs (LawfulRoom Flat), fun _ hw => hw.elim⟩
  | segmented shift =>
    refine ⟨inferInstanceAs (LawfulRoom (Segmented shift)), fun w hw => ?_⟩
    obtain ⟨segments, n, hsegments, hofBuffers⟩ := hw
    exact WordVec.fits_of_ofBuffers hsegments hofBuffers
  | other S => exact hkind.elim

/-- Where the room of the store is known, the words of a vector that can be made lie in it. -/
theorem Reached.exists_room {kind : StoreKind} {v : WordVec kind.Store} (hv : kind.Reached v)
    (hkind : kind.BuiltIn) : ∃ room : LawfulRoom kind.Store, room.Fits v.store := by
  obtain ⟨room, hwrapped⟩ := exists_lawfulRoom hkind
  exact ⟨room, WordVec.Reached.steady hv WordVec.steady_fits hwrapped⟩

/-- A vector that can be made grows whole or not at all. An argument that is not
admitted changes nothing, and neither does a growth to more bits than a machine word
counts. Otherwise one request for room decides: where it is refused, the growth fails and
every bit is as before; where it is granted, the growth is carried out, a source to its
last bit, and takes no more memory than the request was given. -/
theorem growth_whole {kind : StoreKind} (hkind : kind.BuiltIn) {v : WordVec kind.Store}
    (hv : kind.Reached v) (memory : Allocator) (g : Growth) :
    ∃ bits : List Bool, Bits.toArray v = .ok bits.toArray ∧
      (∀ failure, g.plan bits = .error failure → g.run memory v = .error failure v) ∧
      ∀ bits', g.plan bits = .ok ((), bits') →
        (∀ failure, g.room v.length = .error failure → g.run memory v = .error failure v) ∧
        ∀ n, g.room v.length = .ok n →
          (∀ failure w, WordVec.reserve memory n v = .error failure w →
            g.run memory v = .error (g.refusal n) w ∧ w.length = v.length ∧
              Bits.toArray w = .ok bits.toArray) ∧
          ∀ made, WordVec.reserve memory n v = .ok () made →
            ∃ w, g.run memory v = .ok () w ∧ Bits.toArray w = .ok bits'.toArray ∧
              w.bytes = made.bytes := by
  obtain ⟨room, hwrapped⟩ := exists_lawfulRoom hkind
  obtain ⟨bits, hbits⟩ := hv.exists_bits
  have hfits : LawfulRoom.Fits v.store :=
    WordVec.Reached.steady hv WordVec.steady_fits hwrapped
  have hfitting : v.Fitting bits := ⟨hbits, hfits⟩
  exact ⟨bits, hfitting.grows memory g⟩

/-- Seventy ones in segments of one word. A source is refused its last segment when
the list of segments has grown already, a longer one is refused the list, the longest
there can be has too many bits to count them with the seventy, and with memory enough
the first is put at the end. -/
theorem growth_whole_in_segments :
    let filled : Script := .andThen (.change .unlimited (.setLength 70) trivial) <|
      .change .unlimited .flipAll trivial
    let v : WordVec (segmented 0).Store := filled.run.after WordVec.empty
    let scarce : Allocator := ⟨fun request => request != .words 2 1⟩
    let short : Uniform := ⟨70, false⟩
    let long : Uniform := ⟨2 ^ 60, true⟩
    let longest : Uniform := ⟨maxPosition, true⟩
    let before := List.replicate 70 true
    (segmented 0).BuiltIn ∧ (segmented 0).Reached v ∧
      (∃ w, WordVec.append scarce (Bits.source short) v = .error (.cannotGrow (70 + 70)) w ∧
        w.length = 70 ∧ Bits.toArray w = .ok before.toArray) ∧
      (∃ w, WordVec.append (.upTo 64) (Bits.source long) v =
          .error (.cannotGrow (70 + 2 ^ 60)) w ∧
        w.length = 70 ∧ Bits.toArray w = .ok before.toArray) ∧
      WordVec.append .unlimited (Bits.source longest) v = .error (.overflow .sum) v ∧
      ∃ w, WordVec.append .unlimited (Bits.source short) v = .ok () w ∧
        Bits.toArray w = .ok (before ++ List.replicate 70 false).toArray := by
  intro filled v scarce short long longest before
  have hkind : (segmented 0).BuiltIn := trivial
  have hv : (segmented 0).Reached v := .script filled .empty
  have hbefore : Bits.toArray v = .ok before.toArray := by decide +kernel
  have hlength : v.length = 70 := by decide +kernel
  have hbits : ∀ {bits : List Bool}, Bits.toArray v = .ok bits.toArray → bits = before := by
    intro bits hread
    rw [hbefore] at hread
    cases hread
    rfl
  have hfails : ∀ (memory : Allocator) (other : Uniform) (n : Nat),
      plus v.length other.length = .ok n → (WordVec.reserve memory n).Refused v →
      ∃ w, WordVec.append memory (Bits.source other) v = .error (.cannotGrow n) w ∧
        w.length = 70 ∧ Bits.toArray w = .ok before.toArray := by
    intro memory other n hsum hrefused
    obtain ⟨failure, w, hrun, -⟩ := hrefused
    obtain ⟨bits, hread, -, hgrows⟩ :=
      growth_whole hkind hv memory (.append (Bits.source other) _ other.reads)
    obtain ⟨happend, hw, hwbits⟩ := ((hgrows _ rfl).2 n hsum).1 failure w hrun
    cases hbits hread
    exact ⟨w, happend, hw.trans hlength, hwbits⟩
  have hsum : plus v.length 70 = .ok (70 + 70) := by rw [hlength]; rfl
  have hlong : plus v.length (2 ^ 60) = .ok (70 + 2 ^ 60) := by rw [hlength]; rfl
  have hlongest : plus v.length maxPosition = .error (.overflow .sum) := by rw [hlength]; rfl
  refine ⟨hkind, hv, hfails scarce short _ hsum (by decide +kernel),
    hfails (.upTo 64) long _ hlong (by decide +kernel), ?_, ?_⟩
  · obtain ⟨bits, -, -, hgrows⟩ :=
      growth_whole hkind hv .unlimited (.append (Bits.source longest) _ longest.reads)
    exact (hgrows _ rfl).1 _ hlongest
  have hgranted : ¬(WordVec.reserve .unlimited (70 + 70)).Refused v := by
    decide +kernel
  obtain ⟨held, hheld⟩ := hv.exists_bits
  obtain ⟨_, made, hrun, -⟩ := ((hheld.reserve .unlimited _).mono (fun _ _ hw => hw)
    fun _ _ hfailed => hfailed.1).exists_ok_of_not_refused hgranted
  obtain ⟨bits, hread, -, hgrows⟩ :=
    growth_whole hkind hv .unlimited (.append (Bits.source short) _ short.reads)
  obtain ⟨w, hdone, hwbits, -⟩ := ((hgrows _ rfl).2 _ hsum).2 made hrun
  cases hbits hread
  exact ⟨w, hdone, hwbits⟩

end StoreKind

end PackedBits
