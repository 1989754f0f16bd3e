import PackedBits.Proofs.Scan
import PackedBits.Proofs.Secure
import PackedBits.Proofs.WordRefines
import PackedBits.Proofs.WordSound

/-!
# Vectors in words are safe to work on

A sound vector of words follows its plans, which refuse arguments only, so no
operation takes a wrong step on it, also where a vector given to it cannot be read to
its end. What is built of vectors in words is safe with them: copies, and the
operations that words alone have.
-/

namespace PackedBits

/-- A run that only a guard may end, and no guard does, is safe. -/
theorem Edit.SafeAt.of_refines {V α : Type} {inv : V → Prop} {guarded plain : Edit V α} {v : V}
    {post : α → V → Prop} (h : Edit.Refines guarded plain)
    (hguarded : guarded.Yields v (fun a w => inv w ∧ post a w)
      fun failure w => failure.isOrdinary = true ∧ inv w) :
    Edit.SafeAt inv guarded plain v post := by
  rcases h v with hsame | ⟨cause, w, hfault⟩
  · exact ⟨hsame, Edit.yields_congr hsame.symm hguarded⟩
  · cases (hguarded.of_error hfault).1

theorem SafeAnswer.of_refines {α : Type} {guarded plain : Answer α} (h : Refines guarded plain)
    (hguarded : Ordinary guarded) : SafeAnswer guarded plain := by
  rcases h with rfl | ⟨cause, hfault⟩
  · exact safeAnswer_of_ordinary hguarded
  · cases hguarded _ hfault

/-- An edit that follows a plan is safe where the plan refuses arguments only. -/
theorem Follows.safeAt {V α : Type} {holds : V → List Bool → Prop} {guarded plain : Edit V α}
    {plan : Plan α} (h : Follows holds (fun w => ∃ bits, holds w bits) guarded plan)
    (hplan : ∀ bits, Validates (plan bits)) (hrefines : Edit.Refines guarded plain) {v : V}
    {bits : List Bool} (hv : holds v bits) :
    Edit.SafeAt (fun v => ∃ bits, holds v bits) guarded plain v
      fun a w => ∃ bits', plan bits = .ok (a, bits') ∧ holds w bits' := by
  refine .of_refines hrefines ?_
  rcases hrun : plan bits with failure | ⟨a, bits'⟩
  · refine Edit.yields_of_error (h.error hv hrun) ⟨?_, bits, hv⟩
    exact Failure.isOrdinary_of_isValidation (hplan bits failure hrun)
  · refine (h.yields hv hrun).mono ?_ fun failure w hw =>
      ⟨Failure.isOrdinary_of_isRefusal hw.1, hw.2⟩
    rintro b w ⟨rfl, hw⟩
    exact ⟨⟨bits', hw⟩, bits', rfl, hw⟩

/-- The plan of a change refuses arguments only, whatever is made of its answer. -/
theorem Change.validates {α : Type} {c : Change} {plan : Plan α} {f : α → Reply}
    (h : c.plan = plan.map f) (bits : List Bool) : Validates (plan bits) := by
  intro failure hplan
  refine c.validates_plan bits failure ?_
  rw [h, Plan.map, hplan]
  rfl

theorem Change.validates_done {c : Change} {plan : Plan Unit} (h : c.plan = plan.map fun _ => .done)
    (bits : List Bool) : Validates (plan bits) :=
  Change.validates h bits

namespace WordVec

section

variable {S : Type} [WordStore S] [LawfulStore S] {v : WordVec S}

/-! ## Reading -/

theorem Sound.ordinary_bit (h : v.Sound) (i : Nat) : Ordinary (v.bit i) := by
  obtain ⟨bits, hv⟩ := h
  rcases Nat.lt_or_ge i bits.length with hi | hpast
  · exact ordinary_of_eq_ok (hv.bit_eq (List.getElem?_eq_getElem hi))
  · rw [hv.bit_past hpast]
    exact ordinary_error rfl

theorem Sound.ordinary_window (h : v.Sound) (lo hi : Nat) : Ordinary (v.window lo hi) := by
  obtain ⟨bits, hv⟩ := h
  rcases hcheck : checkWindow lo hi v.length with failure | _
  · have hfailed : v.window lo hi = .error failure := by
      rw [WordVec.window, hcheck]
      rfl
    rw [hfailed]
    exact ordinary_error ((validates_checkWindow lo hi v.length).ordinary failure hcheck)
  · obtain ⟨hle, hhi, hspan⟩ := checkWindow_eq_ok_iff.mp hcheck
    rw [hv.length_eq] at hhi
    obtain ⟨w, hread, -⟩ := hv.reads.window_eq lo hi hle hhi hspan
    exact ordinary_of_eq_ok hread

theorem Sound.ordinary_countOnes (h : v.Sound) : Ordinary v.countOnes := by
  obtain ⟨bits, hv⟩ := h
  exact ordinary_of_eq_ok hv.countOnes_eq

theorem Sound.ordinary_next (h : v.Sound) (b : Bool) (i : Nat) : Ordinary (v.next b i) := by
  obtain ⟨bits, hv⟩ := h
  obtain ⟨found, hfound, -⟩ := hv.next_eq b i
  exact ordinary_of_eq_ok hfound

theorem Sound.ordinary_previous (h : v.Sound) (b : Bool) (i : Nat) :
    Ordinary (v.previous b i) := by
  obtain ⟨bits, hv⟩ := h
  obtain ⟨found, hfound, -⟩ := hv.previous_eq b i
  exact ordinary_of_eq_ok hfound

theorem Sound.ordinary_word (h : v.Sound) (i : Nat) : Ordinary (v.word i) := by
  refine (ordinary_require _ rfl).bind fun _ hin => ?_
  obtain ⟨bits, hv⟩ := h
  have hi := require_eq_ok_iff.mp hin
  rw [wordCount, hv.length_eq] at hi
  obtain ⟨w, hread, -⟩ := Image.word_eq hv hi
  exact ordinary_of_eq_ok hread

theorem Sound.ordinary_words (h : v.Sound) : Ordinary v.words :=
  ordinary_foldUp fun _ i _ _ => (h.ordinary_word i).bind fun _ _ => ordinary_ok _

theorem Sound.narrow (h : v.Sound) {lo hi : Nat} {w : Word} (hread : v.window lo hi = .ok w) :
    Word.Narrow (hi - lo) w := by
  obtain ⟨bits, hv⟩ := h
  obtain ⟨_, hcheck, -⟩ := bind_eq_ok hread
  obtain ⟨hle, hhi, hspan⟩ := checkWindow_eq_ok_iff.mp hcheck
  exact hv.reads.trimmed _ _ _ hle hhi hspan hread

theorem Sound.countOnes_le (h : v.Sound) {count : Nat} (hcount : v.countOnes = .ok count) :
    count ≤ v.length := by
  obtain ⟨bits, hv⟩ := h
  cases hv.countOnes_eq.symm.trans hcount
  rw [hv.length_eq]
  exact List.count_le_length

end

variable {S : Type} [WordStore S] [LawfulStore S] [StoreGuard S] {v : WordVec S}

/-! ## Over a store under guard -/

/-- A vector that holds some bits, in a store whose own steps are right. -/
structure InOrder (v : WordVec S) : Prop where
  sound : v.Sound
  fits : StoreGuard.Fits v.store

/-- Over a store under guard a vector holds its bits where the steps of the store are
right. -/
theorem holds_guarded_iff {bits : List Bool} :
    @Holds S .guarded .guarded v bits ↔ v.Holds bits ∧ StoreGuard.Fits v.store := by
  constructor
  · intro h
    have hlength := @Image.length_eq S .guarded .guarded _ _ _ _ h
    obtain ⟨words, ⟨hwords, hfits⟩, hcount, hbits⟩ :=
      @Image.exists_words S .guarded .guarded _ _ _ _ h
    exact ⟨⟨hlength, words, hwords, hcount, hbits⟩, hfits⟩
  · rintro ⟨⟨hlength, words, hwords, hcount, hbits⟩, hfits⟩
    exact @Image.mk S .guarded .guarded _ _ _ _ hlength ⟨words, ⟨hwords, hfits⟩, hcount, hbits⟩

theorem sound_guarded : @Sound S .guarded .guarded = InOrder := by
  funext v
  refine propext ⟨?_, ?_⟩
  · rintro ⟨bits, hv⟩
    obtain ⟨hholds, hfits⟩ := holds_guarded_iff.mp hv
    exact ⟨⟨bits, hholds⟩, hfits⟩
  · rintro ⟨⟨bits, hholds⟩, hfits⟩
    exact ⟨bits, holds_guarded_iff.mpr ⟨hholds, hfits⟩⟩

theorem InOrder.guarded (h : v.InOrder) : @Sound S .guarded .guarded v :=
  (congrFun sound_guarded v).mpr h

/-- What follows a plan over the store under guard is safe over the store, where the plan
refuses arguments only. -/
theorem safeAt_of_follows {α : Type} {guarded plain : Edit (WordVec S) α} {plan : Plan α}
    (h : Follows (@Holds S .guarded .guarded) (@Sound S .guarded .guarded) guarded plan)
    (hplan : ∀ bits, Validates (plan bits)) (hrefines : Edit.Refines guarded plain)
    {bits : List Bool} (hv : @Holds S .guarded .guarded v bits) :
    Edit.SafeAt InOrder guarded plain v
      fun a w => ∃ bits', plan bits = .ok (a, bits') ∧ w.Holds bits' := by
  have hsafe : Edit.SafeAt (@Sound S .guarded .guarded) guarded plain v
      fun a w => ∃ bits', plan bits = .ok (a, bits') ∧ w.Holds bits' := by
    refine (h.safeAt hplan hrefines hv).imp ?_
    rintro a w _ ⟨bits', hrun, hw⟩
    exact ⟨bits', hrun, (holds_guarded_iff.mp hw).1⟩
  rwa [sound_guarded] at hsafe

theorem safe_of_follows {α : Type} {guarded plain : Edit (WordVec S) α} {plan : Plan α}
    {refused : WordVec S → Prop}
    (h : Follows (@Holds S .guarded .guarded) refused guarded plan)
    (hrefused : ∀ w, refused w → @Sound S .guarded .guarded w)
    (hplan : ∀ bits, Validates (plan bits)) (hrefines : Edit.Refines guarded plain) :
    Edit.Safe InOrder guarded plain := by
  intro v hv
  obtain ⟨bits, hholds⟩ := hv.guarded
  exact (safeAt_of_follows (h.mono hrefused) hplan hrefines hholds).imp fun _ _ _ _ => trivial

/-- A read that is ordinary over the store under guard is safe over the store. -/
theorem safeRead_of_refines {α : Type} {guarded plain : WordVec S → Answer α}
    (hrefines : ∀ v, Refines (guarded v) (plain v))
    (hguarded : ∀ v, @Sound S .guarded .guarded v → Ordinary (guarded v)) :
    SafeRead InOrder guarded plain :=
  fun v hv => .of_refines (hrefines v) (hguarded v hv.guarded)

/-! ## Operations -/

/-- What keeps the bits over the store under guard, whatever becomes of the room, is safe
over the store. -/
theorem safe_of_image {guarded plain : Edit (WordVec S) Unit} {error : Failure}
    (herror : error.isOrdinary = true) (hrefines : Edit.Refines guarded plain)
    (hrun : ∀ {v : WordVec S} {bits : List Bool}, @Holds S .guarded .guarded v bits →
      guarded.Yields v (fun _ w => @Holds S .guarded .guarded w bits)
        fun failure w => failure = error ∧ @Holds S .guarded .guarded w bits) :
    Edit.Safe InOrder guarded plain := by
  intro v hv
  obtain ⟨bits, hholds⟩ := hv.guarded
  refine .of_refines hrefines ?_
  rw [← sound_guarded]
  refine (hrun hholds).mono (fun _ w hw => ⟨⟨bits, hw⟩, trivial⟩) ?_
  rintro failure w ⟨rfl, hw⟩
  exact ⟨herror, bits, hw⟩

theorem safe_reserve (memory : Allocator) (m : Nat) :
    Edit.Safe (InOrder (S := S)) (@reserve S .guarded memory m) (reserve memory m) :=
  safe_of_image rfl (refines_reserve memory m) fun hv =>
    @Image.reserve S .guarded .guarded _ _ _ _ hv memory m

theorem safe_ensureCapacity (memory : Allocator) (m : Nat) :
    Edit.Safe (InOrder (S := S)) (@ensureCapacity S .guarded memory m)
      (ensureCapacity memory m) :=
  safe_of_image rfl (refines_ensureCapacity memory m) fun hv =>
    @Image.ensureCapacity S .guarded .guarded _ _ _ _ hv memory m

theorem safeAt_setLength (memory : Allocator) (n : Nat) (h : v.InOrder) :
    Edit.SafeAt InOrder (@setLength S .guarded memory n) (setLength memory n) v
      fun _ w => w.length = n := by
  obtain ⟨bits, hholds⟩ := h.guarded
  refine (safeAt_of_follows (@follows_setLength S .guarded .guarded memory n)
    (Change.validates_done (c := .setLength n) rfl) (refines_setLength memory n) hholds).imp ?_
  rintro _ w _ ⟨bits', hplan, hw⟩
  cases hplan
  rw [hw.length_eq, length_resized]

theorem safeAt_appendBits (memory : Allocator) (x : Word) (count : Nat) (h : v.InOrder) :
    Edit.SafeAt InOrder (@appendBits S .guarded memory x count) (appendBits memory x count) v
      fun _ w => w.length = v.length + count := by
  obtain ⟨bits, hholds⟩ := h.guarded
  refine (safeAt_of_follows (@follows_appendBits S .guarded .guarded memory x count)
    (Change.validates_done (c := .appendBits x count) rfl)
    (refines_appendBits memory x count) hholds).imp ?_
  rintro _ w _ ⟨bits', hplan, hw⟩
  obtain ⟨_, -, hplan⟩ := bind_eq_ok hplan
  cases hplan
  rw [hw.length_eq, (holds_guarded_iff.mp hholds).1.length_eq, List.length_append,
    List.length_map, List.length_range]

theorem safe_append (memory : Allocator) {other : Source} (hother : other.Tame) :
    Edit.Safe (InOrder (S := S)) (@append S .guarded memory other) (append memory other) := by
  refine Edit.safe_view_bind fun _ _ => (Edit.safe_liftM (ordinary_plus _ _)).bind fun n => ?_
  refine (safe_ensureCapacity memory n).bind fun _ => ?_
  refine Edit.safe_visitWindows fun a b _ hle hb hspan => ?_
  refine (Edit.safe_liftM (hother.window hle hb hspan)).bind fun w _ hv => ?_
  exact (safeAt_appendBits memory w (b - a) hv).imp fun _ _ _ _ => trivial

theorem safe_combine (op : Connective) {other : Source} (hother : other.Tame) :
    Edit.Safe (InOrder (S := S)) (@combine S .guarded op other) (combine op other) := by
  intro v hv
  have hrun := @yields_combine S .guarded .guarded v (fun failure w => failure.isOrdinary = true ∧
    @Sound S .guarded .guarded w) op other hother.trimmed hv.guarded
    fun lo hi failure w hle hhi hspan hread hw =>
      ⟨hother.window hle hhi hspan failure hread, hw⟩
  rw [sound_guarded] at hrun
  exact .of_refines (refines_combine op other) (hrun.imp fun _ _ hw => ⟨hw, trivial⟩)

/-- Vectors of words in order are safe to work on, with every word that is read or changed
and every step of the store under guard as well. -/
theorem secure [LawfulFill S] :
    Secure (@guardedBits S .guarded) instResizableBits (InOrder (S := S)) := by
  unfold guardedBits
  rw [@guarded_eq S .guarded]
  exact {
    measure := fun _ => rfl
    bit := fun i => safeRead_of_refines (refines_bit · i)
      fun _ hv => @Sound.ordinary_bit S .guarded .guarded _ hv i
    window := fun lo hi => safeRead_of_refines (refines_window · lo hi)
      fun _ hv => @Sound.ordinary_window S .guarded .guarded _ hv lo hi
    narrow := fun hv hread => hv.sound.narrow hread
    countOnes := safeRead_of_refines refines_countOnes
      fun _ hv => @Sound.ordinary_countOnes S .guarded .guarded _ hv
    countOnes_le := fun hv hcount => hv.sound.countOnes_le hcount
    next := fun b i => safeRead_of_refines (refines_next · b i)
      fun _ hv => @Sound.ordinary_next S .guarded .guarded _ hv b i
    previous := fun b i => safeRead_of_refines (refines_previous · b i)
      fun _ hv => @Sound.ordinary_previous S .guarded .guarded _ hv b i
    set := fun i b => safe_of_follows (@follows_set S .guarded .guarded i b)
      (fun _ => False.elim) (Change.validates (c := .set i b) rfl) (refines_set i b)
    setBits := fun lo width value =>
      safe_of_follows (@follows_setBits S .guarded .guarded lo width value) (fun _ => False.elim)
        (Change.validates_done (c := .setBits lo width value) rfl) (refines_setBits lo width value)
    fillRange := fun lo hi b =>
      safe_of_follows (@follows_fillRange S .guarded .guarded .guarded lo hi b)
        (fun _ => False.elim) (Change.validates_done (c := .fillRange lo hi b) rfl)
        (refines_fillRange lo hi b)
    flipRange := fun lo hi =>
      safe_of_follows (@follows_flipRange S .guarded .guarded lo hi) (fun _ => False.elim)
        (Change.validates_done (c := .flipRange lo hi) rfl) (refines_flipRange lo hi)
    combine := fun op _ hother => safe_combine op hother
    setLength := fun memory n _ hv => safeAt_setLength memory n hv
    insert := fun memory i b =>
      safe_of_follows (@follows_insert S .guarded .guarded memory i b) (fun _ => id)
        (Change.validates_done (c := .insert i b) rfl) (refines_insert memory i b)
    remove := fun i => safe_of_follows (@follows_remove S .guarded .guarded i)
      (fun _ => False.elim) (Change.validates (c := .remove i) rfl) (refines_remove i)
    push := fun memory b =>
      safe_of_follows (@follows_push S .guarded .guarded memory b) (fun _ => id)
        (Change.validates_done (c := .push b) rfl) (refines_push memory b)
    appendBits := fun memory w count _ hv => safeAt_appendBits memory w count hv
    append := fun memory _ hother => safe_append memory hother }

end WordVec

/-! ## Copies -/

theorem WordVec.inOrder_empty {S : Type} [WordStore S] [LawfulStore S] [StoreGuard S] :
    (WordVec.empty : WordVec S).InOrder :=
  ⟨WordVec.sound_empty, StoreGuard.fits_empty⟩

/-- An answer is safe, and what it gives has a property. -/
structure Delivers {α : Type} (post : α → Prop) (guarded plain : Answer α) : Prop extends
    SafeAnswer guarded plain where
  of_ok {a : α} : plain = .ok a → post a

theorem Delivers.bind {α β : Type} {post : α → Prop} {goal : β → Prop} {guarded plain : Answer α}
    {next next' : α → Answer β} (h : Delivers post guarded plain)
    (hnext : ∀ a, post a → Delivers goal (next a) (next' a)) :
    Delivers goal (guarded >>= next) (plain >>= next') where
  toSafeAnswer := h.toSafeAnswer.bind fun a ha => (hnext a (h.of_ok ha)).toSafeAnswer
  of_ok hb := by
    obtain ⟨a, ha, hb⟩ := bind_eq_ok hb
    exact (hnext a (h.of_ok ha)).of_ok hb

/-- A safe edit of a vector with a property builds a vector with it. -/
theorem Edit.Safe.delivers {V : Type} {inv : V → Prop} {guarded plain : Edit V Unit}
    (h : Edit.Safe inv guarded plain) {v : V} (hv : inv v) :
    Delivers inv (guarded.build v) (plain.build v) where
  same := by simp only [Edit.build, (h v hv).same]
  ordinary _ hfailed := ((h v hv).yields.of_error (Edit.build_eq_error.mp hfailed)).1
  of_ok hbuilt := ((h v hv).yields.of_ok (Edit.build_eq_ok.mp hbuilt)).1

namespace Source

variable {s : Source}

theorem Tame.copy (h : s.Tame) (memory : Allocator) :
    Delivers WordVec.InOrder (s.guardedCopy memory) (s.copy memory) :=
  ((WordVec.safe_ensureCapacity memory _).delivers WordVec.inOrder_empty).bind fun _ hv =>
    (WordVec.secure.append memory h).delivers hv

theorem Tame.copyRange (h : s.Tame) (memory : Allocator) (lo hi : Nat) :
    Delivers WordVec.InOrder (s.guardedCopyRange memory lo hi) (s.copyRange memory lo hi) := by
  have hrange : Delivers (fun _ => lo ≤ hi ∧ hi ≤ s.length) (checkRange lo hi s.length)
      (checkRange lo hi s.length) :=
    ⟨safeAnswer_of_ordinary (ordinary_require _ rfl), fun hmet => require_eq_ok_iff.mp hmet⟩
  refine hrange.bind fun _ ⟨hle, hhi⟩ => ?_
  dsimp only
  rw [minus_of_le hle, ok_bind]
  refine ((WordVec.safe_ensureCapacity memory _).delivers WordVec.inOrder_empty).bind fun v hv => ?_
  refine Edit.Safe.delivers (Edit.safe_visitWindows fun lo hi _ hle hwithin hspan => ?_) hv
  refine (Edit.safe_liftM (ordinary_checkWindowEnd lo)).bind fun _ => ?_
  refine (Edit.safe_liftM (h.window hle (Nat.le_trans hwithin hhi) hspan)).bind fun w => ?_
  rw [minus_of_le hle, Edit.liftM_ok_bind]
  exact WordVec.secure.extend memory w (hi - lo)

end Source

end PackedBits
