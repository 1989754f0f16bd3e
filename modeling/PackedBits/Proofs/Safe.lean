import PackedBits.Proofs.Guarded
import PackedBits.Proofs.Kept

/-!
# Runs without a wrong step

A run is safe when it takes no wrong step: with its arithmetic under guard it is the
same run, and where it fails, an argument was not admitted or memory not granted.
`SafeRead` says so of a read and `Edit.Safe` of an edit, each beside the same program
under guard, of all vectors with a property that the edit keeps. Both are closed under
sequencing and under loops, and an edit of a piece of a value is as safe as its edit of
the piece.
-/

namespace PackedBits

/-! ## Ordinary failures -/

/-- An argument was not admitted, or memory not granted. -/
def Failure.isOrdinary : Failure → Bool
  | .outOfView _ _ _ | .invalidWidth _ => true
  | failure => failure.isValidation || failure.isRefusal

theorem Failure.isOrdinary_of_isValidation {failure : Failure} (h : failure.isValidation = true) :
    failure.isOrdinary = true := by
  cases failure <;> first | rfl | cases h

theorem Failure.isOrdinary_of_isRefusal {failure : Failure} (h : failure.isRefusal = true) :
    failure.isOrdinary = true := by
  cases failure <;> first | rfl | cases h

/-- An answer that fails in an ordinary way only. -/
def Ordinary {α : Type} (answer : Answer α) : Prop :=
  ∀ failure, answer = .error failure → failure.isOrdinary = true

section Ordinary

variable {α β : Type} {start count lo hi : Nat}

theorem ordinary_ok (a : α) : Ordinary (.ok a : Answer α) := by
  rintro _ ⟨⟩

theorem ordinary_of_eq_ok {answer : Answer α} {a : α} (h : answer = .ok a) : Ordinary answer :=
  h ▸ ordinary_ok a

theorem ordinary_error {failure : Failure} (h : failure.isOrdinary = true) :
    Ordinary (.error failure : Answer α) := by
  rintro _ ⟨⟩
  exact h

theorem Validates.ordinary {answer : Answer α} (h : Validates answer) : Ordinary answer :=
  fun failure hanswer => Failure.isOrdinary_of_isValidation (h failure hanswer)

theorem ordinary_require (condition : Prop) [Decidable condition] {failure : Failure}
    (h : failure.isOrdinary = true) : Ordinary (require condition failure) := by
  unfold require
  split
  · exact ordinary_ok ()
  · exact ordinary_error h

theorem Ordinary.bind {answer : Answer α} {next : α → Answer β} (h : Ordinary answer)
    (hnext : ∀ a, answer = .ok a → Ordinary (next a)) : Ordinary (answer >>= next) := by
  cases answer with
  | ok a => exact hnext a rfl
  | error failure => exact ordinary_error (h failure rfl)

theorem ordinary_foldUp {step : β → Nat → Answer β} {acc : β}
    (h : ∀ acc i, start ≤ i → i < start + count → Ordinary (step acc i)) :
    Ordinary (foldUp start count acc step) := by
  induction count generalizing start acc with
  | zero => exact ordinary_ok acc
  | succ count ih =>
    refine (h acc start (Nat.le_refl _) (by omega)).bind fun acc _ => ?_
    exact ih fun acc i hlo hhi => h acc i (by omega) (by omega)

theorem ordinary_searchUp {ask : Nat → Answer (Option α)}
    (h : ∀ i, start ≤ i → i < start + count → Ordinary (ask i)) :
    Ordinary (searchUp start count ask) := by
  induction count generalizing start with
  | zero => exact ordinary_ok none
  | succ count ih =>
    refine (h start (Nat.le_refl _) (by omega)).bind fun found _ => ?_
    cases found with
    | some a => exact ordinary_ok (some a)
    | none => exact ih fun i hlo hhi => h i (by omega) (by omega)

theorem ordinary_plus (left right : Nat) : Ordinary (plus left right) :=
  fun _ hplus => plus_eq_error hplus ▸ rfl

theorem ordinary_times (left right : Nat) : Ordinary (times left right) :=
  fun _ htimes => times_eq_error htimes ▸ rfl

theorem ordinary_checkWindowEnd (lo : Nat) : Ordinary (checkWindowEnd lo) := by
  by_cases h : lo ≤ maxPosition - 64
  · exact ordinary_of_eq_ok (checkWindowEnd_of_le h)
  · rw [checkWindowEnd_of_lt (Nat.lt_of_not_le h)]
    exact ordinary_error rfl

/-- The windows of a range lie in it and are no wider than a word. -/
theorem ordinary_searchWindows {ask : Nat → Nat → Answer (Option α)}
    (h : ∀ a b, lo ≤ a → a ≤ b → b ≤ hi → b - a ≤ 64 → Ordinary (ask a b)) :
    Ordinary (searchWindows lo hi ask) := by
  have hfew := wordsFor_le (hi - lo)
  exact ordinary_searchUp fun k _ hk => (ordinary_checkWindowEnd _).bind fun _ _ =>
    h _ _ (by omega) (by omega) (by omega) (by omega)

theorem ordinary_foldWindows {step : β → Nat → Nat → Answer β} {acc : β}
    (h : ∀ acc a b, lo ≤ a → a ≤ b → b ≤ hi → b - a ≤ 64 → Ordinary (step acc a b)) :
    Ordinary (foldWindows lo hi acc step) := by
  have hfew := wordsFor_le (hi - lo)
  exact ordinary_foldUp fun acc k _ hk =>
    h acc _ _ (by omega) (by omega) (by omega) (by omega)

end Ordinary

/-! ## Sources that can be read -/

/-- A source that can be read, or refuses to be read in an ordinary way, and gives no
stray ones. -/
structure Source.Tame (s : Source) : Prop where
  bit {i : Nat} : i < s.length → Ordinary (s.bit i)
  window {lo hi : Nat} : lo ≤ hi → hi ≤ s.length → hi - lo ≤ 64 → Ordinary (s.window lo hi)
  trimmed : s.Trimmed

theorem Source.Reads.tame {s : Source} {bits : List Bool} (h : s.Reads bits) : s.Tame where
  bit {i} hi :=
    ordinary_of_eq_ok (h.bit_eq (List.getElem?_eq_getElem (h.length_eq ▸ hi)))
  window hle hhi hspan := by
    obtain ⟨w, hread, -⟩ := h.window_eq _ _ hle (h.length_eq ▸ hhi) hspan
    exact ordinary_of_eq_ok hread
  trimmed := h.trimmed

/-! ## Safe reads -/

/-- An answer is the same under guard, and fails in an ordinary way only. -/
structure SafeAnswer {α : Type} (guarded plain : Answer α) : Prop where
  same : guarded = plain
  ordinary : Ordinary plain

/-- A read of the vectors with a property is safe. -/
def SafeRead {V α : Type} (inv : V → Prop) (guarded plain : V → Answer α) : Prop :=
  ∀ v, inv v → SafeAnswer (guarded v) (plain v)

section SafeRead

variable {V α β : Type} {guarded plain : Answer α}

theorem safeAnswer_of_ordinary (h : Ordinary plain) : SafeAnswer plain plain := ⟨rfl, h⟩

theorem safeAnswer_ok (a : α) : SafeAnswer (.ok a) (.ok a) := ⟨rfl, ordinary_ok a⟩

theorem SafeAnswer.bind (h : SafeAnswer guarded plain) {next next' : α → Answer β}
    (hnext : ∀ a, plain = .ok a → SafeAnswer (next a) (next' a)) :
    SafeAnswer (guarded >>= next) (plain >>= next') where
  same := by
    rw [h.same]
    exact bind_congr_ok fun a ha => (hnext a ha).same
  ordinary := h.ordinary.bind fun a ha => (hnext a ha).ordinary

theorem SafeAnswer.map (h : SafeAnswer guarded plain) (f : α → β) :
    SafeAnswer (do return f (← guarded)) (do return f (← plain)) :=
  h.bind fun a _ => safeAnswer_ok (f a)

/-- What is known under guard need not be asked for. -/
theorem SafeAnswer.given {read : Answer α} {a : α} {next : α → Answer β} {plain : Answer β}
    (hread : read = .ok a) (h : SafeAnswer (next a) plain) : SafeAnswer (read >>= next) plain where
  same := (bind_of_ok hread).trans h.same
  ordinary := h.ordinary

end SafeRead

namespace Edit

variable {V α β : Type} {inv : V → Prop}

/-! ## Safe edits -/

/-- A run of an edit is the same under guard, and fails in an ordinary way only; a
property is left true, and if the run succeeds, what it promises too. -/
structure SafeAt (inv : V → Prop) (guarded plain : Edit V α) (v : V) (post : α → V → Prop) :
    Prop where
  same : guarded v = plain v
  yields : plain.Yields v (fun a w => inv w ∧ post a w)
    fun failure w => failure.isOrdinary = true ∧ inv w

/-- An edit is safe on every vector with a property. -/
def Safe (inv : V → Prop) (guarded plain : Edit V α) : Prop :=
  ∀ v, inv v → SafeAt inv guarded plain v fun _ _ => True

section SafeAt

variable {guarded plain : Edit V α} {v : V} {post : α → V → Prop} {goal : β → V → Prop}

theorem SafeAt.imp {post' : α → V → Prop} (h : SafeAt inv guarded plain v post)
    (hpost : ∀ a w, inv w → post a w → post' a w) : SafeAt inv guarded plain v post' where
  same := h.same
  yields := h.yields.imp fun a w hw => ⟨hw.1, hpost a w hw.1 hw.2⟩

/-- What a safe run leaves is what the next one starts from. -/
theorem SafeAt.bind (h : SafeAt inv guarded plain v post) {next next' : α → Edit V β}
    (hnext : ∀ a w, inv w → post a w → SafeAt inv (next a) (next' a) w goal) :
    SafeAt inv (guarded >>= next) (plain >>= next') v goal where
  same := by
    have hplain := h.yields
    rw [bind_congr h.same]
    rcases hrun : plain v with ⟨a, w⟩ | ⟨failure, w⟩
    · rw [bind_ok hrun, bind_ok hrun]
      obtain ⟨hw, hpost⟩ := hplain.of_ok hrun
      exact (hnext a w hw hpost).same
    · rw [bind_error hrun, bind_error hrun]
  yields := h.yields.bind fun a w hw => (hnext a w hw.1 hw.2).yields

theorem safeAt_of_yields {post : α → V → Prop}
    (h : plain.Yields v (fun a w => inv w ∧ post a w)
      fun failure w => failure.isOrdinary = true ∧ inv w) : SafeAt inv plain plain v post :=
  ⟨rfl, h⟩

theorem SafeAt.congr {guarded' plain' : Edit V α} (h : SafeAt inv guarded plain v post)
    (hguarded : guarded' v = guarded v) (hplain : plain' v = plain v) :
    SafeAt inv guarded' plain' v post where
  same := hguarded.trans (h.same.trans hplain.symm)
  yields := yields_congr hplain h.yields

theorem safeAt_pure {a : α} (hv : inv v) (h : post a v) :
    SafeAt inv (pure a) (pure a) v post :=
  safeAt_of_yields (yields_pure ⟨hv, h⟩)

theorem safeAt_modify {f : V → V} {post : Unit → V → Prop} (hv : inv (f v)) (h : post () (f v)) :
    SafeAt inv (modify f) (modify f) v post :=
  safeAt_of_yields (yields_modify ⟨hv, h⟩)

/-- An answer that is given is the same under guard, and what is known of it is known
afterwards. -/
theorem safeAt_inspect {read read' : V → Answer α} (hv : inv v)
    (h : SafeAnswer (read v) (read' v)) (hpost : ∀ a, read' v = .ok a → post a v) :
    SafeAt inv (inspect read) (inspect read') v post := by
  rcases hrun : read' v with failure | a
  · have hfailed : inspect read' v = .error failure v := inspect_error hrun
    refine ⟨(inspect_error (h.same.trans hrun)).trans hfailed.symm, ?_⟩
    exact yields_of_error hfailed ⟨h.ordinary failure hrun, hv⟩
  · have hgiven : inspect read' v = .ok a v := inspect_ok hrun
    refine ⟨(inspect_ok (h.same.trans hrun)).trans hgiven.symm, ?_⟩
    exact yields_of_ok hgiven ⟨hv, hpost a hrun⟩

theorem safeAt_liftM {answer : Answer α} (hv : inv v) (h : Ordinary answer)
    (hpost : ∀ a, answer = .ok a → post a v) :
    SafeAt inv (liftM answer) (liftM answer) v post := by
  cases answer with
  | ok a => exact safeAt_pure hv (hpost a rfl)
  | error failure => exact ⟨rfl, yields_of_error rfl ⟨h failure rfl, hv⟩⟩

/-- What is seen of a vector is found under guard. -/
theorem SafeAt.given {read : V → Answer β} {look : V → β} {next next' : β → Edit V α}
    (hread : read v = .ok (look v)) (h : SafeAt inv (next (look v)) (next' (look v)) v post) :
    SafeAt inv (inspect read >>= next) (view look >>= next') v post :=
  h.congr (inspect_bind_ok hread) (view_bind look)

end SafeAt

section Safe

variable {guarded plain : Edit V α} {lo hi : Nat}

theorem Safe.bind (h : Safe inv guarded plain) {next next' : α → Edit V β}
    (hnext : ∀ a, Safe inv (next a) (next' a)) : Safe inv (guarded >>= next) (plain >>= next') :=
  fun v hv => (h v hv).bind fun a w hw _ => hnext a w hw

theorem safe_pure (a : α) : Safe inv (pure a) (pure a) := fun _ hv => safeAt_pure hv trivial

theorem Safe.map (h : Safe inv guarded plain) (f : α → β) : Safe inv (f <$> guarded) (f <$> plain) := by
  intro v hv
  refine ⟨?_, (h v hv).yields.map⟩
  rw [← bind_pure_comp, ← bind_pure_comp, bind_congr (h v hv).same]

theorem safe_modify {f : V → V} (h : ∀ v, inv v → inv (f v)) : Safe inv (modify f) (modify f) :=
  fun v hv => safeAt_modify (h v hv) trivial

theorem Safe.discard (h : Safe inv guarded plain) : Safe inv (discard guarded) (discard plain) :=
  h.map _

theorem safe_inspect {read read' : V → Answer α} (h : SafeRead inv read read') :
    Safe inv (inspect read) (inspect read') :=
  fun v hv => safeAt_inspect hv (h v hv) fun _ _ => trivial

theorem safe_liftM {answer : Answer α} (h : Ordinary answer) :
    Safe inv (liftM answer) (liftM answer) :=
  fun _ hv => safeAt_liftM hv h fun _ _ => trivial

/-- Where nothing is asked of what an edit leaves, it is safe if its failures are ordinary. -/
theorem safe_of_errors
    (h : ∀ v failure w, plain v = .error failure w → failure.isOrdinary = true) :
    Safe (fun _ => True) plain plain := by
  refine fun v _ => safeAt_of_yields ?_
  rcases hrun : plain v with ⟨a, w⟩ | ⟨failure, w⟩
  · exact yields_of_ok hrun ⟨trivial, trivial⟩
  · exact yields_of_error hrun ⟨h v failure w hrun, trivial⟩

/-- What is seen of a vector with the property is what the next edit is given. -/
theorem safe_view_bind {look : V → α} {next next' : α → Edit V β}
    (h : ∀ v, inv v → Safe inv (next (look v)) (next' (look v))) :
    Safe inv (view look >>= next) (view look >>= next') :=
  fun v hv => (h v hv v hv).congr (view_bind look) (view_bind look)

theorem safe_given {read : V → Answer α} {look : V → α} {next next' : α → Edit V β}
    (hread : ∀ v, inv v → read v = .ok (look v)) (h : ∀ a, Safe inv (next a) (next' a)) :
    Safe inv (inspect read >>= next) (view look >>= next') :=
  fun v hv => SafeAt.given (hread v hv) (h (look v) v hv)

theorem safe_visitUp {start count : Nat} {act act' : Nat → Edit V Unit}
    (h : ∀ i, start ≤ i → i < start + count → Safe inv (act i) (act' i)) :
    Safe inv (visitUp start count act) (visitUp start count act') := by
  induction count generalizing start with
  | zero => exact safe_pure ()
  | succ count ih =>
    refine (h start (Nat.le_refl _) (by omega)).bind fun _ => ?_
    exact ih fun i hlo hhi => h i (by omega) (by omega)

theorem safe_visitWindows {act act' : Nat → Nat → Edit V Unit}
    (h : ∀ a b, lo ≤ a → a ≤ b → b ≤ hi → b - a ≤ 64 → Safe inv (act a b) (act' a b)) :
    Safe inv (visitWindows lo hi act) (visitWindows lo hi act') := by
  have hfew := wordsFor_le (hi - lo)
  exact safe_visitUp fun k _ hk => h _ _ (by omega) (by omega) (by omega) (by omega)

theorem safe_forM {act act' : α → Edit V Unit} (h : ∀ a, Safe inv (act a) (act' a))
    (items : List α) : Safe inv (items.forM act) (items.forM act') := by
  induction items with
  | nil => exact safe_pure ()
  | cons a items ih => exact (h a).bind fun _ => ih

end Safe

/-! ## Editing a piece -/

/-- An edit of a piece is as safe for the whole as for the piece. -/
theorem SafeAt.piece {P : Type} {guarded plain : Edit V α} {inner inner' : Edit P α} {v : V} {p : P}
    {put : P → V} {innerInv : P → Prop} {innerPost : α → P → Prop} {post : α → V → Prop}
    (h : SafeAt innerInv inner inner' p innerPost) (hguarded : guarded.EditsPiece v inner p put)
    (hplain : plain.EditsPiece v inner' p put) (hinv : ∀ p', innerInv p' → inv (put p'))
    (hpost : ∀ a p', innerInv p' → innerPost a p' → post a (put p')) :
    SafeAt inv guarded plain v post where
  same := by
    rcases hrun : inner' p with ⟨a, p'⟩ | ⟨failure, p'⟩
    · rw [hguarded.ok (h.same.trans hrun), hplain.ok hrun]
    · rw [hguarded.error (h.same.trans hrun), hplain.error hrun]
  yields := hplain.yields (h.yields.mono
    (fun a p' hp => ⟨hinv p' hp.1, hpost a p' hp.1 hp.2⟩) fun _ p' hp => ⟨hp.1, hinv p' hp.2⟩)

end Edit

end PackedBits
