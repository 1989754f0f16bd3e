import PackedBits.Edit
import PackedBits.Source

/-!
# Outcomes of edits

An edit is judged by what it leaves. `Edit.Yields` is the judgement of one run:
either it gives an answer and leaves a value as promised, or it fails in a way
that is allowed. `Edit.Keeps` is the weaker judgement that a property of the
value survives every run, failed runs included. Both are closed under sequencing
and under the loops of `Traverse`, so an operation is judged by the steps that it
is made of. Where an edit is an edit of one piece of a value (`Edit.EditsPiece`),
both are carried from the piece to the whole.
-/

namespace PackedBits

/-- What was asked for is more than the machine gives: memory that is not granted, or a
number past the largest that a machine word counts. -/
def Failure.isRefusal : Failure → Bool
  | .allocation => true
  | .cannotGrow _ => true
  | .overflow _ => true
  | _ => false

/-- An argument was not admitted. -/
def Failure.isValidation : Failure → Bool
  | .indexOutOfBounds _ _ => true
  | .invalidRange _ _ _ => true
  | .spanTooWide _ _ => true
  | .valueTooWide _ _ => true
  | _ => false

namespace Edit

variable {V α β : Type}

/-- The value that an edit of `v` leaves, whether it fails or not. -/
def after (edit : Edit V α) (v : V) : V :=
  match edit v with
  | .ok _ w => w
  | .error _ w => w

/-- An edit of `v` asks for more than the machine gives. -/
def Refused (edit : Edit V α) (v : V) : Prop :=
  ∃ failure w, edit v = .error failure w ∧ failure.isRefusal = true

/-- Whether an edit of `v` asks for more than the machine gives. -/
def refuses (edit : Edit V α) (v : V) : Bool :=
  match edit v with
  | .ok _ _ => false
  | .error failure _ => failure.isRefusal

theorem refuses_iff {edit : Edit V α} {v : V} : edit.refuses v = true ↔ edit.Refused v := by
  unfold refuses Refused
  cases edit v <;> simp

instance (edit : Edit V α) (v : V) : Decidable (edit.Refused v) := decidable_of_iff _ refuses_iff

/-- An edit of `v` gives an answer and leaves a value as `post` says, or fails
and leaves a value as `failed` says. -/
def Yields (edit : Edit V α) (v : V) (post : α → V → Prop) (failed : Failure → V → Prop) :
    Prop :=
  match edit v with
  | .ok a w => post a w
  | .error failure w => failed failure w

/-- A property of the value survives an edit, whether it fails or not. -/
def Keeps (inv : V → Prop) (edit : Edit V α) : Prop := ∀ v, inv v → inv (edit.after v)

theorem after_of_ok {edit : Edit V α} {v w : V} {a : α} (h : edit v = .ok a w) :
    edit.after v = w := by
  simp [after, h]

theorem after_of_error {edit : Edit V α} {v w : V} {failure : Failure}
    (h : edit v = .error failure w) : edit.after v = w := by
  simp [after, h]

theorem after_congr {edit edit' : Edit V α} {v : V} (hrun : edit v = edit' v) :
    edit.after v = edit'.after v := by
  unfold after
  rw [hrun]

theorem build_eq_error {edit : Edit V Unit} {v : V} {failure : Failure} :
    edit.build v = .error failure ↔ edit v = .error failure (edit.after v) := by
  unfold build after
  split <;> simp_all

theorem map_ok {edit : Edit V α} {v w : V} {a : α} {f : α → β} (h : edit v = .ok a w) :
    (f <$> edit) v = .ok (f a) w := by
  simp only [Functor.map, EStateM.map, h]

theorem map_error {edit : Edit V α} {v w : V} {failure : Failure} {f : α → β}
    (h : edit v = .error failure w) : (f <$> edit) v = .error failure w := by
  simp only [Functor.map, EStateM.map, h]

theorem reword_ok {edit : Edit V α} {v w : V} {a : α} {f : Failure → Failure}
    (h : edit v = .ok a w) : edit.reword f v = .ok a w := by
  simp only [reword, h]

theorem reword_error {edit : Edit V α} {v w : V} {failure : Failure} {f : Failure → Failure}
    (h : edit v = .error failure w) : edit.reword f v = .error (f failure) w := by
  simp only [reword, h]

/-- Other words for a failure do not make an edit succeed. -/
theorem reword_eq_ok {edit : Edit V α} {v w : V} {a : α} {f : Failure → Failure} :
    edit.reword f v = .ok a w ↔ edit v = .ok a w := by
  unfold reword
  split <;> simp_all

theorem after_onFailure_of_ok {edit : Edit V α} {cleanup : Failure → Edit V Unit} {v w : V} {a : α}
    (h : edit v = .ok a w) : (edit.onFailure cleanup).after v = w := by
  simp only [after, onFailure, h]

theorem after_onFailure_of_error {edit : Edit V α} {cleanup : Failure → Edit V Unit} {v w : V}
    {failure : Failure} (h : edit v = .error failure w) :
    (edit.onFailure cleanup).after v = (cleanup failure).after w := by
  simp only [after, onFailure, h]
  cases cleanup failure w <;> rfl

theorem after_map (edit : Edit V α) (f : α → β) (v : V) :
    (f <$> edit).after v = edit.after v := by
  rcases hrun : edit v with ⟨a, w⟩ | ⟨failure, w⟩
  · rw [after_of_ok hrun, after_of_ok (map_ok hrun)]
  · rw [after_of_error hrun, after_of_error (map_error hrun)]

/-! ## Judging one run -/

section Yields

variable {edit : Edit V α} {next : α → Edit V β} {v : V} {post post' : α → V → Prop}
  {goal : β → V → Prop} {failed failed' : Failure → V → Prop}

theorem Yields.of_ok (h : edit.Yields v post failed) {a : α} {w : V} (hrun : edit v = .ok a w) :
    post a w := by
  unfold Yields at h
  rwa [hrun] at h

theorem Yields.of_error (h : edit.Yields v post failed) {failure : Failure} {w : V}
    (hrun : edit v = .error failure w) : failed failure w := by
  unfold Yields at h
  rwa [hrun] at h

theorem yields_of_ok {a : α} {w : V} (hrun : edit v = .ok a w) (h : post a w) :
    edit.Yields v post failed := by
  unfold Yields
  rw [hrun]
  exact h

theorem yields_of_error {failure : Failure} {w : V} (hrun : edit v = .error failure w)
    (h : failed failure w) : edit.Yields v post failed := by
  unfold Yields
  rw [hrun]
  exact h

theorem Yields.mono (h : edit.Yields v post failed) (hpost : ∀ a w, post a w → post' a w)
    (hfailed : ∀ failure w, failed failure w → failed' failure w) :
    edit.Yields v post' failed' := by
  rcases hrun : edit v with ⟨a, w⟩ | ⟨failure, w⟩
  · exact yields_of_ok hrun (hpost a w (h.of_ok hrun))
  · exact yields_of_error hrun (hfailed failure w (h.of_error hrun))

theorem Yields.imp (h : edit.Yields v post failed) (hpost : ∀ a w, post a w → post' a w) :
    edit.Yields v post' failed :=
  h.mono hpost fun _ _ hw => hw

/-- What two judgements say of a run, it leaves or fails with together. -/
theorem Yields.both (h : edit.Yields v post failed) (h' : edit.Yields v post' failed') :
    edit.Yields v (fun a w => post a w ∧ post' a w)
      fun failure w => failed failure w ∧ failed' failure w := by
  rcases hrun : edit v with ⟨a, w⟩ | ⟨failure, w⟩
  · exact yields_of_ok hrun ⟨h.of_ok hrun, h'.of_ok hrun⟩
  · exact yields_of_error hrun ⟨h.of_error hrun, h'.of_error hrun⟩

theorem Yields.and (h : edit.Yields v post failed) (h' : edit.Yields v post' failed') :
    edit.Yields v (fun a w => post a w ∧ post' a w) failed :=
  (h.both h').mono (fun _ _ hw => hw) fun _ _ hw => hw.1

/-- A run that may not fail gives an answer. -/
theorem Yields.exists_ok (h : edit.Yields v post fun _ _ => False) :
    ∃ a w, edit v = .ok a w ∧ post a w := by
  rcases hrun : edit v with ⟨a, w⟩ | ⟨failure, w⟩
  · exact ⟨a, w, rfl, h.of_ok hrun⟩
  · exact (h.of_error hrun).elim

/-- A run that can only be refused, and is not, gives an answer. -/
theorem Yields.exists_ok_of_not_refused
    (h : edit.Yields v post fun failure _ => failure.isRefusal = true)
    (hgranted : ¬edit.Refused v) : ∃ a w, edit v = .ok a w ∧ post a w := by
  rcases hrun : edit v with ⟨a, w⟩ | ⟨failure, w⟩
  · exact ⟨a, w, rfl, h.of_ok hrun⟩
  · exact absurd ⟨failure, w, hrun, h.of_error hrun⟩ hgranted

theorem Yields.after {inv : V → Prop} (h : edit.Yields v (fun _ => inv) fun _ => inv) :
    inv (edit.after v) := by
  rcases hrun : edit v with ⟨a, w⟩ | ⟨failure, w⟩
  · rw [after_of_ok hrun]
    exact h.of_ok hrun
  · rw [after_of_error hrun]
    exact h.of_error hrun

/-- What is built is what the edit ends with, or its failure. -/
theorem Yields.build {edit : Edit V Unit} {post : V → Prop} {failed : Failure → Prop}
    (h : edit.Yields v (fun _ => post) fun failure _ => failed failure) :
    (∃ w, edit.build v = .ok w ∧ post w) ∨
      ∃ failure, edit.build v = .error failure ∧ failed failure := by
  rcases hrun : edit v with ⟨_, w⟩ | ⟨failure, w⟩
  · exact .inl ⟨w, build_eq_ok.mpr hrun, h.of_ok hrun⟩
  · refine .inr ⟨failure, build_eq_error.mpr ?_, h.of_error hrun⟩
    rwa [after_of_error hrun]

theorem yields_congr {edit' : Edit V α} {v' : V} (hrun : edit v = edit' v')
    (h : edit'.Yields v' post failed) : edit.Yields v post failed := by
  unfold Yields at h ⊢
  rwa [hrun]

theorem yields_pure {a : α} (h : post a v) : (pure a : Edit V α).Yields v post failed := h

theorem yields_modify {f : V → V} {post : Unit → V → Prop} (h : post () (f v)) :
    (modify f : Edit V Unit).Yields v post failed := h

/-- What an edit yields is what the next one starts from. -/
theorem Yields.bind (h : edit.Yields v post failed)
    (hnext : ∀ a w, post a w → (next a).Yields w goal failed) :
    (edit >>= next).Yields v goal failed := by
  rcases hrun : edit v with ⟨a, w⟩ | ⟨failure, w⟩
  · have hgoal := hnext a w (h.of_ok hrun)
    unfold Yields at hgoal ⊢
    rwa [bind_ok hrun]
  · exact yields_of_error (bind_error hrun) (h.of_error hrun)

theorem yields_bind_ok {a : α} {w : V} (hrun : edit v = .ok a w)
    (hnext : (next a).Yields w goal failed) : (edit >>= next).Yields v goal failed :=
  have hmid : edit.Yields v (fun b x => b = a ∧ x = w) failed := yields_of_ok hrun ⟨rfl, rfl⟩
  hmid.bind fun _ _ hpost => hpost.1 ▸ hpost.2 ▸ hnext

theorem Yields.map {f : α → β}
    (h : edit.Yields v (fun a => goal (f a)) failed) : (f <$> edit).Yields v goal failed := by
  rcases hrun : edit v with ⟨a, w⟩ | ⟨failure, w⟩
  · exact yields_of_ok (map_ok hrun) (h.of_ok hrun)
  · exact yields_of_error (map_error hrun) (h.of_error hrun)

theorem Yields.discard {post : Unit → V → Prop} (h : edit.Yields v (fun _ => post ()) failed) :
    (discard edit).Yields v post failed :=
  h.map

theorem Yields.reword {f : Failure → Failure}
    (h : edit.Yields v post fun failure => failed (f failure)) :
    (edit.reword f).Yields v post failed := by
  rcases hrun : edit v with ⟨a, w⟩ | ⟨failure, w⟩
  · exact yields_of_ok (reword_ok hrun) (h.of_ok hrun)
  · exact yields_of_error (reword_error hrun) (h.of_error hrun)

/-- What is left of a failed edit is what the cleanup leaves. -/
theorem Yields.onFailure {cleanup : Failure → Edit V Unit} (h : edit.Yields v post failed)
    (hcleanup : ∀ failure w, failed failure w →
      (cleanup failure).Yields w (fun _ x => failed' failure x) fun _ _ => False) :
    (edit.onFailure cleanup).Yields v post failed' := by
  rcases hrun : edit v with ⟨a, w⟩ | ⟨failure, w⟩
  · have hrun' : edit.onFailure cleanup v = .ok a w := by simp only [Edit.onFailure, hrun]
    exact yields_of_ok hrun' (h.of_ok hrun)
  · obtain ⟨_, x, hclean, hx⟩ := (hcleanup failure w (h.of_error hrun)).exists_ok
    have hrun' : edit.onFailure cleanup v = .error failure x := by
      simp only [Edit.onFailure, hrun, hclean]
    exact yields_of_error hrun' hx

theorem inspect_bind_ok {read : V → Answer α} {a : α} (hread : read v = .ok a) :
    (inspect read >>= next) v = next a v :=
  bind_ok (inspect_ok hread)

theorem inspect_bind_error {read : V → Answer α} {failure : Failure}
    (hread : read v = .error failure) : (inspect read >>= next) v = .error failure v :=
  bind_error (inspect_error hread)

theorem bind_congr {edit' : Edit V α} (hrun : edit v = edit' v) :
    (edit >>= next) v = (edit' >>= next) v := by
  simp only [bind, EStateM.bind, hrun]

theorem discard_congr {edit' : Edit V α} (hrun : edit v = edit' v) :
    (discard edit) v = (discard edit') v := by
  simp only [Functor.discard, Functor.mapConst, EStateM.map, Function.comp, hrun]

theorem view_bind (look : V → α) : (view look >>= next) v = next (look v) v :=
  bind_ok (view_apply look v)

theorem liftM_ok {answer : Answer α} {a : α} (h : answer = .ok a) :
    (liftM answer : Edit V α) v = .ok a v := by
  subst h
  rfl

theorem liftM_error {answer : Answer α} {failure : Failure} (h : answer = .error failure) :
    (liftM answer : Edit V α) v = .error failure v := by
  subst h
  rfl

theorem yields_inspect_bind {read : V → Answer α} {a : α} (hread : read v = .ok a)
    (hnext : (next a).Yields v goal failed) : (inspect read >>= next).Yields v goal failed :=
  yields_bind_ok (inspect_ok hread) hnext

theorem yields_liftM_bind_ok {answer : Answer α} {a : α} (hanswer : answer = .ok a)
    (hnext : (next a).Yields v goal failed) :
    ((liftM answer : Edit V α) >>= next).Yields v goal failed :=
  yields_bind_ok (liftM_ok hanswer) hnext

theorem yields_liftM_bind {answer : Answer α}
    (hok : ∀ a, answer = .ok a → (next a).Yields v goal failed)
    (herror : ∀ failure, answer = .error failure → failed failure v) :
    ((liftM answer : Edit V α) >>= next).Yields v goal failed := by
  cases answer with
  | ok a => exact hok a rfl
  | error failure => exact herror failure rfl

end Yields

/-! ## Editing a piece -/

/-- An edit of `v` is an edit of one piece of it, put back in its place. -/
structure EditsPiece {P : Type} (edit : Edit V α) (v : V) (inner : Edit P α) (p : P)
    (put : P → V) : Prop where
  ok {a : α} {p' : P} : inner p = .ok a p' → edit v = .ok a (put p')
  error {failure : Failure} {p' : P} :
    inner p = .error failure p' → edit v = .error failure (put p')

section EditsPiece

variable {P : Type} {edit : Edit V α} {v : V} {inner : Edit P α} {p : P} {put : P → V}

theorem EditsPiece.after_eq (h : edit.EditsPiece v inner p put) :
    edit.after v = put (inner.after p) := by
  rcases hrun : inner p with ⟨a, p'⟩ | ⟨failure, p'⟩
  · rw [after_of_ok hrun, after_of_ok (h.ok hrun)]
  · rw [after_of_error hrun, after_of_error (h.error hrun)]

theorem EditsPiece.yields (h : edit.EditsPiece v inner p put) {post : α → V → Prop}
    {failed : Failure → V → Prop}
    (hinner : inner.Yields p (fun a p' => post a (put p'))
      fun failure p' => failed failure (put p')) : edit.Yields v post failed := by
  rcases hrun : inner p with ⟨a, p'⟩ | ⟨failure, p'⟩
  · exact yields_of_ok (h.ok hrun) (hinner.of_ok hrun)
  · exact yields_of_error (h.error hrun) (hinner.of_error hrun)

/-- An edit of the whole as its own piece is that edit. -/
theorem EditsPiece.run_eq {inner : Edit V α} (h : edit.EditsPiece v inner v fun w => w) :
    edit v = inner v := by
  rcases hrun : inner v with ⟨a, w⟩ | ⟨failure, w⟩
  · exact h.ok hrun
  · exact h.error hrun

/-- A piece of a piece is a piece. -/
theorem EditsPiece.trans {Q : Type} {innermost : Edit Q α} {q : Q} {put' : Q → P}
    (h : edit.EditsPiece v inner p put) (h' : inner.EditsPiece p innermost q put') :
    edit.EditsPiece v innermost q fun q => put (put' q) where
  ok hrun := h.ok (h'.ok hrun)
  error hrun := h.error (h'.error hrun)

theorem editsPiece_congr {edit' : Edit V α} (hrun : edit v = edit' v)
    (h : edit'.EditsPiece v inner p put) : edit.EditsPiece v inner p put where
  ok hinner := hrun.trans (h.ok hinner)
  error hinner := hrun.trans (h.error hinner)

theorem editsPiece_view {look : V → α} {look' : P → α} (hput : put p = v)
    (hlook : look v = look' p) : (view look).EditsPiece v (view look') p put where
  ok hrun := by
    cases hrun
    rw [view_apply, hlook, hput]
  error hrun := by cases hrun

theorem editsPiece_pure {a : α} (hput : put p = v) :
    (pure a : Edit V α).EditsPiece v (pure a) p put where
  ok hrun := by
    cases hrun
    exact congrArg (EStateM.Result.ok a) hput.symm
  error hrun := by cases hrun

/-- An edit of the same piece goes on from it. -/
theorem EditsPiece.bind {next : α → Edit V β} {next' : α → Edit P β}
    (h : edit.EditsPiece v inner p put)
    (hnext : ∀ a p', (next a).EditsPiece (put p') (next' a) p' put) :
    (edit >>= next).EditsPiece v (inner >>= next') p put := by
  rcases hrun : inner p with ⟨a, p'⟩ | ⟨failure, p'⟩
  · constructor
    · intro b q hlast
      rw [bind_ok hrun] at hlast
      rw [bind_ok (h.ok hrun)]
      exact (hnext a p').ok hlast
    · intro failure q hlast
      rw [bind_ok hrun] at hlast
      rw [bind_ok (h.ok hrun)]
      exact (hnext a p').error hlast
  · constructor
    · intro b q hlast
      rw [bind_error hrun] at hlast
      cases hlast
    · intro failure' q hlast
      rw [bind_error hrun] at hlast
      cases hlast
      exact bind_error (h.error hrun)

end EditsPiece

/-! ## Judging loops -/

section Loops

variable {start count lo hi : Nat} {v : V} {failed : Failure → V → Prop} (inv : Nat → V → Prop)

theorem yields_visitUp {act : Nat → Edit V Unit} (hinv : inv start v)
    (hact : ∀ i, start ≤ i → i < start + count → ∀ w, inv i w →
      (act i).Yields w (fun _ => inv (i + 1)) failed) :
    (visitUp start count act).Yields v (fun _ => inv (start + count)) failed := by
  induction count generalizing start v with
  | zero => exact hinv
  | succ count ih =>
    refine (hact start (Nat.le_refl _) (by omega) v hinv).bind fun _ w hw => ?_
    rw [show start + (count + 1) = start + 1 + count by omega]
    exact ih hw fun i hlo hhi => hact i (by omega) (by omega)

theorem yields_visitDown {act : Nat → Edit V Unit} (hinv : inv (start + count) v)
    (hact : ∀ i, start ≤ i → i < start + count → ∀ w, inv (i + 1) w →
      (act i).Yields w (fun _ => inv i) failed) :
    (visitDown start count act).Yields v (fun _ => inv start) failed := by
  induction count generalizing v with
  | zero => exact hinv
  | succ count ih =>
    refine (hact (start + count) (by omega) (by omega) v hinv).bind fun _ w hw => ?_
    exact ih hw fun i hlo hhi => hact i hlo (by omega)

theorem yields_foldUp {step : β → Nat → Edit V β} {acc : β} (inv : Nat → β → V → Prop)
    (hinv : inv start acc v) (hstep : ∀ i acc, start ≤ i → i < start + count → ∀ w, inv i acc w →
      (step acc i).Yields w (inv (i + 1)) failed) :
    (foldUp start count acc step).Yields v (inv (start + count)) failed := by
  induction count generalizing start acc v with
  | zero => exact hinv
  | succ count ih =>
    refine (hstep start acc (Nat.le_refl _) (by omega) v hinv).bind fun acc w hw => ?_
    rw [show start + (count + 1) = start + 1 + count by omega]
    exact ih hw fun i acc hlo hhi => hstep i acc (by omega) (by omega)

theorem yields_forM {act : α → Edit V Unit} {failed : Failure → V → Prop} {items : List α}
    (inv : List α → V → Prop) {v : V} (hinv : inv items v)
    (hact : ∀ a rest w, inv (a :: rest) w → (act a).Yields w (fun _ => inv rest) failed) :
    (items.forM act).Yields v (fun _ => inv []) failed := by
  induction items generalizing v with
  | nil => exact hinv
  | cons a items ih => exact (hact a items v hinv).bind fun _ w hw => ih hw

/-- The windows of a range are visited in order: each begins where the one
before it ended, a whole number of words from the start of the range. -/
theorem yields_visitWindows {act : Nat → Nat → Edit V Unit} (hle : lo ≤ hi) (hinv : inv lo v)
    (hact : ∀ k, lo + 64 * k < hi → ∀ w, inv (lo + 64 * k) w →
      (act (lo + 64 * k) (min (lo + 64 * (k + 1)) hi)).Yields w
        (fun _ => inv (min (lo + 64 * (k + 1)) hi)) failed) :
    (visitWindows lo hi act).Yields v (fun _ => inv hi) failed := by
  have hcount := le_wordsFor (hi - lo)
  have hend : min (lo + 64 * (0 + wordsFor (hi - lo))) hi = hi := by omega
  have hloop : (visitWindows lo hi act).Yields v
      (fun _ => inv (min (lo + 64 * (0 + wordsFor (hi - lo))) hi)) failed := by
    refine yields_visitUp (fun k => inv (min (lo + 64 * k) hi)) ?_ ?_
    · rwa [Nat.mul_zero, Nat.add_zero, Nat.min_eq_left hle]
    · intro k _ hk w hw
      have hfew := wordsFor_le (hi - lo)
      have hbegin : lo + 64 * k < hi := by omega
      rw [Nat.min_eq_left (Nat.le_of_lt hbegin)] at hw
      exact hact k hbegin w hw
  rwa [hend] at hloop

end Loops

/-! ## Properties that survive -/

section Keeps

variable {inv : V → Prop} {edit : Edit V α} {next : α → Edit V β}

theorem keeps_of_yields
    (h : ∀ v, inv v → edit.Yields v (fun _ => inv) fun _ => inv) : edit.Keeps inv :=
  fun v hv => (h v hv).after

theorem Keeps.yields (h : edit.Keeps inv) {v : V} (hv : inv v) :
    edit.Yields v (fun _ => inv) fun _ => inv := by
  have hafter := h v hv
  rcases hrun : edit v with ⟨a, w⟩ | ⟨failure, w⟩
  · rw [after_of_ok hrun] at hafter
    exact yields_of_ok hrun hafter
  · rw [after_of_error hrun] at hafter
    exact yields_of_error hrun hafter

theorem keeps_pure (a : α) : (pure a : Edit V α).Keeps inv := fun _ hv => hv

theorem keeps_view (look : V → α) : (view look).Keeps inv := fun _ hv => hv

theorem keeps_inspect (read : V → Answer α) : (inspect read).Keeps inv := by
  intro v hv
  unfold after inspect
  cases read v <;> exact hv

theorem keeps_liftM (answer : Answer α) : (liftM answer : Edit V α).Keeps inv := by
  intro v hv
  cases answer <;> exact hv

theorem keeps_modify {f : V → V} (h : ∀ v, inv v → inv (f v)) :
    (modify f : Edit V Unit).Keeps inv := h

theorem Keeps.bind (h : edit.Keeps inv) (hnext : ∀ a, (next a).Keeps inv) :
    (edit >>= next).Keeps inv := by
  intro v hv
  have hmid := h v hv
  rcases hrun : edit v with ⟨a, w⟩ | ⟨failure, w⟩
  · rw [after_of_ok hrun] at hmid
    have hgoal := hnext a w hmid
    unfold after at hgoal ⊢
    rwa [bind_ok hrun]
  · rw [after_of_error hrun] at hmid
    rwa [after_of_error (bind_error hrun)]

theorem Keeps.discard (h : edit.Keeps inv) : (discard edit).Keeps inv := by
  intro v hv
  have hafter : (Functor.discard edit).after v = edit.after v := after_map edit (fun _ => ()) v
  rw [hafter]
  exact h v hv

theorem Keeps.reword {f : Failure → Failure} (h : edit.Keeps inv) :
    (edit.reword f).Keeps inv := by
  intro v hv
  have hmid := h v hv
  rcases hrun : edit v with ⟨a, w⟩ | ⟨failure, w⟩
  · rw [after_of_ok hrun] at hmid
    rwa [after_of_ok (reword_ok hrun)]
  · rw [after_of_error hrun] at hmid
    rwa [after_of_error (reword_error hrun)]

theorem Keeps.onFailure {cleanup : Failure → Edit V Unit} (h : edit.Keeps inv)
    (hcleanup : ∀ failure, (cleanup failure).Keeps inv) : (edit.onFailure cleanup).Keeps inv := by
  intro v hv
  have hmid := h v hv
  rcases hrun : edit v with ⟨a, w⟩ | ⟨failure, w⟩
  · rw [after_of_ok hrun] at hmid
    rwa [after_onFailure_of_ok hrun]
  · rw [after_of_error hrun] at hmid
    rw [after_onFailure_of_error hrun]
    exact hcleanup failure w hmid

theorem keeps_visitUp {act : Nat → Edit V Unit} (h : ∀ i, (act i).Keeps inv) (start count : Nat) :
    (visitUp start count act).Keeps inv := by
  induction count generalizing start with
  | zero => exact keeps_pure ()
  | succ count ih => exact (h start).bind fun _ => ih (start + 1)

theorem keeps_visitDown {act : Nat → Edit V Unit} (h : ∀ i, (act i).Keeps inv)
    (start count : Nat) : (visitDown start count act).Keeps inv := by
  induction count with
  | zero => exact keeps_pure ()
  | succ count ih => exact (h (start + count)).bind fun _ => ih

theorem keeps_visitWindows {act : Nat → Nat → Edit V Unit} (h : ∀ lo hi, (act lo hi).Keeps inv)
    (lo hi : Nat) : (visitWindows lo hi act).Keeps inv :=
  keeps_visitUp (fun _ => h _ _) 0 _

theorem keeps_foldUp {step : β → Nat → Edit V β} (h : ∀ acc i, (step acc i).Keeps inv)
    (start count : Nat) (acc : β) : (foldUp start count acc step).Keeps inv := by
  induction count generalizing start acc with
  | zero => exact keeps_pure acc
  | succ count ih => exact (h acc start).bind fun acc => ih (start + 1) acc

theorem keeps_forM {act : α → Edit V Unit} (h : ∀ a, (act a).Keeps inv) (items : List α) :
    (items.forM act).Keeps inv := by
  induction items with
  | nil => exact keeps_pure ()
  | cons a items ih => exact (h a).bind fun _ => ih

end Keeps

end Edit

/-! ## Judging answers -/

/-- An answer in two steps is given when both steps give one. -/
theorem bind_eq_ok {ε α β : Type} {answer : Except ε α} {next : α → Except ε β} {b : β}
    (h : (answer >>= next) = .ok b) : ∃ a, answer = .ok a ∧ next a = .ok b := by
  cases answer with
  | ok a => exact ⟨a, rfl, h⟩
  | error failure => cases h

theorem bind_of_ok {ε α β : Type} {answer : Except ε α} {next : α → Except ε β} {a : α}
    (h : answer = .ok a) : (answer >>= next) = next a := by
  subst h
  rfl

/-- An answer is as it should be, unless it was refused. -/
def Grants {α : Type} (answer : Answer α) (good : α → Prop) : Prop :=
  match answer with
  | .ok a => good a
  | .error failure => failure.isRefusal = true

theorem Grants.bind {α β : Type} {answer : Answer α} {next : α → Answer β} {good : α → Prop}
    {goal : β → Prop} (h : Grants answer good) (hnext : ∀ a, good a → Grants (next a) goal) :
    Grants (answer >>= next) goal := by
  cases answer with
  | ok a => exact hnext a h
  | error failure => exact h

theorem Grants.yields_inspect {V α β : Type} {answer : Answer α} {read : V → Answer α}
    {next : α → Edit V β} {v : V} {good : α → Prop} {goal : β → V → Prop}
    {failed : Failure → V → Prop} (h : Grants answer good) (hanswer : read v = answer)
    (hnext : ∀ a, good a → (next a).Yields v goal failed)
    (hfailed : ∀ failure, failure.isRefusal = true → failed failure v) :
    (Edit.inspect read >>= next).Yields v goal failed := by
  cases answer with
  | ok a => exact Edit.yields_inspect_bind hanswer (hnext a h)
  | error failure =>
    exact Edit.yields_of_error (Edit.inspect_bind_error hanswer) (hfailed failure h)

theorem grants_build {V : Type} {edit : Edit V Unit} {v : V} {good : V → Prop}
    (h : edit.Yields v (fun _ w => good w) fun failure _ => failure.isRefusal = true) :
    Grants (edit.build v) good := by
  unfold Grants Edit.build
  rcases hrun : edit v with ⟨a, w⟩ | ⟨failure, w⟩
  · exact h.of_ok hrun
  · exact h.of_error hrun

end PackedBits
