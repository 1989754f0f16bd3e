import PackedBits.FieldList
import PackedBits.PositionSet
import PackedBits.Proofs.Change
import PackedBits.Proofs.PartLaw

/-!
# Properties that every edit keeps

`Kept inv` says that each operation of a type of vectors leaves `inv` true,
whether it succeeds, is refused or fails on the way. A property of the vector
behind a part is then kept by the operations on the part, so it is kept by a
`Script`: any nesting of changes made directly, through parts, through sets of
positions and through lists of numbers, each going on where a failure left off.
-/

namespace PackedBits

/-! ## Sources without stray ones -/

/-- No window that there is has a one past its width. -/
def Source.Trimmed (s : Source) : Prop :=
  ∀ lo hi w, lo ≤ hi → hi ≤ s.length → hi - lo ≤ 64 → s.window lo hi = .ok w →
    Word.Narrow (hi - lo) w

theorem Source.Reads.trimmed {s : Source} {bits : List Bool} (h : s.Reads bits) : s.Trimmed := by
  intro lo hi w hle hhi hspan hread
  rw [h.length_eq] at hhi
  obtain ⟨_, hread', hbits⟩ := h.window_eq lo hi hle hhi hspan
  cases hread.symm.trans hread'
  exact Word.narrow_of_window hbits

/-- A vector that an in-place combination takes has no stray ones. -/
def Change.Trimmed : Change → Prop
  | .combine _ other => other.Trimmed
  | _ => True

/-! ## Running on after a failure -/

namespace Edit

variable {V α β : Type} {inv : V → Prop}

/-- Runs an edit and goes on from what it leaves, whether it fails or not. -/
def attempt (edit : Edit V α) : Edit V Unit := fun v => .ok () (edit.after v)

theorem Keeps.attempt {edit : Edit V α} (h : edit.Keeps inv) : edit.attempt.Keeps inv := h

theorem Keeps.map {edit : Edit V α} (h : edit.Keeps inv) (f : α → β) :
    (f <$> edit).Keeps inv := by
  intro v hv
  rw [after_map]
  exact h v hv

end Edit

/-! ## Operations -/

/-- A property that every operation keeps. -/
structure Kept {V : Type} [ResizableBits V] (inv : V → Prop) : Prop where
  set (i : Nat) (b : Bool) : (MutableBits.set i b).Keeps inv
  setBits (lo width : Nat) (value : Word) : (MutableBits.setBits lo width value).Keeps inv
  fillRange (lo hi : Nat) (b : Bool) : (MutableBits.fillRange lo hi b).Keeps inv
  flipRange (lo hi : Nat) : (MutableBits.flipRange lo hi).Keeps inv
  combine (op : Connective) {other : Source} : other.Trimmed →
    (MutableBits.combine op other).Keeps inv
  setLength (memory : Allocator) (n : Nat) : (ResizableBits.setLength memory n).Keeps inv
  insert (memory : Allocator) (i : Nat) (b : Bool) : (ResizableBits.insert memory i b).Keeps inv
  remove (i : Nat) : (ResizableBits.remove i).Keeps inv
  push (memory : Allocator) (b : Bool) : (ResizableBits.push memory b).Keeps inv
  appendBits (memory : Allocator) (w : Word) (count : Nat) :
    (ResizableBits.appendBits memory w count).Keeps inv
  append (memory : Allocator) (other : Source) : (ResizableBits.append memory other).Keeps inv

section Derived

variable {V : Type} [ResizableBits V] {inv : V → Prop}

theorem Kept.flip (h : Kept inv) (i : Nat) : (MutableBits.flip i).Keeps inv :=
  (Edit.keeps_inspect _).bind fun _ => (h.set i _).discard.bind fun _ => Edit.keeps_pure _

theorem Kept.fill (h : Kept inv) (b : Bool) : (MutableBits.fill b).Keeps inv :=
  (Edit.keeps_view _).bind fun n => h.fillRange 0 n b

theorem Kept.flipAll (h : Kept inv) : MutableBits.flipAll.Keeps inv :=
  (Edit.keeps_view _).bind fun n => h.flipRange 0 n

theorem Kept.pop (h : Kept inv) : ResizableBits.pop.Keeps inv := by
  refine (Edit.keeps_view _).bind fun n => ?_
  split
  · exact Edit.keeps_pure _
  · exact (h.remove _).bind fun _ => Edit.keeps_pure _

theorem Kept.replace (h : Kept inv) (memory : Allocator) (other : Source) :
    (ResizableBits.replace memory other).Keeps inv :=
  (h.setLength memory 0).bind fun _ => h.append memory other

/-- A change is one of the operations. -/
theorem Kept.change (h : Kept inv) (memory : Allocator) {c : Change} (hc : c.Trimmed) :
    (c.run memory).Keeps inv := by
  cases c with
  | set i b => exact (h.set i b).map _
  | clearBit i => exact (h.set i false).map _
  | flip i => exact (h.flip i).map _
  | setBits lo width value => exact (h.setBits lo width value).map _
  | fillRange lo hi b => exact (h.fillRange lo hi b).map _
  | fill b => exact (h.fill b).map _
  | flipRange lo hi => exact (h.flipRange lo hi).map _
  | flipAll => exact h.flipAll.map _
  | combine op other => exact (h.combine op hc).map _
  | setLength n => exact (h.setLength memory n).map _
  | insert i b => exact (h.insert memory i b).map _
  | remove i => exact (h.remove i).map _
  | push b => exact (h.push memory b).map _
  | pop => exact h.pop.map _
  | clear => exact (h.setLength memory 0).map _
  | appendBits w count => exact (h.appendBits memory w count).map _
  | append other => exact (h.append memory other).map _
  | replace other => exact (h.replace memory other).map _

/-- Lawful vectors with a property that every operation keeps are lawful. -/
theorem Lawful.and_kept {holds : V → List Bool → Prop} (h : Lawful holds) (hinv : Kept inv) :
    Lawful fun v bits => inv v ∧ holds v bits := by
  have hand : ∀ {α : Type} {refused : V → Prop} {edit : Edit V α} {plan : Plan α},
      Follows holds refused edit plan → edit.Keeps inv →
      Follows (fun v bits => inv v ∧ holds v bits) refused edit plan := by
    intro α refused edit plan hfollows hkeeps v bits hv
    rcases hplan : plan bits with failure | ⟨a, bits'⟩
    · exact followsAt_error (hfollows.error hv.2 hplan) hplan
    · have hyields := hfollows.yields hv.2 hplan
      refine followsAt_of_yields hplan ?_
      rcases hrun : edit v with ⟨b, w⟩ | ⟨failure, w⟩
      · have hw := hkeeps v hv.1
        rw [Edit.after_of_ok hrun] at hw
        obtain ⟨hb, hholds⟩ := hyields.of_ok hrun
        exact Edit.yields_of_ok hrun ⟨hb, hw, hholds⟩
      · exact Edit.yields_of_error hrun (hyields.of_error hrun)
  exact {
    reads := fun hv => h.reads hv.2
    bit_past := fun hv => h.bit_past hv.2
    set := fun i b => hand (h.set i b) (hinv.set i b)
    setBits := fun lo width value => hand (h.setBits lo width value) (hinv.setBits lo width value)
    fillRange := fun lo hi b => hand (h.fillRange lo hi b) (hinv.fillRange lo hi b)
    flipRange := fun lo hi => hand (h.flipRange lo hi) (hinv.flipRange lo hi)
    combine := fun op _ _ hsource =>
      hand (h.combine op hsource) (hinv.combine op hsource.trimmed)
    remove := fun i => hand (h.remove i) (hinv.remove i)
    setLength := fun memory n => hand (h.setLength memory n) (hinv.setLength memory n)
    insert := fun memory i b => hand (h.insert memory i b) (hinv.insert memory i b)
    push := fun memory b => hand (h.push memory b) (hinv.push memory b)
    appendBits := fun memory w count =>
      hand (h.appendBits memory w count) (hinv.appendBits memory w count)
    append := fun memory _ _ hsource => hand (h.append memory hsource) (hinv.append memory _) }

end Derived

/-! ## Parts -/

namespace Part

variable {V α : Type} {inv : V → Prop}

theorem keeps_onBacking {edit : Edit V α} (h : edit.Keeps inv) :
    (onBacking edit).Keeps fun p : Part V => inv p.backing := by
  intro p hp
  rw [(editsPiece_onBacking edit p).after_eq]
  exact h p.backing hp

theorem keeps_onBackingFrom {edit : Nat → Edit V α} (h : ∀ start, (edit start).Keeps inv) :
    (onBackingFrom edit).Keeps fun p : Part V => inv p.backing :=
  fun p hp => keeps_onBacking (h p.start) p hp

theorem editsPiece_within [Bits V] (edit : Edit (Part V) α) {v : V} {lo hi : Nat}
    (hrange : checkRange lo hi (Bits.length v) = .ok ()) :
    (within lo hi edit).EditsPiece v edit ⟨v, lo, hi⟩ Part.backing where
  ok hrun := by simp only [within, hrange, hrun]
  error hrun := by simp only [within, hrange, hrun]

theorem keeps_within {edit : Edit (Part V) α} [Bits V] (lo hi : Nat)
    (h : edit.Keeps fun p => inv p.backing) : (within lo hi edit).Keeps inv := by
  intro v hv
  rcases hrange : checkRange lo hi (Bits.length v) with failure | _
  · rw [Edit.after_of_error (by simp only [within, hrange]; rfl)]
    exact hv
  · rw [(editsPiece_within edit hrange).after_eq]
    exact h ⟨v, lo, hi⟩ hv

variable [ResizableBits V]

theorem keeps_reachEnd : reachEnd.Keeps fun p : Part V => inv p.backing :=
  Edit.keeps_modify fun _ hp => hp

theorem keeps_editEnd (h : Kept inv) (memory : Allocator) {edit : Edit V Unit}
    (hedit : edit.Keeps inv) : (editEnd memory edit).Keeps fun p => inv p.backing := by
  refine (Edit.keeps_view _).bind fun ⟨stop, n⟩ => ?_
  have hmoved : (onBacking edit >>= fun _ => reachEnd).Keeps fun p => inv p.backing :=
    (keeps_onBacking hedit).bind fun _ => keeps_reachEnd
  show Edit.Keeps _ (if stop = n then _ else _)
  split
  · exact hmoved
  · refine (Edit.keeps_inspect _).bind fun tail => ?_
    refine (keeps_onBacking (h.setLength memory stop)).bind fun _ => ?_
    rw [← bind_assoc]
    exact hmoved.bind fun _ => keeps_onBacking (h.append memory _)

theorem keeps_insert (h : Kept inv) (memory : Allocator) (i : Nat) (b : Bool) :
    (insert memory i b).Keeps fun p => inv p.backing := by
  refine (Edit.keeps_inspect _).bind fun _ => ?_
  refine (keeps_onBackingFrom fun start => h.insert memory (start + i) b).bind fun _ => ?_
  exact Edit.keeps_modify fun _ hp => hp

theorem keeps_setBits (h : Kept inv) (lo width : Nat) (value : Word) :
    (setBits lo width value).Keeps fun p => inv p.backing :=
  (Edit.keeps_inspect _).bind fun _ =>
    keeps_onBackingFrom fun start => h.setBits (start + lo) width value

theorem keeps_combine (h : Kept inv) (op : Connective) (other : Source) :
    (combine op other).Keeps fun p => inv p.backing := by
  refine (Edit.keeps_view _).bind fun n => Edit.keeps_visitWindows (fun lo hi => ?_) 0 n
  refine (Edit.keeps_inspect _).bind fun mine => ?_
  exact (Edit.keeps_liftM _).bind fun theirs => keeps_setBits h lo _ _

theorem keeps_setLength (h : Kept inv) (memory : Allocator) (n : Nat) :
    (setLength memory n).Keeps fun p => inv p.backing :=
  (Edit.keeps_view _).bind fun _ => (Edit.keeps_liftM _).bind fun stop =>
    keeps_editEnd h memory (h.setLength memory stop)

theorem keeps_appendBits (h : Kept inv) (memory : Allocator) (w : Word) (count : Nat) :
    (appendBits memory w count).Keeps fun p => inv p.backing :=
  (Edit.keeps_view _).bind fun _ => (Edit.keeps_liftM _).bind fun _ =>
    keeps_editEnd h memory (h.appendBits memory w count)

/-- Operations on a part keep what operations on the vector behind keep. -/
theorem kept (h : Kept inv) : Kept fun p : Part V => inv p.backing where
  set i b := (Edit.keeps_inspect _).bind fun _ =>
    keeps_onBackingFrom fun start => h.set (start + i) b
  setBits := keeps_setBits h
  fillRange lo hi b := (Edit.keeps_inspect _).bind fun _ =>
    keeps_onBackingFrom fun start => h.fillRange (start + lo) (start + hi) b
  flipRange lo hi := (Edit.keeps_inspect _).bind fun _ =>
    keeps_onBackingFrom fun start => h.flipRange (start + lo) (start + hi)
  combine op other _ := keeps_combine h op other
  setLength := keeps_setLength h
  insert := keeps_insert h
  remove i := by
    refine (Edit.keeps_inspect _).bind fun _ => ?_
    refine (keeps_onBackingFrom fun start => h.remove (start + i)).bind fun old => ?_
    exact (Edit.keeps_modify fun _ hp => hp).bind fun _ => Edit.keeps_pure old
  push memory b := (Edit.keeps_view _).bind fun n => keeps_insert h memory n b
  appendBits := keeps_appendBits h
  append memory other := Edit.keeps_visitWindows
    (fun lo hi => (Edit.keeps_liftM _).bind fun w => keeps_appendBits h memory w _) 0 _

end Part

/-! ## Sets of positions -/

namespace PositionSet

variable {V α : Type} {inv : V → Prop}

theorem editsPiece_onBacking (edit : Edit V α) (s : PositionSet V) :
    (onBacking edit).EditsPiece s edit s.backing
      fun backing => ⟨backing, s.lower, s.upper⟩ where
  ok hrun := by simp only [onBacking, hrun]
  error hrun := by simp only [onBacking, hrun]

theorem editsPiece_within (edit : Edit (PositionSet V) α) (v : V) :
    (within edit).EditsPiece v edit (of v) PositionSet.backing where
  ok hrun := by simp only [within, hrun]
  error hrun := by simp only [within, hrun]

theorem editsPiece_withinBounds (edit : Edit (PositionSet V) α) (lo hi : Nat)
    (s : PositionSet V) :
    (withinBounds lo hi edit).EditsPiece s edit
      ⟨s.backing, (s.bounds lo hi).1, (s.bounds lo hi).2⟩
      fun t => ⟨t.backing, s.lower, s.upper⟩ where
  ok hrun := by simp only [withinBounds, hrun]
  error hrun := by simp only [withinBounds, hrun]

theorem keeps_onBacking {edit : Edit V α} (h : edit.Keeps inv) :
    (onBacking edit).Keeps fun s : PositionSet V => inv s.backing := by
  intro s hs
  rw [(editsPiece_onBacking edit s).after_eq]
  exact h s.backing hs

theorem keeps_within {edit : Edit (PositionSet V) α} (h : edit.Keeps fun s => inv s.backing) :
    (within edit).Keeps inv := by
  intro v hv
  rw [(editsPiece_within edit v).after_eq]
  exact h (of v) hv

theorem keeps_withinBounds {edit : Edit (PositionSet V) α} (lo hi : Nat)
    (h : edit.Keeps fun s => inv s.backing) :
    (withinBounds lo hi edit).Keeps fun s => inv s.backing := by
  intro s hs
  rw [(editsPiece_withinBounds edit lo hi s).after_eq]
  exact h _ hs

variable [ResizableBits V]

theorem keeps_remove (h : Kept inv) (i : Nat) : (remove i).Keeps fun s => inv s.backing := by
  refine (Edit.keeps_view _).bind fun admitted => ?_
  split
  · exact keeps_onBacking (h.set i false)
  · exact Edit.keeps_pure false

theorem keeps_clear (h : Kept inv) : clear.Keeps fun s => inv s.backing := by
  refine (Edit.keeps_view _).bind fun ⟨lower, reach⟩ => ?_
  show Edit.Keeps _ (if lower < reach then _ else _)
  split
  · exact keeps_onBacking (h.fillRange lower reach false)
  · exact Edit.keeps_pure ()

theorem keeps_insert (h : Kept inv) (memory : Allocator) (i : Nat) :
    (insert memory i).Keeps fun s => inv s.backing := by
  have hput : Edit.Keeps (fun s => inv s.backing)
      (do return !(← onBacking (MutableBits.set i true)) : Edit (PositionSet V) Bool) :=
    (keeps_onBacking (h.set i true)).bind fun _ => Edit.keeps_pure _
  refine (Edit.keeps_inspect _).bind fun _ => (Edit.keeps_view _).bind fun n => ?_
  split
  · exact (keeps_onBacking (h.setLength memory (i + 1))).bind fun _ => hput
  · exact hput

theorem keeps_extend (h : Kept inv) (memory : Allocator) (positions : List Nat) :
    (extend memory positions).Keeps fun s => inv s.backing :=
  Edit.keeps_forM (fun i => (keeps_insert h memory i).discard) positions

end PositionSet

/-! ## Lists of numbers -/

namespace FieldList

variable {V α : Type} {inv : V → Prop}

theorem editsPiece_onBacking (edit : Edit V α) (l : FieldList V) :
    (onBacking edit).EditsPiece l edit l.backing fun backing => ⟨backing, l.width⟩ where
  ok hrun := by simp only [onBacking, hrun]
  error hrun := by simp only [onBacking, hrun]

theorem editsPiece_within (edit : Edit (FieldList V) α) {width : Nat}
    (hwidth : checkWidth width = .ok ()) (v : V) :
    (within width edit).EditsPiece v edit ⟨v, width⟩ FieldList.backing where
  ok hrun := by simp only [within, hwidth, hrun]
  error hrun := by simp only [within, hwidth, hrun]

theorem keeps_onBacking {edit : Edit V α} (h : edit.Keeps inv) :
    (onBacking edit).Keeps fun l : FieldList V => inv l.backing := by
  intro l hl
  rw [(editsPiece_onBacking edit l).after_eq]
  exact h l.backing hl

theorem keeps_within {edit : Edit (FieldList V) α} (width : Nat)
    (h : edit.Keeps fun l => inv l.backing) : (within width edit).Keeps inv := by
  intro v hv
  rcases hwidth : checkWidth width with failure | _
  · rw [Edit.after_of_error (by simp only [within, hwidth]; rfl)]
    exact hv
  · rw [(editsPiece_within edit hwidth v).after_eq]
    exact h ⟨v, width⟩ hv

variable [ResizableBits V]

theorem keeps_set (h : Kept inv) (i : Nat) (value : Word) :
    (set i value).Keeps fun l => inv l.backing := by
  refine (Edit.keeps_inspect _).bind fun _ => (Edit.keeps_view _).bind fun width => ?_
  refine (Edit.keeps_liftM _).bind fun _ => (Edit.keeps_inspect _).bind fun old => ?_
  exact (keeps_onBacking (h.setBits _ width value)).bind fun _ => Edit.keeps_pure old

theorem keeps_setFields (h : Kept inv) (memory : Allocator) (n width : Nat) :
    (setFields memory n width).Keeps inv :=
  (Edit.keeps_liftM _).bind fun bits => h.setLength memory bits

theorem keeps_resize (h : Kept inv) (memory : Allocator) (n : Nat) :
    (resize memory n).Keeps fun l => inv l.backing :=
  (Edit.keeps_view _).bind fun width => keeps_onBacking (keeps_setFields h memory n width)

theorem keeps_push (h : Kept inv) (memory : Allocator) (value : Word) :
    (push memory value).Keeps fun l => inv l.backing := by
  refine (Edit.keeps_view _).bind fun ⟨width, n⟩ => (Edit.keeps_liftM _).bind fun _ => ?_
  refine (keeps_resize h memory n).bind fun _ => ?_
  exact keeps_onBacking (h.appendBits memory value width)

theorem keeps_pop (h : Kept inv) (memory : Allocator) :
    (pop memory).Keeps fun l => inv l.backing := by
  refine (Edit.keeps_view _).bind fun n => ?_
  split
  · exact Edit.keeps_pure none
  · refine (Edit.keeps_inspect _).bind fun last => ?_
    exact (keeps_resize h memory (n - 1)).bind fun _ => Edit.keeps_pure (some last)

theorem keeps_extend (h : Kept inv) (memory : Allocator) (values : List Word) :
    (extend memory values).Keeps fun l => inv l.backing :=
  Edit.keeps_forM (keeps_push h memory) values

end FieldList

/-! ## Scripts -/

/-- Edits of a set of positions, one after the other. -/
inductive SetScript where
  | insert (memory : Allocator) (i : Nat)
  | remove (i : Nat)
  | clear
  | extend (memory : Allocator) (positions : List Nat)
  | within (lo hi : Nat) (script : SetScript)
  | andThen (first second : SetScript)

/-- Edits of a list of numbers, one after the other. -/
inductive NumberScript where
  | set (i : Nat) (value : Word)
  | resize (memory : Allocator) (n : Nat)
  | push (memory : Allocator) (value : Word)
  | pop (memory : Allocator)
  | extend (memory : Allocator) (values : List Word)
  | andThen (first second : NumberScript)

/-- Edits of a vector, one after the other, made directly or through a view. -/
inductive Script where
  | change (memory : Allocator) (c : Change) (trimmed : c.Trimmed)
  | part (lo hi : Nat) (script : Script)
  | positions (script : SetScript)
  | numbers (width : Nat) (script : NumberScript)
  | andThen (first second : Script)

section Scripts

variable {V : Type} [ResizableBits V] {inv : V → Prop}

def SetScript.run : SetScript → Edit (PositionSet V) Unit
  | insert memory i => (PositionSet.insert memory i).attempt
  | remove i => (PositionSet.remove i).attempt
  | clear => PositionSet.clear.attempt
  | extend memory positions => (PositionSet.extend memory positions).attempt
  | within lo hi script => PositionSet.withinBounds lo hi script.run
  | andThen first second => do
    first.run
    second.run

def NumberScript.run : NumberScript → Edit (FieldList V) Unit
  | set i value => (FieldList.set i value).attempt
  | resize memory n => (FieldList.resize memory n).attempt
  | push memory value => (FieldList.push memory value).attempt
  | pop memory => (FieldList.pop memory).attempt
  | extend memory values => (FieldList.extend memory values).attempt
  | andThen first second => do
    first.run
    second.run

/-- Makes the edits, each on what the one before it left, failed or not. -/
def Script.run : Script → ∀ {V : Type} [ResizableBits V], Edit V Unit
  | change memory c _ => (c.run memory).attempt
  | part lo hi script => (Part.within lo hi script.run).attempt
  | positions script => PositionSet.within script.run
  | numbers width script => (FieldList.within width script.run).attempt
  | andThen first second => do
    first.run
    second.run

theorem Kept.setScript (h : Kept inv) (script : SetScript) :
    script.run.Keeps fun s : PositionSet V => inv s.backing := by
  induction script with
  | insert memory i => exact (PositionSet.keeps_insert h memory i).attempt
  | remove i => exact (PositionSet.keeps_remove h i).attempt
  | clear => exact (PositionSet.keeps_clear h).attempt
  | extend memory positions => exact (PositionSet.keeps_extend h memory positions).attempt
  | within lo hi script ih => exact PositionSet.keeps_withinBounds lo hi ih
  | andThen first second ih ih' => exact ih.bind fun _ => ih'

theorem Kept.numberScript (h : Kept inv) (script : NumberScript) :
    script.run.Keeps fun l : FieldList V => inv l.backing := by
  induction script with
  | set i value => exact (FieldList.keeps_set h i value).attempt
  | resize memory n => exact (FieldList.keeps_resize h memory n).attempt
  | push memory value => exact (FieldList.keeps_push h memory value).attempt
  | pop memory => exact (FieldList.keeps_pop h memory).attempt
  | extend memory values => exact (FieldList.keeps_extend h memory values).attempt
  | andThen first second ih ih' => exact ih.bind fun _ => ih'

end Scripts

/-- What every operation keeps, every script keeps. -/
theorem Kept.script (script : Script) {V : Type} [ResizableBits V] {inv : V → Prop}
    (h : Kept inv) : script.run.Keeps inv := by
  induction script generalizing V with
  | change memory c trimmed => exact (h.change memory trimmed).attempt
  -- The operations on the part keep the property of the vector behind it.
  | part lo hi script ih => exact (Part.keeps_within lo hi (ih (Part.kept h))).attempt
  | positions script => exact PositionSet.keeps_within (h.setScript script)
  | numbers width script => exact (FieldList.keeps_within width (h.numberScript script)).attempt
  | andThen first second ih ih' => exact (ih h).bind fun _ => ih' h

end PackedBits
