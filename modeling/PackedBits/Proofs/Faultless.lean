import PackedBits.Proofs.Growth
import PackedBits.Proofs.Operation
import PackedBits.Proofs.ViewSecure

/-!
# No operation takes a wrong step

`StoreKind.Live` is every vector in words that can be made, every part of one to any
depth, and what any operations leave of these, failed ones too. Whatever is asked of
such a vector or done to it, with any arguments and whatever memory is granted, is the
same with every access to a word, every shift and every difference under guard, and
where it fails an argument was not admitted or memory not granted:
`StoreKind.Live.faultless` says so. It rests on one invariant, `StoreKind.InOrder`,
under which a vector or a part is safe to work on and which every operation keeps.
-/

namespace PackedBits

/-! ## Sources given as arguments -/

/-- Whatever source is given to a question can be read. -/
def Source.Question.Tame {α : Type} : Source.Question α → Prop
  | commonPrefix other | isPrefixOf other | isProperPrefixOf other | compare other
  | equal other | equalOn other _ _ => other.Tame
  | _ => True

def Query.Tame {α : Type} : Query α → Prop
  | source q => q.Tame
  | _ => True

def Change.Tame : Change → Prop
  | combine _ other | append other | replace other => other.Tame
  | _ => True

def Operation.Tame {kind : StoreKind} {depth : Nat} {α : Type} : Operation kind depth α → Prop
  | query q => q.Tame
  | change c => c.Tame
  | _ => True

/-! ## Questions and actions are safe -/

theorem Source.Tame.safe_ask {s : Source} (h : s.Tame) {α : Type} {q : Source.Question α}
    (hq : q.Tame) : SafeAnswer (q.guardedAsk s) (q.ask s) := by
  cases q with
  | isEmpty => exact safeAnswer_ok _
  | bit? i => exact safeAnswer_of_ordinary (h.bit? i)
  | toArray => exact safeAnswer_of_ordinary h.toArray
  | commonPrefix other => exact safeAnswer_of_ordinary (h.commonPrefix hq)
  | isPrefixOf other => exact safeAnswer_of_ordinary (h.isPrefixOf hq)
  | isProperPrefixOf other => exact safeAnswer_of_ordinary (h.isProperPrefixOf hq)
  | compare other => exact safeAnswer_of_ordinary (h.compare hq)
  | equal other => exact safeAnswer_of_ordinary (h.equal hq)
  | equalOn other lo hi => exact safeAnswer_of_ordinary (h.equalOn hq)
  | digest => exact safeAnswer_of_ordinary h.digest
  | copy memory => exact (h.copy memory).toSafeAnswer
  | copyRange memory lo hi => exact (h.copyRange memory lo hi).toSafeAnswer

section

variable {V α : Type} {guarded : GuardedBits V} {plain : ResizableBits V} {inv : V → Prop}

theorem PositionSet.safe_ask (h : Secure guarded plain inv) (q : Question α) {s : PositionSet V}
    (hs : inv s.backing) : SafeAnswer (q.guardedAsk s) (q.ask s) := by
  cases q with
  | contains i => exact safe_contains h hs i
  | size => exact safe_size h hs
  | first => exact safe_first h hs
  | last => exact safe_last h hs
  | isEmpty => exact safe_isEmpty h hs
  | visit lo ends => exact .given (guarded_walkFrom h hs lo) (h.safe_visitHolding hs true ends _)

theorem FieldList.safe_ask (h : Secure guarded plain inv) (q : Question α) {l : FieldList V}
    (hl : inv l.backing) : SafeAnswer (q.guardedAsk l) (q.ask l) := by
  cases q with
  | size => exact ⟨guarded_size h hl, ordinary_ok _⟩
  | get? i => exact safe_get? h hl i
  | visit ends =>
    exact .given (guarded_size h hl) (Walk.safe_visit (fun i => safe_field h hl i) ends _)

theorem PositionSet.safe_act (h : Secure guarded plain inv) (memory : Allocator) (a : Action α) :
    Edit.Safe (fun s : PositionSet V => inv s.backing) (a.guardedRun memory) (a.run memory) := by
  cases a with
  | insert i => exact safe_insert h memory i
  | remove i => exact safe_remove h i
  | clear => exact safe_clear h
  | extend positions => exact safe_extend h memory positions

theorem FieldList.safe_act (h : Secure guarded plain inv) (memory : Allocator) (a : Action α) :
    Edit.Safe (fun l : FieldList V => inv l.backing) (a.guardedRun memory) (a.run memory) := by
  cases a with
  | set i value => exact safe_set h i value
  | resize n => exact safe_resize h memory n
  | push value => exact safe_push h memory value
  | pop => exact safe_pop h memory
  | extend values => exact safe_extend h memory values

namespace Secure

theorem query (h : Secure guarded plain inv) {q : Query α} (hq : q.Tame) :
    SafeRead inv (Query.guardedRun q) (Query.run q) := by
  intro v hv
  cases q with
  | length => exact ⟨h.measure hv, ordinary_ok _⟩
  | bit i => exact h.bit i v hv
  | window lo hi => exact h.window lo hi v hv
  | window? lo hi => exact h.window? lo hi v hv
  | countOnes => exact h.countOnes v hv
  | countZeros => exact h.countZeros v hv
  | next b i => exact h.next b i v hv
  | previous b i => exact h.previous b i v hv
  | first b => exact h.next b 0 v hv
  | last b => exact h.last b v hv
  | visit ends => exact .given (h.measure hv) (h.safe_visitBits hv ends _)
  | visitHolding b lo hi ends =>
    exact .given (h.guardedBetween_eq hv lo hi) (h.safe_visitHolding hv b ends _)
  | source q => exact .given (h.source_eq hv) ((h.tame hv).safe_ask hq)
  | positions cuts q =>
    refine PositionSet.safe_ask h q ?_
    rwa [PositionSet.backing_foldl_apply]
  | numbers width q =>
    refine (safeAnswer_of_ordinary ?_).bind fun l hl => ?_
    · exact (ordinary_require _ rfl).bind fun _ _ => ordinary_ok _
    · obtain ⟨_, -, hl⟩ := bind_eq_ok hl
      cases hl
      exact FieldList.safe_ask h q hv

theorem change (h : Secure guarded plain inv) (memory : Allocator) {c : Change} (hc : c.Tame) :
    Edit.Safe inv (c.guardedRun memory) (c.run memory) := by
  cases c with
  | set i b => exact (h.set i b).map _
  | clearBit i => exact (h.set i false).map _
  | flip i => exact (h.flip i).map _
  | setBits lo width value => exact (h.setBits lo width value).map _
  | fillRange lo hi b => exact (h.fillRange lo hi b).map _
  | fill b => exact (h.fill b).map _
  | flipRange lo hi => exact (h.flipRange lo hi).map _
  | flipAll => exact h.flipAll.map _
  | combine op other => exact (h.combine op hc).map _
  | setLength n => exact (h.resize memory n).map _
  | insert i b => exact (h.insert memory i b).map _
  | remove i => exact (h.remove i).map _
  | push b => exact (h.push memory b).map _
  | pop => exact h.pop.map _
  | clear => exact (h.resize memory 0).map _
  | appendBits w count => exact (h.extend memory w count).map _
  | append other => exact (h.append memory hc).map _
  | replace other => exact (h.replace memory hc).map _

end Secure

end

/-! ## What vectors in words have of their own -/

namespace WordVec

section

variable {S : Type} [WordStore S] [LawfulStore S] [StoreGuard S] {v : WordVec S}

theorem InOrder.trim (h : v.InOrder) : v.trim.InOrder :=
  ⟨h.sound.trim, StoreGuard.fits_shrink h.fits⟩

theorem InOrder.duplicate (h : v.InOrder) : v.duplicate.InOrder :=
  ⟨h.sound.duplicate, StoreGuard.fits_duplicate h.fits⟩

variable [LawfulFill S]

theorem safe_extendBits (memory : Allocator) (bits : List Bool) :
    Edit.Safe (InOrder (S := S)) (@Guarded.extendBits S .guarded memory bits)
      (extendBits memory bits) :=
  Edit.safe_view_bind fun _ _ => (Edit.safe_liftM (ordinary_plus _ _)).bind fun _ =>
    (safe_ensureCapacity memory _).bind fun _ =>
      Edit.safe_forM (fun b => secure.push memory b) bits

theorem safe_includePosition (memory : Allocator) (i : Nat) :
    Edit.Safe (InOrder (S := S)) (@Guarded.includePosition S .guarded memory i)
      (includePosition memory i) := by
  refine Edit.safe_view_bind fun v _ => ?_
  have hset := (secure (S := S)).set i true
  split
  · exact (Edit.safe_liftM (ordinary_plus i 1)).bind fun n =>
      ((secure (S := S)).resize memory n).bind fun _ => hset.discard
  · exact hset.discard

theorem safe_act {α : Type} (memory : Allocator) (a : Action α) :
    Edit.Safe (InOrder (S := S)) (@Action.guardedRun S α .guarded memory a) (a.run memory) := by
  cases a with
  | word i =>
    exact Edit.safe_inspect (safeRead_of_refines (refines_getWord · i)
      fun _ hv => @Sound.ordinary_word S .guarded .guarded _ hv i)
  | words =>
    exact Edit.safe_inspect (safeRead_of_refines refines_words
      fun _ hv => @Sound.ordinary_words S .guarded .guarded _ hv)
  | reserve n => exact safe_reserve memory n
  | ensureCapacity n => exact safe_ensureCapacity memory n
  | trim => exact Edit.safe_modify fun _ hv => hv.trim
  | extendBits bits => exact safe_extendBits memory bits
  | extendPositions positions =>
    exact Edit.safe_forM (safe_includePosition memory) positions

end

end WordVec

/-! ## Vectors and parts to any depth -/

namespace StoreKind

variable {kind : StoreKind} {depth : Nat}

/-- The vector in words behind is in order, and each part on the way starts no later than
it stops. -/
def InOrder (kind : StoreKind) : (depth : Nat) → kind.View depth → Prop
  | 0 => WordVec.InOrder
  | depth + 1 => Part.Ordered (kind.InOrder depth)

/-- Vectors and parts in order are safe to work on. -/
theorem secure (kind : StoreKind) :
    (depth : Nat) → Secure (kind.guardedView depth) (kind.plainView depth) (kind.InOrder depth)
  | 0 => WordVec.secure
  | depth + 1 => Part.secure (kind.secure depth)

theorem safe_run (memory : Allocator) {α : Type} {op : Operation kind depth α} (hop : op.Tame) :
    Edit.Safe (kind.InOrder depth) (op.guardedRun memory) (op.run memory) := by
  cases op with
  | query q => exact Edit.safe_inspect ((kind.secure depth).query hop)
  | change c => exact (kind.secure depth).change memory hop
  | positions cuts a =>
    exact PositionSet.safe_inside cuts (PositionSet.safe_act (kind.secure depth) memory a)
  | numbers width a =>
    exact FieldList.safe_within width (FieldList.safe_act (kind.secure depth) memory a)
  | part lo hi =>
    exact Edit.safe_inspect fun _ hv => Part.safe_of (kind.secure depth) hv lo hi
  | narrow lo hi => exact Edit.safe_inspect fun p hp => Part.Ordered.safe_narrow hp lo hi
  | words a => exact WordVec.safe_act memory a

/-- The vectors in words over a kind of store that can be made, the parts of these, and
what any operations leave of either, which the vector behind a part is left with when the
part is given up. -/
inductive Live (kind : StoreKind) : (depth : Nat) → kind.View depth → Prop where
  | made {v : WordVec kind.Store} : kind.Reached v → Live kind 0 v
  | duplicate {v : WordVec kind.Store} : Live kind 0 v → Live kind 0 v.duplicate
  | part {depth : Nat} {v : kind.View depth} {p : Part (kind.View depth)} (lo hi : Nat) :
    Live kind depth v → Part.of v lo hi = .ok p → Live kind (depth + 1) p
  | narrow {depth : Nat} {p q : Part (kind.View depth)} (lo hi : Nat) :
    Live kind (depth + 1) p → p.narrow lo hi = .ok q → Live kind (depth + 1) q
  | after {depth : Nat} {v : kind.View depth} {α : Type} (memory : Allocator)
    (op : Operation kind depth α) : op.Tame → Live kind depth v →
      Live kind depth ((op.run memory).after v)
  | behind {depth : Nat} {p : Part (kind.View depth)} :
    Live kind (depth + 1) p → Live kind depth p.backing

theorem Reached.fits {v : WordVec kind.Store} (h : kind.Reached v) : StoreGuard.Fits v.store := by
  cases kind with
  | flat => exact WordVec.Reached.steady h (WordVec.steady_fits (S := Flat)) fun _ hw => hw.elim
  | segmented shift =>
    refine WordVec.Reached.steady h (WordVec.steady_fits (S := Segmented shift)) fun w hw => ?_
    obtain ⟨segments, n, hsegments, hofBuffers⟩ := hw
    exact WordVec.fits_of_ofBuffers hsegments hofBuffers
  | other S => trivial

theorem Live.inOrder {v : kind.View depth} (h : kind.Live depth v) : kind.InOrder depth v := by
  induction h with
  | made hv => exact ⟨hv.exists_bits, hv.fits⟩
  | duplicate _ ih => exact WordVec.InOrder.duplicate ih
  | part lo hi _ hp ih => exact Part.ordered_of_of ih hp
  | narrow lo hi _ hq ih => exact Part.Ordered.of_narrow ih hq
  | @after depth v α memory op hop _ ih =>
    exact ((safe_run memory hop v ih).yields.mono (fun _ _ hw => hw.1) fun _ _ hw => hw.2).after
  | behind _ ih => exact Part.Ordered.backing ih

/-- A vector or a part, to any depth, is read as it is under guard, and can be given to
any operation as a source. Every operation on it, with any arguments and whatever memory
is granted, reads and changes words that the store holds only, shifts words by less than
64 and takes no difference below zero: with a guard before every such step it is the same
operation, and it fails only where an argument is not admitted or memory not granted. -/
theorem Live.faultless {v : kind.View depth} (h : kind.Live depth v) :
    (@GuardedBits.source _ (kind.guardedView depth) v = .ok (Bits.source v) ∧
      (Bits.source v).Tame) ∧
    ∀ (memory : Allocator) (α : Type) (op : Operation kind depth α), op.Tame →
      op.guardedRun memory v = op.run memory v ∧
      ∀ failure w, op.guardedRun memory v = .error failure w → failure.isOrdinary = true := by
  have hv := h.inOrder
  have hsecure := kind.secure depth
  refine ⟨⟨hsecure.source_eq hv, hsecure.tame hv⟩, fun memory α op hop => ?_⟩
  have hsafe := safe_run memory hop v hv
  exact ⟨hsafe.same, fun failure w hrun =>
    (hsafe.yields.of_error (hsafe.same.symm.trans hrun)).1⟩

/-- One bit in three over a seam of words in segments, with seventy ones put after it and
then combined with what the vector behind held. -/
theorem Live.faultless_over_a_seam :
    let filled : Script := .andThen (.change .unlimited (.setLength 66) trivial)
      (.change .unlimited .flipAll trivial)
    let ground : (segmented 0).View 0 :=
      filled.run.after (WordVec.empty : WordVec (segmented 0).Store)
    let v : (segmented 0).View 1 := Part.mk ground 62 65
    let p : (segmented 0).View 2 := Part.mk v 1 2
    let ones : Uniform := ⟨70, true⟩
    let grow : Operation (segmented 0) 2 Reply := .change (.append (Bits.source ones))
    let grown := (grow.run .unlimited).after p
    let mix : Operation (segmented 0) 2 Reply :=
      .change (.combine .differ (Bits.source ground))
    (segmented 0).Live 0 ground ∧ (segmented 0).Live 2 p ∧ grow.Tame ∧ mix.Tame ∧
      grow.guardedRun .unlimited p = grow.run .unlimited p ∧
      mix.guardedRun .unlimited grown = mix.run .unlimited grown ∧
      ∀ failure w, mix.guardedRun .unlimited grown = .error failure w →
        failure.isOrdinary = true := by
  intro filled ground v p ones grow grown mix
  have hground : (segmented 0).Live 0 ground := .made (.script filled .empty)
  have hrange : checkRange 62 65 (Bits.length ground) = .ok () := by decide +kernel
  have hv : (segmented 0).Live 1 v := .part 62 65 hground (bind_of_ok hrange)
  have hp : (segmented 0).Live 2 p := .part 1 2 hv rfl
  have hones : grow.Tame := ones.reads.tame
  have hmix : mix.Tame := hground.faultless.1.2
  obtain ⟨hgrow, -⟩ := hp.faultless.2 .unlimited Reply grow hones
  have hgrown : (segmented 0).Live 2 grown := .after .unlimited grow hones hp
  obtain ⟨hsame, hordinary⟩ := hgrown.faultless.2 .unlimited Reply mix hmix
  exact ⟨hground, hp, hones, hmix, hgrow, hsame, hordinary⟩

end StoreKind

end PackedBits
