import PackedBits.Proofs.Lawful
import PackedBits.Uniform

/-!
# Changes of a vector

A `Change` is one operation on a vector with its arguments, and a `Reply` is
what it gives back. Run on any lawful vector, a change does what its plan does to
the bits, and where the plan refuses it an argument was not admitted.
-/

namespace PackedBits

/-! ## Sources of known bits -/

namespace Source

/-- The bits that are read at the positions of a source. -/
def bits (s : Source) : List Bool :=
  (List.range s.length).map fun i =>
    match s.bit i with
    | .ok b => b
    | .error _ => false

theorem Reads.bits_eq {s : Source} {bits : List Bool} (h : s.Reads bits) : s.bits = bits := by
  apply List.ext_getElem?
  intro i
  rw [Source.bits, h.length_eq, List.getElem?_map]
  rcases Nat.lt_or_ge i bits.length with hi | hout
  · have hb := List.getElem?_eq_getElem hi
    rw [List.getElem?_range hi, Option.map_some, h.bit_eq hb, hb]
  · rw [List.getElem?_eq_none hout, List.getElem?_eq_none (by rwa [List.length_range]),
      Option.map_none]

/-- Every bit is read, and a window has the bits read one by one. -/
def Lawful (s : Source) : Prop := s.Reads s.bits

theorem Reads.lawful {s : Source} {bits : List Bool} (h : s.Reads bits) : s.Lawful := by
  rwa [Source.Lawful, h.bits_eq]

end Source

/-- A vector of one bit repeated is read as it should be. -/
theorem Uniform.reads (v : Uniform) : (Bits.source v).Reads (List.replicate v.length v.value) where
  length_eq := List.length_replicate.symm
  bit_eq {i b} hb := by
    rw [List.getElem?_replicate] at hb
    split at hb
    · rename_i hi
      cases hb
      have hcheck : checkIndex i v.length = .ok () := require_eq_ok_iff.mpr hi
      rw [Bits.bit_source, show Bits.bit v i = v.bit i from rfl, Uniform.bit, hcheck]
      rfl
    · cases hb
  window_eq lo hi hle hhi hspan := by
    rw [List.length_replicate] at hhi
    have hcheck : checkWindow lo hi v.length = .ok () :=
      checkWindow_eq_ok_iff.mpr ⟨hle, hhi, hspan⟩
    refine ⟨if v.value then Word.mask (hi - lo) else 0#64, ?_, fun j => ?_⟩
    · rw [Bits.window_source, show Bits.window v lo hi = v.window lo hi from rfl, Uniform.window,
        hcheck]
      rfl
    · rw [List.getElem?_replicate]
      rcases Nat.lt_or_ge j (hi - lo) with hj | hj
      · rw [if_pos (show lo + j < v.length by omega), decide_eq_true hj, Bool.true_and,
          Option.getD_some]
        cases v.value
        · exact BitVec.getLsbD_zero
        · simp [Word.getLsbD_mask, hj, show j < 64 by omega]
      · rw [decide_eq_false (Nat.not_lt.mpr hj), Bool.false_and]
        cases v.value
        · exact BitVec.getLsbD_zero
        · simp [Word.getLsbD_mask, hj]

theorem foldUp_push {α : Type} {read : Nat → Answer α} {items : List α}
    (hread : ∀ i a, items[i]? = some a → read i = .ok a) :
    (foldUp 0 items.length #[] fun found i => return found.push (← read i)) =
      .ok items.toArray := by
  have hfold : ∀ (count start : Nat) (found : Array α), start + count = items.length →
      (foldUp start count found fun found i => return found.push (← read i)) =
        .ok (found.toList ++ items.drop start).toArray := by
    intro count
    induction count with
    | zero =>
      intro start found hend
      rw [List.drop_of_length_le (by omega), List.append_nil]
      rfl
    | succ count ih =>
      intro start found hend
      have hlt : start < items.length := by omega
      have hrest := ih (start + 1) (found.push items[start]) (by omega)
      rw [Array.toList_push, List.append_assoc, List.singleton_append,
        ← List.drop_eq_getElem_cons hlt] at hrest
      rw [foldUp, hread start _ (List.getElem?_eq_getElem hlt)]
      exact hrest
  exact hfold items.length 0 #[] (Nat.zero_add _)

/-- All the bits of a vector are read at once. -/
theorem Source.Reads.toArray_eq {V : Type} [Bits V] {v : V} {bits : List Bool}
    (h : (Bits.source v).Reads bits) : Bits.toArray v = .ok bits.toArray := by
  have hlength : Bits.length v = bits.length := h.length_eq
  rw [Bits.toArray, hlength]
  exact foldUp_push fun _ _ hb => h.bit_eq hb

/-! ## Refused arguments -/

/-- An answer that can fail for its arguments only. -/
def Validates {α : Type} (answer : Answer α) : Prop :=
  ∀ failure, answer = .error failure → failure.isValidation = true

section Validates

variable {α β : Type}

theorem validates_ok (a : α) : Validates (.ok a : Answer α) := by
  rintro _ ⟨⟩

theorem validates_error {failure : Failure} (h : failure.isValidation = true) :
    Validates (.error failure : Answer α) := by
  rintro _ ⟨⟩
  exact h

theorem Validates.bind {answer : Answer α} {next : α → Answer β} (h : Validates answer)
    (hnext : ∀ a, Validates (next a)) : Validates (answer >>= next) := by
  cases answer with
  | ok a => exact hnext a
  | error failure => exact validates_error (h failure rfl)

theorem validates_require (condition : Prop) [Decidable condition] {failure : Failure}
    (h : failure.isValidation = true) : Validates (require condition failure) := by
  unfold require
  split
  · exact validates_ok ()
  · exact validates_error h

theorem validates_checkWindow (lo hi length : Nat) : Validates (checkWindow lo hi length) :=
  (validates_require _ rfl).bind fun _ => validates_require _ rfl

theorem Plan.validates_map {plan : Plan α} {bits : List Bool} (h : Validates (plan bits))
    (f : α → β) : Validates (plan.map f bits) :=
  h.bind fun _ => validates_ok _

/-- A plan that looks one bit up refuses a position without a bit. -/
theorem validates_getElem? {bits : List Bool} {i : Nat} (found : Bool → β) :
    Validates (match bits[i]? with
      | some b => .ok (found b)
      | none => .error (.indexOutOfBounds i bits.length)) := by
  cases bits[i]? with
  | some b => exact validates_ok _
  | none => exact validates_error rfl

end Validates

/-! ## Changes and replies -/

/-- What a change gives back. -/
inductive Reply where
  | done
  | bit (b : Bool)
  | lastBit (b : Option Bool)
  deriving DecidableEq, Repr

/-- An operation on a vector and its arguments. -/
inductive Change where
  | set (i : Nat) (b : Bool)
  | clearBit (i : Nat)
  | flip (i : Nat)
  | setBits (lo width : Nat) (value : Word)
  | fillRange (lo hi : Nat) (b : Bool)
  | fill (b : Bool)
  | flipRange (lo hi : Nat)
  | flipAll
  | combine (op : Connective) (other : Source)
  | setLength (n : Nat)
  | insert (i : Nat) (b : Bool)
  | remove (i : Nat)
  | push (b : Bool)
  | pop
  | clear
  | appendBits (w : Word) (count : Nat)
  | append (other : Source)
  | replace (other : Source)

namespace Change

/-- Makes a change. -/
def run {V : Type} [ResizableBits V] (memory : Allocator) : Change → Edit V Reply
  | set i b => Reply.bit <$> MutableBits.set i b
  | clearBit i => Reply.bit <$> MutableBits.clearBit i
  | flip i => Reply.bit <$> MutableBits.flip i
  | setBits lo width value => (fun _ => .done) <$> MutableBits.setBits lo width value
  | fillRange lo hi b => (fun _ => .done) <$> MutableBits.fillRange lo hi b
  | fill b => (fun _ => .done) <$> MutableBits.fill b
  | flipRange lo hi => (fun _ => .done) <$> MutableBits.flipRange lo hi
  | flipAll => (fun _ => .done) <$> MutableBits.flipAll
  | combine op other => (fun _ => .done) <$> MutableBits.combine op other
  | setLength n => (fun _ => .done) <$> ResizableBits.setLength memory n
  | insert i b => (fun _ => .done) <$> ResizableBits.insert memory i b
  | remove i => Reply.bit <$> ResizableBits.remove i
  | push b => (fun _ => .done) <$> ResizableBits.push memory b
  | pop => Reply.lastBit <$> ResizableBits.pop
  | clear => (fun _ => .done) <$> ResizableBits.clear memory
  | appendBits w count => (fun _ => .done) <$> ResizableBits.appendBits memory w count
  | append other => (fun _ => .done) <$> ResizableBits.append memory other
  | replace other => (fun _ => .done) <$> ResizableBits.replace memory other

/-- What a change means for a list of bits. -/
def plan : Change → Plan Reply
  | set i b => (Plan.set i b).map .bit
  | clearBit i => (Plan.set i false).map .bit
  | flip i => (Plan.flip i).map .bit
  | setBits lo width value => (Plan.setBits lo width value).map fun _ => .done
  | fillRange lo hi b => (Plan.fillRange lo hi b).map fun _ => .done
  | fill b => (Plan.fill b).map fun _ => .done
  | flipRange lo hi => (Plan.flipRange lo hi).map fun _ => .done
  | flipAll => Plan.flipAll.map fun _ => .done
  | combine op other => (Plan.combine op other.bits).map fun _ => .done
  | setLength n => (Plan.setLength n).map fun _ => .done
  | insert i b => (Plan.insert i b).map fun _ => .done
  | remove i => (Plan.remove i).map .bit
  | push b => (Plan.push b).map fun _ => .done
  | pop => Plan.pop.map .lastBit
  | clear => Plan.clear.map fun _ => .done
  | appendBits w count => (Plan.appendBits w count).map fun _ => .done
  | append other => (Plan.append other.bits).map fun _ => .done
  | replace other => (Plan.replace other.bits).map fun _ => .done

/-- A vector that a change takes as an argument is read as it should be. -/
def Lawful : Change → Prop
  | combine _ other | append other | replace other => other.Lawful
  | _ => True

/-- A plan refuses arguments only. -/
theorem validates_plan (c : Change) (bits : List Bool) : Validates (c.plan bits) := by
  unfold plan
  cases c with
  | set | clearBit | flip | remove => exact Plan.validates_map (validates_getElem? _) _
  | setBits lo width value =>
    refine Plan.validates_map ?_ _
    refine Validates.bind (validates_checkWindow lo (lo + width) bits.length) fun _ => ?_
    exact (validates_require _ rfl).bind fun _ => validates_ok _
  | fillRange | flipRange | insert | appendBits =>
    refine Plan.validates_map ?_ _
    exact (validates_require _ rfl).bind fun _ => validates_ok _
  | fill | flipAll | combine | setLength | push | pop | clear | append | replace =>
    refine Plan.validates_map ?_ _
    exact validates_ok _

variable {V : Type} [ResizableBits V] {holds : V → List Bool → Prop} {memory : Allocator}
  {c : Change} {v w : V} {bits bits' : List Bool} {reply : Reply} {failure : Failure}

/-- A change of a lawful vector does what its plan does to the bits. -/
theorem follows_run (h : PackedBits.Lawful holds) (memory : Allocator) {c : Change}
    (hc : c.Lawful) : Follows holds (fun _ => True) (c.run memory) c.plan := by
  have hexact : ∀ {α : Type} {edit : Edit V α} {plan : Plan α},
      Follows holds (fun _ => False) edit plan → Follows holds (fun _ => True) edit plan :=
    fun hfollows => hfollows.mono fun _ hfalse => hfalse.elim
  cases c with
  | set i b => exact (hexact (h.set i b)).map _
  | clearBit i => exact (hexact (h.clearBit i)).map _
  | flip i => exact (hexact (h.flip i)).map _
  | setBits lo width value => exact (hexact (h.setBits lo width value)).map _
  | fillRange lo hi b => exact (hexact (h.fillRange lo hi b)).map _
  | fill b => exact (hexact (h.fill b)).map _
  | flipRange lo hi => exact (hexact (h.flipRange lo hi)).map _
  | flipAll => exact (hexact h.flipAll).map _
  | combine op other => exact (hexact (h.combine op hc)).map _
  | setLength n => exact (h.setLength memory n).map _
  | insert i b => exact (h.insert memory i b).map _
  | remove i => exact (hexact (h.remove i)).map _
  | push b => exact (h.push memory b).map _
  | pop => exact (hexact h.pop).map _
  | clear => exact (h.clear memory).map _
  | appendBits w count => exact (h.appendBits memory w count).map _
  | append other => exact (h.append memory hc).map _
  | replace other => exact (h.replace memory hc).map _

/-- A change that is not refused memory gives the reply of its plan and leaves
its bits. -/
theorem run_of_plan (h : PackedBits.Lawful holds) (hc : c.Lawful) (hv : holds v bits)
    (hgranted : ¬(c.run memory).Refused v) (hplan : c.plan bits = .ok (reply, bits')) :
    c.run memory v = .ok reply ((c.run memory).after v) ∧
      holds ((c.run memory).after v) bits' := by
  obtain ⟨w, hrun, hw⟩ := (follows_run h memory hc).granted hv hplan hgranted
  rw [Edit.after_of_ok hrun]
  exact ⟨hrun, hw⟩

/-- The reply that a change gives is that of its plan. -/
theorem plan_of_run_ok (h : PackedBits.Lawful holds) (hc : c.Lawful) (hv : holds v bits)
    (hrun : c.run memory v = .ok reply w) :
    ∃ bits', c.plan bits = .ok (reply, bits') ∧ holds w bits' := by
  rcases hplan : c.plan bits with failure | ⟨planned, bits'⟩
  · cases hrun.symm.trans ((follows_run h memory hc).error hv hplan)
  · obtain ⟨rfl, hw⟩ := ((follows_run h memory hc).yields hv hplan).of_ok hrun
    exact ⟨bits', rfl, hw⟩

/-- A change that fails, and not for want of memory, is one that its plan
rejects, and leaves everything as it was. -/
theorem plan_of_run_error (h : PackedBits.Lawful holds) (hc : c.Lawful) (hv : holds v bits)
    (hrun : c.run memory v = .error failure w) (hfailure : failure.isRefusal = false) :
    c.plan bits = .error failure ∧ w = v := by
  rcases hplan : c.plan bits with rejection | ⟨planned, bits'⟩
  · cases hrun.symm.trans ((follows_run h memory hc).error hv hplan)
    exact ⟨rfl, rfl⟩
  · obtain ⟨hrefused, -⟩ := ((follows_run h memory hc).yields hv hplan).of_error hrun
    rw [hfailure] at hrefused
    cases hrefused

end Change

end PackedBits
