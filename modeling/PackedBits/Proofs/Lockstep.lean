import PackedBits.Proofs.BitListLaw
import PackedBits.Proofs.Reach

/-!
# Vectors in lockstep

A `Quartet` is four vectors: in words in one piece, in words in segments, in the
words of a store from elsewhere that fills word by word, and bit by bit with
every operation taken from the five that a vector owes. Started with the same
bits and put through the same changes, the four give the same replies, fail for
the same reason with nothing changed, and have the same bits after every step.
-/

namespace PackedBits

/-- Four vectors, one of each kind. -/
structure Quartet (shift : Nat) (S : Type) where
  flat : WordVec Flat
  segmented : WordVec (Segmented shift)
  foreign : WordVec S
  listed : BitList

namespace Quartet

/-- One of the four. -/
inductive Member where
  | flat
  | segmented
  | foreign
  | listed
  deriving DecidableEq, Repr

section

variable {shift : Nat} {S : Type} [WordStore S]

/-- Each of the four is as `p` says. -/
def Each (q : Quartet shift S) (p : ∀ {V : Type} [ResizableBits V], Member → V → Prop) : Prop :=
  p .flat q.flat ∧ p .segmented q.segmented ∧ p .foreign q.foreign ∧ p .listed q.listed

/-- The four have these bits. -/
def Shows (q : Quartet shift S) (bits : Array Bool) : Prop :=
  q.Each fun _ v => Bits.length v = bits.size ∧ Bits.toArray v = .ok bits

/-- None of the four is refused memory for a change; each asks an allocator of
its own. -/
def Granted (q : Quartet shift S) (memory : Member → Allocator) (c : Change) : Prop :=
  q.Each fun m v => ¬(c.run (memory m)).Refused v

/-- What a change leaves of the four. -/
def after (q : Quartet shift S) (memory : Member → Allocator) (c : Change) : Quartet shift S where
  flat := (c.run (memory .flat)).after q.flat
  segmented := (c.run (memory .segmented)).after q.segmented
  foreign := (c.run (memory .foreign)).after q.foreign
  listed := (c.run (memory .listed)).after q.listed

/-- The four give the same reply to a change. -/
def Replies (q : Quartet shift S) (memory : Member → Allocator) (c : Change) (reply : Reply) :
    Prop :=
  q.Each fun m v => c.run (memory m) v = .ok reply ((c.run (memory m)).after v)

/-- The four reject a change for the same reason and stay as they were. -/
def Rejects (q : Quartet shift S) (memory : Member → Allocator) (c : Change)
    (failure : Failure) : Prop :=
  q.Each fun m v => c.run (memory m) v = .error failure v

theorem Rejects.after_eq {q : Quartet shift S} {memory : Member → Allocator} {c : Change}
    {failure : Failure} (h : q.Rejects memory c failure) : q.after memory c = q := by
  obtain ⟨hflat, hsegmented, hforeign, hlisted⟩ := h
  rw [after, Edit.after_of_error hflat, Edit.after_of_error hsegmented,
    Edit.after_of_error hforeign, Edit.after_of_error hlisted]

/-- Four vectors that were made with the same bits and then put through the same
changes, none of which was refused memory. -/
inductive Together : Quartet shift S → Prop where
  | start (q : Quartet shift S) (bits : Array Bool) : StoreKind.flat.Reached q.flat →
    (StoreKind.segmented shift).Reached q.segmented →
    WordVec.Reached (fun _ => False) q.foreign → q.Shows bits → Together q
  | step (memory : Member → Allocator) (c : Change) {q : Quartet shift S} : Together q →
    c.Lawful → q.Granted memory c → Together (q.after memory c)

end

section

variable {shift : Nat} {S : Type} [WordStore S] [LawfulStore S] {q : Quartet shift S}
  {memory : Member → Allocator} {c : Change} {bits bits' : List Bool} {reply : Reply}

/-- The four hold the same bits, each in its way. -/
structure Holds (q : Quartet shift S) (bits : List Bool) : Prop where
  flat : q.flat.Holds bits
  segmented : q.segmented.Holds bits
  foreign : q.foreign.Holds bits
  listed : BitList.Holds q.listed bits

theorem Holds.shows (h : q.Holds bits) : q.Shows bits.toArray := by
  have hmember : ∀ {V : Type} [Bits V] {v : V}, (Bits.source v).Reads bits →
      Bits.length v = bits.toArray.size ∧ Bits.toArray v = .ok bits.toArray :=
    fun hreads => ⟨hreads.length_eq, hreads.toArray_eq⟩
  exact ⟨hmember h.flat.reads, hmember h.segmented.reads, hmember h.foreign.reads,
    hmember (BitList.lawful.reads h.listed)⟩

variable [LawfulFill S]

theorem Holds.replies (h : q.Holds bits) (hc : c.Lawful) (hgranted : q.Granted memory c)
    (hplan : c.plan bits = .ok (reply, bits')) :
    q.Replies memory c reply ∧ (q.after memory c).Holds bits' := by
  obtain ⟨hflat, hsegmented, hforeign, hlisted⟩ := hgranted
  have hflat := c.run_of_plan WordVec.lawful hc h.flat hflat hplan
  have hsegmented := c.run_of_plan WordVec.lawful hc h.segmented hsegmented hplan
  have hforeign := c.run_of_plan WordVec.lawful hc h.foreign hforeign hplan
  have hlisted := c.run_of_plan BitList.lawful hc h.listed hlisted hplan
  exact ⟨⟨hflat.1, hsegmented.1, hforeign.1, hlisted.1⟩,
    ⟨hflat.2, hsegmented.2, hforeign.2, hlisted.2⟩⟩

theorem Holds.rejects (h : q.Holds bits) (memory : Member → Allocator) (hc : c.Lawful)
    {failure : Failure} (hplan : c.plan bits = .error failure) : q.Rejects memory c failure :=
  ⟨(c.follows_run WordVec.lawful _ hc).error h.flat hplan,
    (c.follows_run WordVec.lawful _ hc).error h.segmented hplan,
    (c.follows_run WordVec.lawful _ hc).error h.foreign hplan,
    (c.follows_run BitList.lawful _ hc).error h.listed hplan⟩

/-- However far they have gone, the four hold the same bits. -/
theorem Together.exists_bits (h : q.Together) : ∃ bits, q.Holds bits := by
  induction h with
  | start q bits hflat hsegmented hforeign hshows =>
    obtain ⟨flatBits, hflat⟩ := hflat.exists_bits
    obtain ⟨segmentedBits, hsegmented⟩ := hsegmented.exists_bits
    obtain ⟨foreignBits, hforeign⟩ := hforeign.sound fun _ hnone => hnone.elim
    have hlisted : BitList.Holds q.listed q.listed.bits.toList := rfl
    have hsame : ∀ {V : Type} [Bits V] {v : V} {held : List Bool}, (Bits.source v).Reads held →
        Bits.toArray v = .ok bits → held = bits.toList := by
      intro V _ v held hreads hv
      rw [hreads.toArray_eq] at hv
      cases hv
      rfl
    obtain ⟨⟨_, hflatBits⟩, ⟨_, hsegmentedBits⟩, ⟨_, hforeignBits⟩, ⟨_, hlistedBits⟩⟩ := hshows
    refine ⟨bits.toList, ?_, ?_, ?_, ?_⟩
    · rwa [← hsame hflat.reads hflatBits]
    · rwa [← hsame hsegmented.reads hsegmentedBits]
    · rwa [← hsame hforeign.reads hforeignBits]
    · rwa [← hsame hlisted.reads hlistedBits]
  | step memory c _ hc hgranted ih =>
    obtain ⟨bits, hq⟩ := ih
    rcases hplan : c.plan bits with failure | ⟨reply, bits'⟩
    · rw [(hq.rejects memory hc hplan).after_eq]
      exact ⟨bits, hq⟩
    · exact ⟨bits', (hq.replies hc hgranted hplan).2⟩

end

/-- After any run the four have the same bits, and for whatever comes next they
give the same reply and have the same bits again, or reject it for the same
reason and stay as they were. -/
theorem lockstep {shift : Nat} {S : Type} [WordStore S] [LawfulStore S]
    (hfill : ∀ lo hi value,
      (WordStore.fill lo hi value : Edit S Unit) = WordStore.fillEach lo hi value)
    {q : Quartet shift S} (h : q.Together) :
    ∃ bits, q.Shows bits ∧
      ∀ memory c, c.Lawful → q.Granted memory c →
        (∃ reply bits', q.Replies memory c reply ∧ (q.after memory c).Shows bits') ∨
          ∃ failure, failure.isValidation = true ∧ q.Rejects memory c failure := by
  have := LawfulFill.of_fillEach hfill
  obtain ⟨bits, hq⟩ := h.exists_bits
  refine ⟨bits.toArray, hq.shows, fun memory c hc hgranted => ?_⟩
  rcases hplan : c.plan bits with failure | ⟨reply, bits'⟩
  · exact .inr ⟨failure, c.validates_plan bits failure hplan, hq.rejects memory hc hplan⟩
  · obtain ⟨hreplies, hafter⟩ := hq.replies hc hgranted hplan
    exact .inl ⟨reply, bits'.toArray, hreplies, hafter.shows⟩

/-- Sixty-five ones in segments of one word, and an insertion that moves a bit
from the first segment to the second, done twice. -/
theorem lockstep_over_a_seam :
    let filled : Script := .andThen (.change .unlimited (.setLength 65) trivial)
      (.change .unlimited .flipAll trivial)
    let q : Quartet 0 Plain := ⟨filled.run.after WordVec.empty, filled.run.after WordVec.empty,
      filled.run.after WordVec.empty, ⟨Array.replicate 65 true, by decide⟩⟩
    let memory : Member → Allocator := fun _ => .unlimited
    let c : Change := .insert 3 false
    let r := q.after memory c
    (∀ lo hi value, (WordStore.fill lo hi value : Edit Plain Unit) =
        WordStore.fillEach lo hi value) ∧
      r.Together ∧ c.Lawful ∧ r.Granted memory c ∧
      ((∃ reply bits', r.Replies memory c reply ∧ (r.after memory c).Shows bits') ∨
        ∃ failure, failure.isValidation = true ∧ r.Rejects memory c failure) := by
  intro filled q memory c r
  have hshows : q.Shows (Array.replicate 65 true) := by
    refine ⟨?_, ?_, ?_, ?_⟩ <;> decide +kernel
  have hstart : q.Together := .start q _ (.script filled .empty) (.script filled .empty)
    (.script filled .empty) hshows
  have hfirst : q.Granted memory c := by
    refine ⟨?_, ?_, ?_, ?_⟩ <;> decide +kernel
  have hsecond : r.Granted memory c := by
    refine ⟨?_, ?_, ?_, ?_⟩ <;> decide +kernel
  have htogether : r.Together := hstart.step memory c trivial hfirst
  obtain ⟨_, _, hnext⟩ := lockstep Plain.fill_eq_fillEach htogether
  exact ⟨Plain.fill_eq_fillEach, htogether, trivial, hsecond, hnext memory c trivial hsecond⟩

end Quartet

end PackedBits
