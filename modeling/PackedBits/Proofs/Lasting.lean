import PackedBits.Proofs.BitListLaw
import PackedBits.Proofs.Kept

/-!
# Bits that stay whatever is refused

A change of the end of a vector that is refused memory may have lost bits after those
that it was to keep, and these are still there: `Lasting` says so of the vectors of a
type, with a predicate for those that begin with given bits. It holds of words and of
single bits, and where it holds of the vector behind a part it holds of the part, which
takes off the bits after it before it asks for room and puts them back after.
-/

namespace PackedBits

/-! ## Vectors whose bits last -/

/-- A change of the end of a vector that is refused memory leaves a vector that still
begins, as `begins` says, with the bits that the change keeps. -/
structure Lasting {V : Type} [ResizableBits V] (holds begins : V → List Bool → Prop) : Prop where
  lawful : Lawful holds
  of_holds {v : V} {bits rest : List Bool} : holds v (bits ++ rest) → begins v bits
  shorter {v : V} {bits rest : List Bool} : begins v (bits ++ rest) → begins v bits
  setLength {v : V} {bits : List Bool} (memory : Allocator) (n : Nat) : holds v bits →
    (ResizableBits.setLength memory n).Yields v (fun _ w => holds w (resized n false bits))
      fun failure w => failure.isRefusal = true ∧ begins w (bits.take n)
  appendBits {v : V} {bits : List Bool} (memory : Allocator) (w : Word) {count : Nat} :
    count ≤ 64 → holds v bits → (ResizableBits.appendBits memory w count).Yields v
      (fun _ x => holds x (bits ++ (List.range count).map w.getLsbD))
      fun failure x => failure.isRefusal = true ∧ begins x bits
  append {v : V} {bits : List Bool} (memory : Allocator) {source : Source} {other : List Bool} :
    source.Reads other → holds v bits → (ResizableBits.append memory source).Yields v
      (fun _ x => holds x (bits ++ other))
      fun failure x => failure.isRefusal = true ∧ begins x bits

theorem Lasting.and_kept {V : Type} [ResizableBits V] {holds begins : V → List Bool → Prop}
    (h : Lasting holds begins) {inv : V → Prop} (hinv : Kept inv) :
    Lasting (fun v bits => inv v ∧ holds v bits) fun v bits => inv v ∧ begins v bits where
  lawful := h.lawful.and_kept hinv
  of_holds hv := ⟨hv.1, h.of_holds hv.2⟩
  shorter hv := ⟨hv.1, h.shorter hv.2⟩
  setLength memory n hv :=
    (((hinv.setLength memory n).yields hv.1).both (h.setLength memory n hv.2)).mono
      (fun _ _ hw => hw) fun _ _ hw => ⟨hw.2.1, hw.1, hw.2.2⟩
  appendBits memory w count hcount hv :=
    (((hinv.appendBits memory w count).yields hv.1).both (h.appendBits memory w hcount hv.2)).mono
      (fun _ _ hx => hx) fun _ _ hx => ⟨hx.2.1, hx.1, hx.2.2⟩
  append memory source _ hsource hv :=
    (((hinv.append memory source).yields hv.1).both (h.append memory hsource hv.2)).mono
      (fun _ _ hx => hx) fun _ _ hx => ⟨hx.2.1, hx.1, hx.2.2⟩

/-- Windows of a source are put at the end one by one, so where one of them cannot
be, the bits there were come first. -/
theorem Lasting.yields_appendWindows {V : Type} {holds begins : V → List Bool → Prop}
    {append : Word → Nat → Edit V Unit}
    (hshorter : ∀ {v bits rest}, begins v (bits ++ rest) → begins v bits)
    (happend : ∀ {v bits} w {count}, count ≤ 64 → holds v bits → (append w count).Yields v
      (fun _ x => holds x (bits ++ (List.range count).map w.getLsbD))
      fun failure x => failure.isRefusal = true ∧ begins x bits)
    {source : Source} {other : List Bool} (hsource : source.Reads other) {v : V}
    {bits : List Bool} (hv : holds v bits) :
    (visitWindows 0 source.length fun lo hi =>
      (do append (← source.window lo hi) (hi - lo) : Edit V Unit)).Yields v
      (fun _ x => holds x (bits ++ other))
      fun failure x => failure.isRefusal = true ∧ begins x bits := by
  have hstep : ∀ (v : V) (front : List Bool) w count,
      (holds v front ∧ ∃ more, front = bits ++ more) → count ≤ 64 →
      front.length + count ≤ bits.length + (other.length - 0) →
      (append w count).Yields v
        (fun _ x => holds x (front ++ (List.range count).map w.getLsbD) ∧
          ∃ more, front ++ (List.range count).map w.getLsbD = bits ++ more)
        fun failure x => failure.isRefusal = true ∧ begins x bits := by
    rintro v front w count ⟨hv, more, rfl⟩ hcount -
    refine (happend w hcount hv).mono (fun _ x hx => ⟨hx, _, List.append_assoc ..⟩) ?_
    exact fun _ x hx => ⟨hx.1, hshorter hx.2⟩
  rw [hsource.length_eq]
  refine (PackedBits.yields_appendWindows hsource (Nat.zero_le _) (Nat.le_refl _) hstep
    ⟨hv, [], (List.append_nil _).symm⟩).imp fun _ x hx => ?_
  rw [List.drop_zero, List.take_length] at hx
  exact hx.1

/-- A vector holds bits, and maybe more after them. -/
def HoldsFirst {V : Type} (holds : V → List Bool → Prop) (v : V) (bits : List Bool) : Prop :=
  ∃ more, holds v (bits ++ more)

section

variable {V : Type} {holds : V → List Bool → Prop} {v : V} {bits rest : List Bool}

theorem HoldsFirst.shorter (h : HoldsFirst holds v (bits ++ rest)) : HoldsFirst holds v bits := by
  obtain ⟨more, hmore⟩ := h
  exact ⟨rest ++ more, List.append_assoc .. ▸ hmore⟩

theorem holdsFirst_of_holds (h : holds v bits) : HoldsFirst holds v bits :=
  ⟨[], (List.append_nil bits).symm ▸ h⟩

theorem holdsFirst_take (h : holds v bits) (n : Nat) : HoldsFirst holds v (bits.take n) :=
  ⟨bits.drop n, (List.take_append_drop n bits).symm ▸ h⟩

end

namespace WordVec

variable {S : Type} [WordStore S] [LawfulStore S] {v : WordVec S} {bits : List Bool}

theorem Holds.ensureCapacity_or (h : v.Holds bits) (memory : Allocator) (m : Nat) :
    (WordVec.ensureCapacity memory m).Yields v (fun _ w => w.Holds bits)
      fun failure w => failure.isRefusal = true ∧ w.Holds bits := by
  refine (Image.ensureCapacity h memory m).mono (fun _ _ hw => hw) ?_
  rintro failure w ⟨hfailure, hw⟩
  exact ⟨hfailure ▸ rfl, hw⟩

theorem Holds.setLength_or (h : v.Holds bits) (memory : Allocator) (n : Nat) :
    (WordVec.setLength memory n).Yields v (fun _ w => w.Holds (resized n false bits))
      fun failure w => failure.isRefusal = true ∧ w.Holds bits :=
  h.setLength fun _ => h.ensureCapacity_or memory n

theorem Holds.appendBits_or (h : v.Holds bits) (memory : Allocator) (w : Word) {count : Nat}
    (hcount : count ≤ 64) :
    (WordVec.appendBits memory w count).Yields v
      (fun _ x => x.Holds (bits ++ (List.range count).map w.getLsbD))
      fun failure x => failure.isRefusal = true ∧ x.Holds bits :=
  h.appendBits w hcount (h.ensureCapacity_or memory _)

/-- Where a source cannot be put at the end, a part of it may have been. -/
theorem Holds.append_or (h : v.Holds bits) (memory : Allocator) {source : Source}
    {other : List Bool} (hsource : source.Reads other) :
    (WordVec.append memory source).Yields v (fun _ x => x.Holds (bits ++ other))
      fun failure x => failure.isRefusal = true ∧ HoldsFirst Holds x bits := by
  have hstep : ∀ {v : WordVec S} {bits} w {count}, count ≤ 64 → v.Holds bits →
      (WordVec.appendBits memory w count).Yields v
        (fun _ x => x.Holds (bits ++ (List.range count).map w.getLsbD))
        fun failure x => failure.isRefusal = true ∧ HoldsFirst Holds x bits :=
    fun w _ hcount hv => (hv.appendBits_or memory w hcount).mono (fun _ _ hx => hx)
      fun _ _ hx => ⟨hx.1, holdsFirst_of_holds hx.2⟩
  refine Edit.yields_congr (Edit.view_bind WordVec.length) ?_
  refine Edit.yields_liftM_bind (fun n _ => ?_) fun _ hsum =>
    ⟨plus_eq_error hsum ▸ rfl, holdsFirst_of_holds h⟩
  refine ((h.ensureCapacity_or memory n).mono (fun _ _ hw => hw) ?_).bind fun _ w hw => ?_
  · exact fun _ w hw => ⟨hw.1, holdsFirst_of_holds hw.2⟩
  · exact Lasting.yields_appendWindows HoldsFirst.shorter hstep hsource hw

theorem lasting [LawfulFill S] : Lasting (Holds (S := S)) (HoldsFirst Holds) where
  lawful := lawful
  of_holds hv := ⟨_, hv⟩
  shorter := HoldsFirst.shorter
  setLength memory n hv := (hv.setLength_or memory n).mono (fun _ _ hw => hw)
    fun _ _ hw => ⟨hw.1, holdsFirst_take hw.2 n⟩
  appendBits memory w _ hcount hv := (hv.appendBits_or memory w hcount).mono (fun _ _ hx => hx)
    fun _ _ hx => ⟨hx.1, holdsFirst_of_holds hx.2⟩
  append memory _ _ hsource hv := hv.append_or memory hsource

end WordVec

namespace BitList

variable {v : BitList} {bits : List Bool}

/-- Where the next bit has no room, those before it have been put at the end. -/
theorem Holds.appendBits_or (h : Holds v bits) (memory : Allocator) (w : Word) {count : Nat}
    (hcount : count ≤ 64) :
    (ResizableBits.appendBits memory w count).Yields v
      (fun _ x => Holds x (bits ++ (List.range count).map w.getLsbD))
      fun failure x => failure.isRefusal = true ∧ HoldsFirst Holds x bits := by
  refine Edit.yields_congr (Edit.view_bind _) ?_
  apply Edit.yields_liftM_bind_ok (require_eq_ok_iff.mpr hcount)
  refine (Edit.yields_visitUp (fun i x => Holds x (bits ++ (List.range i).map w.getLsbD)) ?_
    ?_).imp fun _ x hx => by rwa [Nat.zero_add] at hx
  · rwa [List.range_zero, List.map_nil, List.append_nil]
  · intro i _ _ x hx
    have hlength : Bits.length x = _ := hx.length_eq
    refine Edit.yields_congr (Edit.view_bind Bits.length) ?_
    rw [hlength]
    refine (hx.insert memory (Nat.le_refl _) (w.getLsbD i)).mono (fun _ y hy => ?_)
      fun _ y hy => ⟨hy.1, _, hy.2⟩
    rwa [List.insertIdx_length_self, List.append_assoc, ← List.map_singleton, ← List.map_append,
      ← List.range_succ] at hy

theorem lasting : Lasting Holds (HoldsFirst Holds) where
  lawful := lawful
  of_holds hv := ⟨_, hv⟩
  shorter := HoldsFirst.shorter
  setLength memory n hv := (hv.setLength memory n).mono (fun _ _ hw => hw)
    fun _ _ hw => ⟨hw.1, holdsFirst_take hw.2 n⟩
  appendBits memory w _ hcount hv := hv.appendBits_or memory w hcount
  append memory _ _ hsource hv := Lasting.yields_appendWindows HoldsFirst.shorter
    (fun w _ hcount hv => hv.appendBits_or memory w hcount) hsource hv

end BitList

namespace Part

variable {V : Type} [ResizableBits V] {holds begins : V → List Bool → Prop}
  {front middle back : List Bool} {p : Part V}

/-- A part begins with bits where the vector behind it begins with those before the
part and these, and the part reaches so far. -/
structure Begins (begins : V → List Bool → Prop) (front : List Bool) (p : Part V)
    (middle : List Bool) : Prop where
  begins_backing : begins p.backing (front ++ middle)
  start_eq : p.start = front.length
  le_stop : front.length + middle.length ≤ p.stop

theorem Begins.shorter (h : Lasting holds begins) {rest : List Bool}
    (hp : Begins begins front p (middle ++ rest)) : Begins begins front p middle where
  begins_backing := h.shorter (List.append_assoc .. ▸ hp.begins_backing)
  start_eq := hp.start_eq
  le_stop := by
    have hstop := hp.le_stop
    rw [List.length_append] at hstop
    omega

theorem Framed.begins_with (h : Lasting holds begins) (hp : Framed holds front back p middle) :
    Begins begins front p middle where
  begins_backing := h.of_holds hp.holds_backing
  start_eq := hp.start_eq
  le_stop := Nat.le_of_eq hp.stop_eq.symm

/-- A change of the end of a part that is refused at any step leaves the bits of the
part that it keeps. -/
theorem Framed.yields_editEnd_or (h : Lasting holds begins) (hp : Framed holds front back p middle)
    (memory : Allocator) {edit : Edit V Unit} {bits kept cut grown : List Bool}
    (hcut : middle = kept ++ cut) (hgrown : bits = kept ++ grown)
    (hedit : ∀ w, holds w (front ++ middle) → edit.Yields w (fun _ x => holds x (front ++ bits))
      fun failure x => failure.isRefusal = true ∧ begins x (front ++ kept)) :
    (editEnd memory edit).Yields p (fun _ q => Framed holds front back q bits)
      fun failure q => failure.isRefusal = true ∧ Begins begins front q kept := by
  have hstop := hp.stop_eq
  have hlength : middle.length = kept.length + cut.length := by rw [hcut, List.length_append]
  have hlength' : bits.length = kept.length + grown.length := by rw [hgrown, List.length_append]
  refine hp.yields_endSteps h.lawful.reads memory (fun _ hrefused => ⟨hrefused, ?_⟩) ?_
    (fun w hw => ?_) fun w tail htail hw => ?_
  · exact (hcut ▸ hp).begins_with h |>.shorter h
  · have hcutting := h.setLength memory p.stop hp.holds_backing
    rw [hp.resized_stop] at hcutting
    refine hcutting.mono (fun _ _ hw => hw) fun _ w hw =>
      ⟨hw.1, ?_, hp.start_eq, show _ ≤ p.stop by omega⟩
    rw [hstop, ← List.length_append, List.take_left, hcut, ← List.append_assoc] at hw
    exact h.shorter hw.2
  · exact (hedit w hw).mono (fun _ _ hx => hx) fun _ x hx =>
      ⟨hx.1, hx.2, hp.start_eq, show _ ≤ p.stop by omega⟩
  · refine (h.append memory htail hw).mono (fun _ _ hx => hx) fun _ x hx =>
      ⟨hx.1, ?_, hp.start_eq, show _ ≤ front.length + bits.length by omega⟩
    rw [hgrown, ← List.append_assoc] at hx
    exact h.shorter hx.2

theorem yields_setLength_or (h : Lasting holds begins) (memory : Allocator) (n : Nat)
    (hp : Framed holds front back p middle) :
    (setLength memory n).Yields p
      (fun _ q => Framed holds front back q (resized n false middle))
      fun failure q => failure.isRefusal = true ∧ Begins begins front q (middle.take n) := by
  refine Edit.yields_congr (Edit.view_bind Part.start) ?_
  rw [hp.start_eq]
  have hkept : middle.take n ++ middle.drop n = middle := List.take_append_drop n middle
  refine Edit.yields_liftM_bind (fun stop hstop => ?_) fun _ hsum =>
    ⟨plus_eq_error hsum ▸ rfl, (hkept.symm ▸ hp).begins_with h |>.shorter h⟩
  cases plus_eq_ok hstop
  refine hp.yields_editEnd_or h memory hkept.symm rfl fun w hw => ?_
  have hedit := h.setLength memory (front.length + n) hw
  rwa [resized_length_add_append, List.take_length_add_append] at hedit

theorem yields_appendBits_or (h : Lasting holds begins) (memory : Allocator) (w : Word)
    {count : Nat} (hcount : count ≤ 64) (hp : Framed holds front back p middle) :
    (appendBits memory w count).Yields p
      (fun _ q => Framed holds front back q (middle ++ (List.range count).map w.getLsbD))
      fun failure q => failure.isRefusal = true ∧ Begins begins front q middle := by
  refine Edit.yields_congr (Edit.view_bind Part.length) ?_
  apply Edit.yields_liftM_bind_ok (require_eq_ok_iff.mpr hcount)
  refine hp.yields_editEnd_or h memory (List.append_nil middle).symm rfl fun x hx => ?_
  refine (h.appendBits memory w hcount hx).imp fun _ y hy => ?_
  rwa [List.append_assoc] at hy

/-- A part of a vector whose bits last has bits that last. -/
theorem lasting (h : Lasting holds begins) (front back : List Bool) :
    Lasting (Framed holds front back) (Begins begins front) where
  lawful := lawful h.lawful front back
  of_holds hp := (hp.begins_with h).shorter h
  shorter hp := hp.shorter h
  setLength memory n hp := yields_setLength_or h memory n hp
  appendBits memory w _ hcount hp := yields_appendBits_or h memory w hcount hp
  append memory _ _ hsource hp :=
    Lasting.yields_appendWindows (fun hq => hq.shorter h)
      (fun w _ hcount hq => yields_appendBits_or h memory w hcount hq) hsource hp

end Part

end PackedBits
