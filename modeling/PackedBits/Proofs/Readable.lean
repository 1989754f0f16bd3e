import PackedBits.Proofs.BitListLaw
import PackedBits.Proofs.PartLaw
import PackedBits.Proofs.Reach
import PackedBits.Proofs.Scan

/-!
# Whatever can be read is read as it should be

`Readable` is every vector that there is to read: any vector in words that can be
made, a vector of one bit repeated, any that takes its counts and scans over from
the class, and a part of a readable vector, to any depth. A part asks the vector
behind it and gives no position outside of itself away. `Readable.answers` says
that counts, windows and scans of all of them are those of their bits. Scans and
counts that go by windows need these to end at positions, which they do in a vector
of no more than `windowsEnd 0` bits. `Overruns` says which scans go past them and are
given up, `Scannable` and `Tallyable` where none does.
-/

namespace PackedBits

/-! ## One bit repeated -/

namespace Uniform

theorem getElem?_replicate_eq_some_iff {n p : Nat} {value b : Bool} :
    (List.replicate n value)[p]? = some b ↔ p < n ∧ value = b := by
  rw [List.getElem?_replicate]
  split
  · rename_i hp
    rw [Option.some.injEq, and_iff_right hp]
  · rename_i hp
    exact ⟨nofun, fun h => absurd h.1 hp⟩

theorem countOnes_eq (v : Uniform) :
    v.countOnes = .ok ((List.replicate v.length v.value).count true) := by
  rw [countOnes, List.count_replicate]
  cases v.value <;> rfl

theorem next_eq (v : Uniform) (b : Bool) (i : Nat) : ∃ found, v.next b i = .ok found ∧
    Least (fun p => i ≤ p ∧ (List.replicate v.length v.value)[p]? = some b) found := by
  refine ⟨_, rfl, ?_⟩
  split
  · rename_i hfound
    apply Least.present ⟨Nat.le_refl i, getElem?_replicate_eq_some_iff.mpr hfound.symm⟩
    exact fun q hq => hq.1
  · rename_i hnone
    apply Least.absent
    rintro p ⟨hp, hb⟩
    obtain ⟨hlt, hvalue⟩ := getElem?_replicate_eq_some_iff.mp hb
    exact hnone ⟨hvalue, Nat.lt_of_le_of_lt hp hlt⟩

theorem previous_eq (v : Uniform) (b : Bool) (i : Nat) : ∃ found, v.previous b i = .ok found ∧
    Greatest (fun p => p < i ∧ (List.replicate v.length v.value)[p]? = some b) found := by
  refine ⟨_, rfl, ?_⟩
  split
  · rename_i hfound
    obtain ⟨hvalue, hstop⟩ := hfound
    apply Greatest.present
    · exact ⟨by omega, getElem?_replicate_eq_some_iff.mpr ⟨by omega, hvalue⟩⟩
    · rintro q ⟨hq, hb⟩
      have hlt := (getElem?_replicate_eq_some_iff.mp hb).1
      omega
  · rename_i hnone
    apply Greatest.absent
    rintro p ⟨hp, hb⟩
    obtain ⟨hlt, hvalue⟩ := getElem?_replicate_eq_some_iff.mp hb
    exact hnone ⟨hvalue, by omega⟩

theorem faithful (v : Uniform) : Faithful v (List.replicate v.length v.value) where
  reads := v.reads
  countOnes_eq := v.countOnes_eq
  next_eq := v.next_eq
  previous_eq := v.previous_eq

end Uniform

/-! ## Counts and scans that are taken over -/

/-- A vector takes its counts and scans over from the class, so that they go by
windows. -/
structure TakesScans {V : Type} [Bits V] (v : V) : Prop where
  countOnes_eq : Bits.countOnes v = (Bits.source v).countOnes
  next_eq : Bits.next v = (Bits.source v).next
  previous_eq : Bits.previous v = (Bits.source v).previous

section

variable {V : Type} [Bits V] {v : V} {bits : List Bool}

theorem TakesScans.scanned (h : TakesScans v) (hreads : (Bits.source v).Reads bits) :
    Scanned (Source.PastWindows bits) v bits where
  reads := hreads
  countOnes_eq := h.countOnes_eq ▸ hreads.countOnes_eq
  next_eq b i := h.next_eq ▸ hreads.next_eq b i
  previous_eq b i := h.previous_eq ▸ hreads.previous_eq b i

theorem TakesScans.faithful (h : TakesScans v) (hreads : (Bits.source v).Reads bits)
    (hreach : bits.length ≤ windowsEnd 0) : Faithful v bits where
  reads := hreads
  countOnes_eq := (h.scanned hreads).countOnes_eq
  next_eq b i := ((h.scanned hreads).next_eq b i).resolve_right fun hstopped =>
    Nat.not_lt.mpr hreach hstopped.1.windowsEnd_lt
  previous_eq := (h.scanned hreads).previous_eq

/-- Bits that are all read, and windows gathered from them, are as they should be. -/
theorem Source.lawful_of_gather {s : Source} (hbit : ∀ i, i < s.length → ∃ b, s.bit i = .ok b)
    (hwindow : s.window = Source.gather s.length s.bit) : s.Lawful := by
  have hlength : s.length = s.bits.length := by
    rw [Source.bits, List.length_map, List.length_range]
  have hread : ∀ i b, s.bits[i]? = some b → s.bit i = .ok b := by
    intro i b hb
    have hi : i < s.length := hlength ▸ lt_length_of_getElem? hb
    obtain ⟨read, hrun⟩ := hbit i hi
    rw [Source.bits, List.getElem?_map, List.getElem?_range hi, Option.map_some, hrun] at hb
    cases hb
    exact hrun
  refine ⟨hlength, hread _ _, fun lo hi hle hhi hspan => ?_⟩
  rw [hwindow, hlength]
  exact Source.gather_eq hread hle hhi hspan

end

/-! ## Through a part -/

namespace Part

variable {V : Type} {p : Part V}

section

variable {P : Nat → Prop} {found : Option Nat}

/-- The lowest position of the vector behind is the lowest of the part, if it lies
in the part, and there is none in the part if it does not. -/
theorem least_localPosition (h : Least P found) (hlow : ∀ q, P q → p.start ≤ q) :
    Least (fun q => P (p.start + q) ∧ p.start + q < p.stop) (p.localPosition found) := by
  unfold localPosition
  cases h with
  | absent hnone => exact .absent fun q hq => hnone _ hq.1
  | @present q hq hleast =>
    have hstart := hlow q hq
    by_cases hlt : q < p.stop
    · rw [Option.filter_some, if_pos (decide_eq_true ⟨hstart, hlt⟩), Option.map_some]
      apply Least.present
      · rw [Nat.add_sub_cancel' hstart]
        exact ⟨hq, hlt⟩
      · rintro r ⟨hr, -⟩
        have hle := hleast _ hr
        omega
    · rw [Option.filter_some, if_neg (by rw [decide_eq_true_iff]; exact fun hin => hlt hin.2)]
      apply Least.absent
      rintro r ⟨hr, hstop⟩
      have hle := hleast _ hr
      omega

/-- The highest position of the vector behind is the highest of the part, if it
lies in the part, and there is none in the part if it does not. -/
theorem greatest_localPosition (h : Greatest P found) (hhigh : ∀ q, P q → q < p.stop) :
    Greatest (fun q => P (p.start + q)) (p.localPosition found) := by
  unfold localPosition
  cases h with
  | absent hnone => exact .absent fun q hq => hnone _ hq
  | @present q hq hmost =>
    have hstop := hhigh q hq
    by_cases hle : p.start ≤ q
    · rw [Option.filter_some, if_pos (decide_eq_true ⟨hle, hstop⟩), Option.map_some]
      apply Greatest.present
      · rwa [Nat.add_sub_cancel' hle]
      · intro r hr
        have hge := hmost _ hr
        omega
    · rw [Option.filter_some, if_neg (by rw [decide_eq_true_iff]; exact fun hin => hle hin.1)]
      apply Greatest.absent
      intro r hr
      have hge := hmost _ hr
      omega

end

variable [Bits V] {front middle back : List Bool} {stopped : Bool → Nat → Prop}

theorem Framed.next_eq (hp : Framed (Scanned stopped) front back p middle) (b : Bool) (i : Nat) :
    (∃ found, p.next b i = .ok found ∧ Least (fun q => i ≤ q ∧ middle[q]? = some b) found) ∨
      (i < middle.length ∧ stopped b (front.length + i)) ∧
        p.next b i = .error (.overflow .sum) := by
  unfold Part.next
  rw [hp.length_eq]
  split
  · rename_i hpast
    exact .inl ⟨none, rfl, least_past hpast⟩
  · rename_i hin
    obtain ⟨found, hrun, hleast⟩ | ⟨hstopped, hrun⟩ :=
      hp.holds_backing.next_eq b (p.start + i)
    · refine .inl ⟨_, bind_of_ok hrun, (least_localPosition hleast ?_).congr fun q => ?_⟩
      · exact fun q hq => Nat.le_trans (Nat.le_add_right _ i) hq.1
      · rw [hp.stop_eq, hp.start_eq]
        constructor
        · rintro ⟨⟨hq, hb⟩, hstop⟩
          rw [getElem?_framed_add front middle back (by omega)] at hb
          exact ⟨by omega, hb⟩
        · rintro ⟨hq, hb⟩
          have hlt := lt_length_of_getElem? hb
          rw [getElem?_framed_add front middle back hlt]
          exact ⟨⟨by omega, hb⟩, by omega⟩
    · rw [hrun]
      exact .inr ⟨⟨Nat.lt_of_not_le hin, hp.start_eq ▸ hstopped⟩, rfl⟩

theorem Framed.previous_eq (hp : Framed (Scanned stopped) front back p middle) (b : Bool)
    (i : Nat) : ∃ found, p.previous b i = .ok found ∧
      Greatest (fun q => q < i ∧ middle[q]? = some b) found := by
  unfold Part.previous
  rw [hp.length_eq]
  obtain ⟨found, hrun, hmost⟩ := hp.holds_backing.previous_eq b (p.start + min i middle.length)
  refine ⟨_, bind_of_ok hrun, (greatest_localPosition hmost ?_).congr fun q => ?_⟩
  · rintro q ⟨hq, -⟩
    rw [hp.stop_eq, ← hp.start_eq]
    omega
  · rw [hp.start_eq]
    constructor
    · rintro ⟨hq, hb⟩
      rw [getElem?_framed_add front middle back (by omega)] at hb
      exact ⟨by omega, hb⟩
    · rintro ⟨hq, hb⟩
      have hlt := lt_length_of_getElem? hb
      rw [getElem?_framed_add front middle back hlt]
      exact ⟨by omega, hb⟩

/-- The scans of a part are given up only where those of the vector behind are; it counts
by its windows. -/
theorem Framed.scanned (hp : Framed (Scanned stopped) front back p middle) :
    Scanned (fun b i => i < middle.length ∧ stopped b (front.length + i)) p middle where
  reads := hp.reads Scanned.reads
  countOnes_eq := (hp.reads Scanned.reads).countOnes_eq
  next_eq := hp.next_eq
  previous_eq := hp.previous_eq

/-- A part of a faithful vector is faithful. -/
theorem Framed.faithful (hp : Framed Faithful front back p middle) : Faithful p middle := by
  have hframed : Framed (Scanned fun _ _ => False) front back p middle :=
    ⟨hp.holds_backing.scanned, hp.start_eq, hp.stop_eq⟩
  have hscanned := hframed.scanned
  exact ⟨hscanned.reads, hscanned.countOnes_eq,
    fun b i => (hscanned.next_eq b i).resolve_right fun hstopped => hstopped.1.2,
    hscanned.previous_eq⟩

/-- A range of a vector is a part. -/
theorem of_eq_ok {v : V} {lo hi : Nat} (hle : lo ≤ hi) (hhi : hi ≤ Bits.length v) :
    Part.of v lo hi = .ok ⟨v, lo, hi⟩ := by
  rw [Part.of, checkRange, require, if_pos ⟨hle, hhi⟩]
  rfl

theorem of_eq_error {v : V} {lo hi : Nat} (h : ¬(lo ≤ hi ∧ hi ≤ Bits.length v)) :
    Part.of v lo hi = .error (.invalidRange lo hi (Bits.length v)) := by
  rw [Part.of, checkRange, require, if_neg h]
  rfl

/-- A part that can be taken frames the bits of its range. -/
theorem framed_of {holds : V → List Bool → Prop} {v : V} {bits : List Bool} {lo hi : Nat}
    (hv : holds v bits) (hlength : Bits.length v = bits.length) (hof : Part.of v lo hi = .ok p) :
    Framed holds (bits.take lo) (bits.drop hi) p ((bits.take hi).drop lo) := by
  obtain ⟨_, hcheck, hp⟩ := bind_eq_ok hof
  obtain ⟨hle, hhi⟩ := require_eq_ok_iff.mp hcheck
  rw [hlength] at hhi
  cases hp
  have hbits : bits.take lo ++ (bits.take hi).drop lo ++ bits.drop hi = bits := by
    have hcut := drop_take_append (Nat.zero_le lo) hle hhi
    rw [List.drop_zero, List.drop_zero] at hcut
    rw [hcut, List.take_append_drop]
  refine ⟨?_, ?_, ?_⟩
  · rwa [hbits]
  · rw [List.length_take_of_le (Nat.le_trans hle hhi)]
  · rw [List.length_take_of_le (Nat.le_trans hle hhi), List.length_drop,
      List.length_take_of_le hhi, Nat.add_sub_cancel' hle]

end Part

/-! ## Every vector that there is to read -/

/-- A vector that can be read. -/
inductive Readable : ∀ {V : Type} [Bits V], V → Prop where
  | words (kind : StoreKind) {v : WordVec kind.Store} : kind.Reached v → Readable v
  | uniform (v : Uniform) : Readable v
  | bitwise {V : Type} [Bits V] {v : V} : TakesScans v →
    Bits.window v = Source.gather (Bits.length v) (Bits.bit v) →
    (∀ i, i < Bits.length v → ∃ b, Bits.bit v i = .ok b) → Readable v
  | windowed {V : Type} [Bits V] {v : V} : TakesScans v → (Bits.source v).Lawful → Readable v
  | part {V : Type} [Bits V] {v : V} {p : Part V} (lo hi : Nat) : Readable v →
    Part.of v lo hi = .ok p → Readable p

/-- A vector kept bit by bit, which takes all but its bits over. -/
theorem BitList.readable (v : BitList) : Readable v := by
  refine .bitwise ⟨rfl, rfl, rfl⟩ rfl fun i hi => ?_
  have hheld : BitList.Holds v v.bits.toList := rfl
  have hin : i < v.bits.toList.length := hheld.length_eq ▸ hi
  exact ⟨_, hheld.bit_eq (List.getElem?_eq_getElem hin)⟩

/-- A scan of `v` upwards from `i` for `b` comes to a window that does not end at a position:
past all the windows of `v` that do, or of the vector that `v` is a part of. -/
inductive Overruns : ∀ {V : Type} [Bits V], V → Bool → Nat → Prop where
  | windows {V : Type} [Bits V] {v : V} {bits : List Bool} {b : Bool} {i : Nat} : TakesScans v →
    (Bits.source v).Reads bits → Source.PastWindows bits b i → Overruns v b i
  | part {V : Type} [Bits V] {v : V} {p : Part V} {b : Bool} {i : Nat} (lo hi : Nat) :
    Part.of v lo hi = .ok p → i < hi - lo → Overruns v b (lo + i) → Overruns p b i

namespace Readable

variable {V : Type} [Bits V] {v : V}

/-- Only scans upwards can be given up, and only those that overrun are. -/
theorem exists_scanned (h : Readable v) : ∃ bits, Scanned (Overruns v) v bits := by
  induction h with
  | words kind hreached =>
    obtain ⟨bits, hbits⟩ := hreached.exists_bits
    exact ⟨bits, hbits.faithful.scanned⟩
  | uniform v => exact ⟨_, v.faithful.scanned⟩
  | @bitwise V _ v hscans hwindow hbit =>
    have hreads : (Bits.source v).Lawful := Source.lawful_of_gather hbit hwindow
    exact ⟨_, (hscans.scanned hreads).mono fun _ _ => .windows hscans hreads⟩
  | windowed hscans hlawful =>
    exact ⟨_, (hscans.scanned hlawful).mono fun _ _ => .windows hscans hlawful⟩
  | part lo hi _ hof ih =>
    obtain ⟨bits, hv⟩ := ih
    have hlength : Bits.length _ = bits.length := hv.reads.length_eq
    refine ⟨_, (Part.framed_of hv hlength hof).scanned.mono fun b i hstopped => ?_⟩
    obtain ⟨hlt, hover⟩ := hstopped
    obtain ⟨_, hcheck, -⟩ := bind_eq_ok hof
    obtain ⟨hle, hhi⟩ := require_eq_ok_iff.mp hcheck
    rw [List.length_take_of_le (by omega)] at hover
    rw [List.length_drop, List.length_take_of_le (by omega)] at hlt
    exact .part lo hi hof hlt hover

theorem exists_reads (h : Readable v) : ∃ bits, (Bits.source v).Reads bits := by
  obtain ⟨bits, hv⟩ := h.exists_scanned
  exact ⟨bits, hv.reads⟩

/-- The bits that are read one by one are those of the windows too. -/
theorem reads (h : Readable v) {bits : List Bool} (hbits : Bits.toArray v = .ok bits.toArray) :
    (Bits.source v).Reads bits := by
  obtain ⟨held, hheld⟩ := h.exists_reads
  rw [hheld.toArray_eq] at hbits
  cases hbits
  exact hheld

end Readable

/-- A scan that overruns is given up. -/
theorem Overruns.next_eq {V : Type} [Bits V] {v : V} {b : Bool} {i : Nat}
    (h : Overruns v b i) : Bits.next v b i = .error (.overflow .sum) := by
  induction h with
  | windows hscans hreads hpast => exact hscans.next_eq ▸ hreads.next_past hpast
  | @part V _ v p b i lo hi hof hlt _ ih =>
    obtain ⟨_, -, hp⟩ := bind_eq_ok hof
    cases hp
    have hin : ¬(Part.length ⟨v, lo, hi⟩ : Nat) ≤ i := Nat.not_le.mpr hlt
    show Part.next ⟨v, lo, hi⟩ b i = _
    rw [Part.next, if_neg hin, ih]
    rfl

namespace Readable

variable {V : Type} [Bits V] {v : V}

end Readable

end PackedBits
