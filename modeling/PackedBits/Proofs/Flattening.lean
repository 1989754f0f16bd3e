import Mathlib.Algebra.GroupWithZero.Nat
import PackedBits.Proofs.Operation

/-!
# Chains of parts

A part of a part can be had in two ways. `layered` takes each part of the part before, so
that a question put to the last one goes down through all of them and its answer comes
back up; `flattened` adds the offsets up and asks the vector behind at once. `Alike`
vectors give the same answer to every question; a part of a part is alike to the part with
the offsets added, and by induction along the chain so are the last parts of the two ways.
`Part.flattened_chain` is that statement, which also says where the last part lies and that
a chain that does not fit is refused in both ways alike.
-/

namespace PackedBits

/-! ## Vectors that give the same answers -/

/-- All that a vector answers when it is read. -/
structure Reading extends Source where
  countOnes : Answer Nat
  next : Bool → Nat → Answer (Option Nat)
  previous : Bool → Nat → Answer (Option Nat)

instance : Bits Reading where
  length r := r.length
  bit r := r.bit
  window r := r.window
  countOnes r := r.countOnes
  next r := r.next
  previous r := r.previous

section

variable {V W α : Type} [Bits V] [Bits W]

def reading (v : V) : Reading :=
  ⟨Bits.source v, Bits.countOnes v, Bits.next v, Bits.previous v⟩

/-- Two vectors, of whatever types, are the same to a reader. -/
def Alike (v : V) (w : W) : Prop := reading v = reading w

/-- A part is read through what is read of the vector behind. -/
theorem reading_part (v : V) (lo hi : Nat) :
    reading (⟨reading v, lo, hi⟩ : Part Reading) = reading (⟨v, lo, hi⟩ : Part V) := rfl

theorem countOnes_reading_part (v : V) (lo hi : Nat) :
    (Part.of (reading v) lo hi >>= Bits.countOnes) = (Part.of v lo hi >>= Bits.countOnes) := by
  unfold Part.of
  change (checkRange lo hi (Bits.length v) >>= _) >>= _ = _
  cases checkRange lo hi (Bits.length v) with
  | ok _ => rfl
  | error _ => rfl

/-- A question about the ones goes no further than what is read and the bounds. -/
theorem ask_reading (q : PositionSet.Question α) {s : PositionSet Reading} {t : PositionSet V}
    (hbacking : s.backing = reading t.backing) (hlower : s.lower = t.lower)
    (hupper : s.upper = t.upper) : q.ask s = q.ask t := by
  obtain ⟨read, lower, upper⟩ := s
  cases (hbacking : read = _)
  cases (hlower : lower = _)
  cases (hupper : upper = _)
  cases q with
  | size => exact if_congr Iff.rfl rfl (countOnes_reading_part t.backing t.lower t.reach)
  | _ => rfl

/-- A question goes no further than what is read of the vector. -/
theorem run_reading (q : Query α) (v : V) : q.run (reading v) = q.run v := by
  cases q with
  | positions cuts q =>
    obtain ⟨hlower, hupper⟩ := PositionSet.bounds_foldl_apply cuts
      (show (PositionSet.of (reading v)).lower = (PositionSet.of v).lower from rfl) rfl
    refine ask_reading q ?_ hlower hupper
    rw [PositionSet.backing_foldl_apply, PositionSet.backing_foldl_apply]
    rfl
  | numbers width q =>
    change (FieldList.of (reading v) width >>= q.ask) = (FieldList.of v width >>= q.ask)
    unfold FieldList.of
    cases FieldList.checkWidth width with
    | error _ => rfl
    | ok _ => cases q with | _ => rfl
  | _ => rfl

/-- Alike vectors answer every question alike. -/
theorem Alike.run_eq {v : V} {w : W} (h : Alike v w) (q : Query α) : q.run v = q.run w := by
  rw [← run_reading q v, h, run_reading q w]

theorem Alike.source_eq {v : V} {w : W} (h : Alike v w) : Bits.source v = Bits.source w :=
  congrArg Reading.toSource h

/-- The parts of alike vectors between the same bounds are alike. -/
theorem Alike.part {v : V} {w : W} (h : Alike v w) (lo hi : Nat) :
    Alike (⟨v, lo, hi⟩ : Part V) (⟨w, lo, hi⟩ : Part W) := by
  rw [Alike, ← reading_part v, h, reading_part w]

end

/-! ## A part of a part -/

namespace Part

section

variable {V : Type} {p : Part V} {lo hi : Nat}

/-- The bits of a part from `lo` up to `hi`, as a part of the vector behind it. -/
def shifted (p : Part V) (lo hi : Nat) : Part V := ⟨p.backing, p.start + lo, p.start + hi⟩

theorem length_shifted : (p.shifted lo hi).length = hi - lo := Nat.add_sub_add_left _ _ _

theorem narrow_eq_ok (hin : lo ≤ hi ∧ hi ≤ p.length) :
    p.narrow lo hi = .ok (p.shifted lo hi) := by
  rw [narrow, checkRange, require, if_pos hin]
  rfl

theorem narrow_eq_error (hout : ¬(lo ≤ hi ∧ hi ≤ p.length)) :
    p.narrow lo hi = .error (.invalidRange lo hi p.length) := by
  rw [narrow, checkRange, require, if_neg hout]
  rfl

/-- A position brought back through two layers is brought back through one. -/
theorem localPosition_localPosition (hhi : hi ≤ p.length) (position : Option Nat) :
    (⟨p, lo, hi⟩ : Part (Part V)).localPosition (p.localPosition position) =
      (p.shifted lo hi).localPosition position := by
  unfold length at hhi
  unfold shifted
  cases position with
  | none => rfl
  | some i =>
    simp only [localPosition, Option.filter_some, decide_eq_true_eq]
    by_cases hin : p.start + lo ≤ i ∧ i < p.start + hi
    · rw [if_pos hin, if_pos (by omega), Option.map_some, Option.filter_some,
        if_pos (by rw [decide_eq_true_eq]; omega), Option.map_some, Option.map_some, Nat.sub_sub]
    · rw [if_neg hin]
      split
      · rw [Option.map_some, Option.filter_some, if_neg (by rw [decide_eq_true_eq]; omega)]
        rfl
      · rfl

theorem localPosition_answer (hhi : hi ≤ p.length) (answer : Answer (Option Nat)) :
    ((do return p.localPosition (← answer)) >>= fun found =>
        return (⟨p, lo, hi⟩ : Part (Part V)).localPosition found) =
      (do return (p.shifted lo hi).localPosition (← answer)) := by
  cases answer with
  | ok position => exact congrArg Except.ok (localPosition_localPosition hhi position)
  | error _ => rfl

end

variable {V : Type} [Bits V] {p : Part V} {lo hi : Nat}

theorem bit_nested (hhi : hi ≤ p.length) (i : Nat) :
    (⟨p, lo, hi⟩ : Part (Part V)).bit i = (p.shifted lo hi).bit i := by
  change (checkIndex i (hi - lo) >>= fun _ => p.bit (lo + i)) =
    (checkIndex i (p.start + hi - (p.start + lo)) >>= fun _ =>
      Bits.bit p.backing (p.start + lo + i))
  rw [Nat.add_sub_add_left, Nat.add_assoc]
  cases hcheck : checkIndex i (hi - lo) with
  | error _ => rfl
  | ok _ =>
    have hin := require_eq_ok_iff.mp hcheck
    exact bind_of_ok (require_eq_ok_iff.mpr (by omega))

theorem window_nested (hle : lo ≤ hi) (hhi : hi ≤ p.length) (lo' hi' : Nat) :
    (⟨p, lo, hi⟩ : Part (Part V)).window lo' hi' = (p.shifted lo hi).window lo' hi' := by
  change (checkWindow lo' hi' (hi - lo) >>= fun _ => p.window (lo + lo') (lo + hi')) =
    (checkWindow lo' hi' (p.start + hi - (p.start + lo)) >>= fun _ =>
      Bits.window p.backing (p.start + lo + lo') (p.start + lo + hi'))
  rw [Nat.add_sub_add_left, Nat.add_assoc, Nat.add_assoc]
  cases hcheck : checkWindow lo' hi' (hi - lo) with
  | error _ => rfl
  | ok _ =>
    have hin := checkWindow_eq_ok_iff.mp hcheck
    exact bind_of_ok (checkWindow_eq_ok_iff.mpr (by omega))

theorem next_of_lt {b : Bool} {i : Nat} (h : i < p.length) :
    p.next b i = do return p.localPosition (← Bits.next p.backing b (p.start + i)) :=
  if_neg (Nat.not_le_of_lt h)

/-- A scan upward that begins in the inner part does not begin past the end of the outer. -/
theorem next_nested (hhi : hi ≤ p.length) (b : Bool) (i : Nat) :
    (⟨p, lo, hi⟩ : Part (Part V)).next b i = (p.shifted lo hi).next b i := by
  rcases Nat.lt_or_ge i (hi - lo) with hlt | hpast
  · have hin : lo + i < p.length := by omega
    have hin' : i < (p.shifted lo hi).length := length_shifted ▸ hlt
    rw [next_of_lt hlt, next_of_lt hin']
    change (p.next b (lo + i) >>= _) = (Bits.next p.backing b (p.start + lo + i) >>= _)
    rw [next_of_lt hin, Nat.add_assoc]
    exact localPosition_answer hhi _
  · have hpast' : (p.shifted lo hi).length ≤ i := length_shifted ▸ hpast
    exact (if_pos hpast).trans (if_pos hpast').symm

theorem previous_of_le {b : Bool} {i : Nat} (h : i ≤ p.length) :
    p.previous b i = do return p.localPosition (← Bits.previous p.backing b (p.start + i)) := by
  rw [previous, Nat.min_eq_left h]

/-- A scan downward that begins in the inner part begins in the outer. -/
theorem previous_nested (hle : lo ≤ hi) (hhi : hi ≤ p.length) (b : Bool) (i : Nat) :
    (⟨p, lo, hi⟩ : Part (Part V)).previous b i = (p.shifted lo hi).previous b i := by
  have hin : lo + min i (hi - lo) ≤ p.length := by omega
  change (p.previous b (lo + min i (hi - lo)) >>= _) =
    (Bits.previous p.backing b (p.start + lo + min i (p.start + hi - (p.start + lo))) >>= _)
  rw [Nat.add_sub_add_left, previous_of_le hin, Nat.add_assoc]
  exact localPosition_answer hhi _

/-- A part of a part is to a reader the part of the vector behind with the offsets added. -/
theorem alike_nested (hle : lo ≤ hi) (hhi : hi ≤ p.length) :
    Alike (⟨p, lo, hi⟩ : Part (Part V)) (p.shifted lo hi) := by
  have hlength : Bits.length (⟨p, lo, hi⟩ : Part (Part V)) = Bits.length (p.shifted lo hi) :=
    length_shifted.symm
  have hsource : Bits.source (⟨p, lo, hi⟩ : Part (Part V)) = Bits.source (p.shifted lo hi) := by
    unfold Bits.source
    congr 1
    · exact funext (bit_nested hhi)
    · exact funext₂ (window_nested hle hhi)
  unfold Alike reading
  congr 1
  · exact congrArg Source.countOnes hsource
  · exact funext₂ (next_nested hhi)
  · exact funext₂ (previous_nested hle hhi)

end Part

/-! ## Ranges one inside the other -/

/-- A vector, or a part of it, a part of that and so on. -/
def Layers : Nat → Type → Type
  | 0, V => V
  | depth + 1, V => Layers depth (Part V)

instance Layers.bits : (depth : Nat) → (V : Type) → [Bits V] → Bits (Layers depth V)
  | 0, _, bits => bits
  | depth + 1, V, _ => Layers.bits depth (Part V)

namespace Part

/-- What is left of a vector when each range is taken as a part of what was left before. -/
def layered : {V : Type} → [Bits V] → V → (ranges : List (Nat × Nat)) →
    Answer (Layers ranges.length V)
  | _, _, v, [] => .ok v
  | _, _, v, range :: ranges => do layered (← Part.of v range.1 range.2) ranges

variable {V : Type} [Bits V]

/-- A part narrowed to one range after the other. -/
def narrowed (p : Part V) (ranges : List (Nat × Nat)) : Answer (Part V) :=
  ranges.foldlM (fun p range => p.narrow range.1 range.2) p

/-- What is left of a vector when the first range is taken as a part of it and that is
narrowed to the others. -/
def flattened (v : V) (first : Nat × Nat) (rest : List (Nat × Nat)) : Answer (Part V) := do
  narrowed (← Part.of v first.1 first.2) rest

/-- Why ranges cannot be taken of `n` bits one inside the other: the first of them that
does not lie in the one before. -/
def misfit : Nat → List (Nat × Nat) → Option Failure
  | _, [] => none
  | n, range :: ranges =>
    if range.1 ≤ range.2 ∧ range.2 ≤ n then misfit (range.2 - range.1) ranges
    else some (.invalidRange range.1 range.2 n)

/-- Where the last of some ranges begins and ends when each is counted from the start of
the one before. -/
def place (first : Nat × Nat) (rest : List (Nat × Nat)) : Nat × Nat :=
  (((first :: rest).map Prod.fst).sum,
    ((first :: rest).dropLast.map Prod.fst).sum + (rest.getLastD first).2)

theorem place_cons (first range : Nat × Nat) (rest : List (Nat × Nat)) :
    place first (range :: rest) = place (first.1 + range.1, first.1 + range.2) rest := by
  cases rest with
  | nil => simp [place]
  | cons next rest =>
    simp only [place, List.map_cons, List.sum_cons, List.dropLast_cons_cons, List.getLastD_cons,
      Nat.add_assoc]

/-- Ranges taken one after the other leave of alike vectors what is alike, or are refused
for the same one of them. -/
theorem alike_chain (ranges : List (Nat × Nat)) : ∀ {W : Type} [Bits W] {v : W} {p : Part V},
    Alike v p →
      misfit p.length ranges = none ∧ (∃ nested flat, layered v ranges = .ok nested ∧
          p.narrowed ranges = .ok flat ∧ Alike nested flat ∧ flat.backing = p.backing ∧
          (flat.start, flat.stop) = place (p.start, p.stop) ranges) ∨
        ∃ lo hi n, misfit p.length ranges = some (.invalidRange lo hi n) ∧
          layered v ranges = .error (.invalidRange lo hi n) ∧
          p.narrowed ranges = .error (.invalidRange lo hi n) := by
  induction ranges with
  | nil =>
    intro W _ v p h
    have hplace : (p.start, p.stop) = place (p.start, p.stop) [] := by simp [place]
    exact .inl ⟨rfl, v, p, rfl, rfl, h, rfl, hplace⟩
  | cons range ranges ih =>
    intro W _ v p h
    have hlength : Bits.length v = p.length := Except.ok.inj (h.run_eq .length)
    rw [layered, narrowed, List.foldlM_cons, misfit, place_cons]
    by_cases hin : range.1 ≤ range.2 ∧ range.2 ≤ p.length
    · have hstep := (h.part range.1 range.2).trans (alike_nested hin.1 hin.2)
      rw [if_pos hin, bind_of_ok (of_eq_ok hin.1 (hlength ▸ hin.2)), bind_of_ok (narrow_eq_ok hin),
        ← length_shifted]
      exact ih hstep
    · rw [if_neg hin, of_eq_error (hlength ▸ hin), narrow_eq_error hin, hlength]
      exact .inr ⟨range.1, range.2, p.length, rfl, rfl, rfl⟩

/-- A chain of parts, each of the one before, and the part of the vector behind with the
offsets added cannot be told apart by reading them; the part lies where the offsets
add up to, and both are refused for the same range where one is. -/
theorem layered_reads_as_flattened (v : V) (first : Nat × Nat) (rest : List (Nat × Nat)) :
    misfit (Bits.length v) (first :: rest) = none ∧
        (∃ nested flat, layered v (first :: rest) = .ok nested ∧
          flattened v first rest = .ok flat ∧
          (∀ (α : Type) (q : Query α), q.run nested = q.run flat) ∧
          Bits.source nested = Bits.source flat ∧ flat.backing = v ∧
          flat.start = ((first :: rest).map Prod.fst).sum ∧
          flat.stop = ((first :: rest).dropLast.map Prod.fst).sum + (rest.getLastD first).2) ∨
      ∃ lo hi n, misfit (Bits.length v) (first :: rest) = some (.invalidRange lo hi n) ∧
        layered v (first :: rest) = .error (.invalidRange lo hi n) ∧
        flattened v first rest = .error (.invalidRange lo hi n) := by
  unfold layered flattened misfit
  by_cases hin : first.1 ≤ first.2 ∧ first.2 ≤ Bits.length v
  · let outer : Part V := ⟨v, first.1, first.2⟩
    have hself : Alike outer outer := rfl
    rw [if_pos hin, bind_of_ok (of_eq_ok hin.1 hin.2), bind_of_ok (of_eq_ok hin.1 hin.2)]
    rcases alike_chain rest hself with
      ⟨hfit, nested, flat, hnested, hflat, halike, hbacking, hplace⟩ | hmisfit
    · refine .inl ⟨hfit, nested, flat, hnested, hflat, fun α q => halike.run_eq q,
        halike.source_eq, hbacking, ?_, ?_⟩
      · exact congrArg Prod.fst hplace
      · exact congrArg Prod.snd hplace
    · exact .inr hmisfit
  · rw [if_neg hin, of_eq_error hin]
    exact .inr ⟨first.1, first.2, Bits.length v, rfl, rfl, rfl⟩

example : flattened (Uniform.mk 400 true) (30, 300) [(20, 100)] = .ok ⟨⟨400, true⟩, 50, 130⟩ := by
  decide

end Part

end PackedBits
