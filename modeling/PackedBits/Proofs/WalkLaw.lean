import Mathlib.Data.List.Sort
import PackedBits.Proofs.Scan
import PackedBits.Walk

/-!
# Walks give what lies between their ends

What is still to come of a walk is a list, and a step from the front takes its
head off, a step from the back its last item: `Walk.Takes` says so of a pair of
steps. For a walk over the positions that hold a bit the list is `positionsOf`
its ends, in increasing order; for a walk that reads at every position it is what
there is to read between them. A whole walk gives the list from either end.
-/

namespace PackedBits

/-! ## Positions in order -/

/-- The positions of bits from `lo` up to `hi` that hold `b`, in increasing
order. -/
def positionsOf (b : Bool) (bits : List Bool) (lo hi : Nat) : List Nat :=
  (List.range' lo (hi - lo)).filter fun p => decide (bits[p]? = some b)

section

variable {b : Bool} {bits : List Bool} {lo hi p : Nat}

theorem mem_positionsOf :
    p ∈ positionsOf b bits lo hi ↔ (lo ≤ p ∧ p < hi) ∧ bits[p]? = some b := by
  have hrange : lo ≤ p ∧ p < lo + (hi - lo) ↔ lo ≤ p ∧ p < hi := by omega
  rw [positionsOf, List.mem_filter, List.mem_range'_1, decide_eq_true_iff, hrange]

theorem pairwise_positionsOf : (positionsOf b bits lo hi).Pairwise (· < ·) :=
  List.Pairwise.filter _ List.pairwise_lt_range'

/-- Positions in increasing order are known by which they are. -/
theorem eq_positionsOf {positions : List Nat} (hsorted : positions.Pairwise (· < ·))
    (hmem : ∀ q, q ∈ positions ↔ (lo ≤ q ∧ q < hi) ∧ bits[q]? = some b) :
    positions = positionsOf b bits lo hi :=
  hsorted.eq_of_mem_iff pairwise_positionsOf fun q => (hmem q).trans mem_positionsOf.symm

theorem positionsOf_eq_nil (h : ∀ p, lo ≤ p → p < hi → bits[p]? ≠ some b) :
    positionsOf b bits lo hi = [] := by
  symm
  apply eq_positionsOf List.Pairwise.nil
  intro q
  constructor
  · intro hq
    cases hq
  · intro hq
    exact absurd hq.2 (h q hq.1.1 hq.1.2)

/-- Nothing lies between ends that have met. -/
theorem positionsOf_of_le (h : hi ≤ lo) : positionsOf b bits lo hi = [] :=
  positionsOf_eq_nil fun _ hlo hhi => absurd (Nat.lt_of_le_of_lt hlo hhi) (Nat.not_lt.mpr h)

/-- The lowest position comes first. -/
theorem positionsOf_eq_cons (hp : lo ≤ p ∧ bits[p]? = some b)
    (hleast : ∀ q, lo ≤ q ∧ bits[q]? = some b → p ≤ q) (hhi : p < hi) :
    positionsOf b bits lo hi = p :: positionsOf b bits (p + 1) hi := by
  symm
  apply eq_positionsOf
  · apply List.pairwise_cons.mpr
    exact ⟨fun q hq => (mem_positionsOf.mp hq).1.1, pairwise_positionsOf⟩
  · intro q
    rw [List.mem_cons, mem_positionsOf]
    constructor
    · intro hq
      obtain rfl | ⟨⟨hafter, hbefore⟩, hb⟩ := hq
      · exact ⟨⟨hp.1, hhi⟩, hp.2⟩
      · exact ⟨⟨by omega, hbefore⟩, hb⟩
    · intro hq
      obtain ⟨⟨hlo, hbefore⟩, hb⟩ := hq
      obtain heq | hafter := Nat.eq_or_lt_of_le (hleast q ⟨hlo, hb⟩)
      · exact .inl heq.symm
      · exact .inr ⟨⟨hafter, hbefore⟩, hb⟩

/-- The highest position comes last. -/
theorem positionsOf_eq_concat (hp : p < hi ∧ bits[p]? = some b)
    (hmost : ∀ q, q < hi ∧ bits[q]? = some b → q ≤ p) (hlo : lo ≤ p) :
    positionsOf b bits lo hi = positionsOf b bits lo p ++ [p] := by
  symm
  apply eq_positionsOf
  · apply List.pairwise_append.mpr
    refine ⟨pairwise_positionsOf, List.pairwise_singleton _ _, ?_⟩
    intro q hq r hr
    cases List.mem_singleton.mp hr
    exact (mem_positionsOf.mp hq).1.2
  · intro q
    rw [List.mem_append, List.mem_singleton, mem_positionsOf]
    constructor
    · intro hq
      obtain ⟨⟨hafter, hbefore⟩, hb⟩ | rfl := hq
      · exact ⟨⟨hafter, Nat.lt_trans hbefore hp.1⟩, hb⟩
      · exact ⟨⟨hlo, hp.1⟩, hp.2⟩
    · intro hq
      obtain ⟨⟨hafter, hbefore⟩, hb⟩ := hq
      obtain heq | hbelow := Nat.eq_or_lt_of_le (hmost q ⟨hbefore, hb⟩)
      · exact .inr heq
      · exact .inl ⟨⟨hafter, hbelow⟩, hb⟩

/-- What a scan up finds, if it is below `hi`, is the head of what is to come. -/
theorem positionsOf_of_least {found : Option Nat}
    (h : Least (fun q => lo ≤ q ∧ bits[q]? = some b) found) :
    positionsOf b bits lo hi =
      (found.filter (· < hi)).elim [] fun p => p :: positionsOf b bits (p + 1) hi := by
  cases h with
  | absent hnone => exact positionsOf_eq_nil fun p hlo _ hb => hnone p ⟨hlo, hb⟩
  | @present p hp hleast =>
    by_cases hhi : p < hi
    · rw [Option.filter_some, if_pos (decide_eq_true hhi)]
      exact positionsOf_eq_cons hp hleast hhi
    · rw [Option.filter_some, if_neg (by rwa [decide_eq_true_iff])]
      apply positionsOf_eq_nil
      intro q hlo hbefore hb
      exact hhi (Nat.lt_of_le_of_lt (hleast q ⟨hlo, hb⟩) hbefore)

/-- What a scan down finds, if it is not below `lo`, is the last of what is to
come. -/
theorem positionsOf_of_greatest {found : Option Nat}
    (h : Greatest (fun q => q < hi ∧ bits[q]? = some b) found) :
    positionsOf b bits lo hi =
      (found.filter (lo ≤ ·)).elim [] fun p => positionsOf b bits lo p ++ [p] := by
  cases h with
  | absent hnone => exact positionsOf_eq_nil fun p _ hhi hb => hnone p ⟨hhi, hb⟩
  | @present p hp hmost =>
    by_cases hlo : lo ≤ p
    · rw [Option.filter_some, if_pos (decide_eq_true hlo)]
      exact positionsOf_eq_concat hp hmost hlo
    · rw [Option.filter_some, if_neg (by rwa [decide_eq_true_iff])]
      apply positionsOf_eq_nil
      intro q hafter hhi hb
      exact hlo (Nat.le_trans hafter (hmost q ⟨hhi, hb⟩))

theorem head?_positionsOf {found : Option Nat}
    (h : Least (fun q => lo ≤ q ∧ bits[q]? = some b) found) :
    (positionsOf b bits lo hi).head? = found.filter (· < hi) := by
  rw [positionsOf_of_least h]
  cases found.filter (· < hi) <;> rfl

theorem getLast?_positionsOf {found : Option Nat}
    (h : Greatest (fun q => q < hi ∧ bits[q]? = some b) found) :
    (positionsOf b bits lo hi).getLast? = found.filter (lo ≤ ·) := by
  rw [positionsOf_of_greatest h]
  cases found.filter (lo ≤ ·) with
  | none => rfl
  | some p => exact List.getLast?_concat

/-- As many positions hold a bit as there are such bits. -/
theorem length_positionsOf (hhi : hi ≤ bits.length) :
    (positionsOf b bits lo hi).length = ((bits.take hi).drop lo).count b := by
  have hbits : (bits.take hi).drop lo =
      (List.range' lo (hi - lo)).map fun p => bits[p]?.getD (!b) := by
    apply List.ext_getElem?
    intro i
    rw [List.getElem?_drop, List.getElem?_take, List.getElem?_map]
    rcases Nat.lt_or_ge i (hi - lo) with hi' | hpast
    · rw [if_pos (by omega), List.getElem?_range' hi', Option.map_some, Nat.one_mul,
        List.getElem?_eq_getElem (by omega), Option.getD_some]
    · rw [if_neg (by omega), List.getElem?_eq_none (by rwa [List.length_range']), Option.map_none]
  have hcount : ∀ positions : List Nat,
      (positions.filter fun p => decide (bits[p]? = some b)).length =
        (positions.map fun p => bits[p]?.getD (!b)).count b := by
    intro positions
    rw [← List.countP_eq_length_filter, List.count, List.countP_map]
    apply List.countP_congr
    intro p _
    rw [decide_eq_true_iff, Function.comp_apply, beq_iff_eq]
    cases hp : bits[p]? with
    | none =>
      rw [Option.getD_none]
      cases b <;> exact iff_of_false nofun nofun
    | some held => rw [Option.some.injEq, Option.getD_some]
  rw [positionsOf, hcount, hbits]

end

/-! ## Walks -/

namespace Walk

variable {α : Type}

/-- An end of a walk. -/
inductive End where
  | front
  | back
  deriving DecidableEq

/-- Takes a step from each of the ends named, one after the other. -/
def steps (next nextBack : Edit Walk (Option α)) : List End → Edit Walk (List (Option α))
  | [] => return []
  | .front :: ends => do return (← next) :: (← steps next nextBack ends)
  | .back :: ends => do return (← nextBack) :: (← steps next nextBack ends)

/-- A step from the front takes the head off the list that a walk spans, and a
step from the back the last item; when there is none, it gives none. -/
structure Takes (next nextBack : Edit Walk (Option α)) (spans : Walk → List α → Prop) :
    Prop where
  next_eq {w : Walk} {items : List α} : spans w items →
    ∃ w', next w = .ok items.head? w' ∧ spans w' items.tail
  nextBack_eq {w : Walk} {items : List α} : spans w items →
    ∃ w', nextBack w = .ok items.getLast? w' ∧ spans w' items.dropLast
  length_le {w : Walk} {items : List α} : spans w items → items.length ≤ w.remaining

/-- Steps that take one head off after the other give the list. -/
theorem collect_eq {step : Edit Walk (Option α)} (spans : Walk → List α → Prop)
    (hstep : ∀ w items, spans w items →
      ∃ w', step w = .ok items.head? w' ∧ spans w' items.tail)
    {fuel : Nat} (found : Array α) {w : Walk} {items : List α} (hspans : spans w items)
    (hfuel : items.length ≤ fuel) :
    collect step fuel found w = .ok (found.toList ++ items).toArray := by
  induction fuel generalizing found w items with
  | zero =>
    cases List.eq_nil_of_length_eq_zero (Nat.eq_zero_of_le_zero hfuel)
    rw [List.append_nil]
    rfl
  | succ fuel ih =>
    obtain ⟨w', hrun, hrest⟩ := hstep w items hspans
    rw [collect, hrun]
    cases items with
    | nil =>
      rw [List.append_nil]
      rfl
    | cons a items =>
      have hmore := ih (found.push a) hrest (Nat.le_of_succ_le_succ hfuel)
      rwa [Array.toList_push, List.append_assoc] at hmore

namespace Takes

variable {next nextBack : Edit Walk (Option α)} {spans : Walk → List α → Prop} {w : Walk}
  {items : List α}

/-- A whole walk from the front gives the items in order. -/
theorem toArray_eq (h : Takes next nextBack spans) (hw : spans w items) :
    toArray next w = .ok items.toArray :=
  collect_eq spans (fun _ _ => h.next_eq) #[] hw (h.length_le hw)

/-- A whole walk from the back gives the items in reverse. -/
theorem toArray_back_eq (h : Takes next nextBack spans) (hw : spans w items) :
    toArray nextBack w = .ok items.reverse.toArray := by
  have hstep : ∀ w items, spans w (List.reverse items) →
      ∃ w', nextBack w = .ok items.head? w' ∧ spans w' (List.reverse items.tail) := by
    intro w items hw
    obtain ⟨w', hrun, hrest⟩ := h.nextBack_eq hw
    rw [List.getLast?_reverse] at hrun
    rw [List.dropLast_reverse] at hrest
    exact ⟨w', hrun, hrest⟩
  have hall : spans w items.reverse.reverse := by rwa [List.reverse_reverse]
  have hfuel : items.reverse.length ≤ w.remaining := by
    rw [List.length_reverse]
    exact h.length_le hw
  exact collect_eq (fun w items => spans w items.reverse) hstep #[] hall hfuel

end Takes

/-! ## Positions that hold a bit -/

section

variable {V : Type} [Bits V] {v : V} {bits : List Bool} {lo hi : Nat} {b : Bool}

/-- The scan from the front takes the head off what is to come, unless it is given up. -/
theorem nextHolding_eq_or {stopped : Bool → Nat → Prop} (h : Scanned stopped v bits)
    (w : Walk) :
    (∃ w', nextHolding v b w = .ok (positionsOf b bits w.front w.back).head? w' ∧
      (positionsOf b bits w.front w.back).tail = positionsOf b bits w'.front w'.back) ∨
        stopped b w.front ∧ nextHolding v b w = .error (.overflow .sum) w := by
  obtain ⟨front, back⟩ := w
  have hmet : positionsOf b bits back back = [] := positionsOf_of_le (Nat.le_refl back)
  rw [nextHolding]
  split
  · rename_i hle
    rw [positionsOf_of_le hle]
    exact .inl ⟨⟨front, back⟩, rfl, (positionsOf_of_le hle).symm⟩
  · obtain ⟨found, hrun, hleast⟩ | ⟨hstopped, hrun⟩ := h.next_eq b front
    · rw [hrun, positionsOf_of_least hleast]
      cases found with
      | none => exact .inl ⟨⟨back, back⟩, rfl, hmet.symm⟩
      | some p =>
        rw [Option.filter_some]
        by_cases hback : p < back
        · rw [if_pos (decide_eq_true hback)]
          exact .inl ⟨⟨p + 1, back⟩, if_pos hback, rfl⟩
        · rw [if_neg (by rwa [decide_eq_true_iff])]
          exact .inl ⟨⟨back, back⟩, if_neg hback, hmet.symm⟩
    · rw [hrun]
      exact .inr ⟨hstopped, rfl⟩

/-- The scan from the back takes the last item off what is to come. -/
theorem nextBackHolding_eq {stopped : Bool → Nat → Prop} (h : Scanned stopped v bits)
    (w : Walk) :
    ∃ w', nextBackHolding v b w = .ok (positionsOf b bits w.front w.back).getLast? w' ∧
      (positionsOf b bits w.front w.back).dropLast = positionsOf b bits w'.front w'.back := by
  obtain ⟨front, back⟩ := w
  have hmet : positionsOf b bits front front = [] := positionsOf_of_le (Nat.le_refl front)
  rw [nextBackHolding]
  split
  · rename_i hle
    rw [positionsOf_of_le hle]
    exact ⟨⟨front, back⟩, rfl, (positionsOf_of_le hle).symm⟩
  · obtain ⟨found, hrun, hmost⟩ := h.previous_eq b back
    rw [hrun, positionsOf_of_greatest hmost]
    cases found with
    | none => exact ⟨⟨front, front⟩, rfl, hmet.symm⟩
    | some p =>
      rw [Option.filter_some]
      by_cases hfront : front ≤ p
      · rw [if_pos (decide_eq_true hfront), Option.elim_some, List.getLast?_concat,
          List.dropLast_concat]
        exact ⟨⟨front, p⟩, if_pos hfront, rfl⟩
      · rw [if_neg (by rwa [decide_eq_true_iff])]
        exact ⟨⟨front, front⟩, if_neg hfront, hmet.symm⟩

/-- The scans of a vector take the positions that hold a bit off both ends. -/
theorem takes_holding (h : Faithful v bits) (b : Bool) :
    Takes (nextHolding v b) (nextBackHolding v b) fun w items =>
      items = positionsOf b bits w.front w.back where
  next_eq := by
    intro w items hw
    cases hw
    have hscanned : Scanned (fun _ _ => False) v bits := h.scanned
    exact (nextHolding_eq_or hscanned w).resolve_right And.left
  nextBack_eq := by
    intro w items hw
    cases hw
    have hscanned : Scanned (fun _ _ => False) v bits := h.scanned
    exact nextBackHolding_eq hscanned w
  length_le := by
    intro w items hw
    cases hw
    have hle := List.length_filter_le (fun p => decide (bits[p]? = some b))
      (List.range' w.front (w.back - w.front))
    rwa [List.length_range'] at hle

/-- A walk up to past the end of a vector spans no more than one up to the end. -/
theorem positionsOf_between (hlength : Bits.length v = bits.length) (lo hi : Nat) :
    positionsOf b bits lo hi =
      positionsOf b bits (between v lo hi).front (between v lo hi).back := by
  rw [between, hlength]
  apply eq_positionsOf pairwise_positionsOf
  intro q
  rw [mem_positionsOf]
  constructor
  · intro hq
    obtain ⟨⟨hlo, hhi⟩, hb⟩ := hq
    exact ⟨⟨hlo, Nat.lt_min.mpr ⟨hhi, lt_length_of_getElem? hb⟩⟩, hb⟩
  · intro hq
    obtain ⟨⟨hlo, hhi⟩, hb⟩ := hq
    exact ⟨⟨hlo, (Nat.lt_min.mp hhi).1⟩, hb⟩

theorem toArray_nextHolding (h : Faithful v bits) (b : Bool) (lo hi : Nat) :
    toArray (nextHolding v b) (between v lo hi) = .ok (positionsOf b bits lo hi).toArray :=
  (takes_holding h b).toArray_eq (positionsOf_between h.reads.length_eq lo hi)

theorem toArray_nextBackHolding (h : Faithful v bits) (b : Bool) (lo hi : Nat) :
    toArray (nextBackHolding v b) (between v lo hi) =
      .ok (positionsOf b bits lo hi).reverse.toArray :=
  (takes_holding h b).toArray_back_eq (positionsOf_between h.reads.length_eq lo hi)

end

/-! ## All positions -/

section

variable {read : Nat → Answer α} {all : List α}

/-- Once the ends of a walk have met, there is nothing between them. -/
theorem drop_take_eq_nil {lo hi : Nat} (h : hi ≤ lo) : (all.take hi).drop lo = [] :=
  List.drop_of_length_le (Nat.le_trans (List.length_take_le ..) h)

/-- What lies between two places of a list, its last item apart. -/
theorem drop_take_eq_concat {lo hi : Nat} (hlo : lo < hi) (hhi : hi ≤ all.length) :
    (all.take hi).drop lo = (all.take (hi - 1)).drop lo ++ [all[hi - 1]] := by
  have hone : (all.take hi).drop (hi - 1) = [all[hi - 1]] := by
    rw [List.drop_eq_getElem_cons (by rw [List.length_take]; omega), List.getElem_take,
      List.drop_of_length_le (by rw [List.length_take]; omega)]
  rw [← hone, drop_take_append (by omega) (Nat.sub_le hi 1) hhi]

/-- Reading from the front takes the head off what is to come. -/
theorem nextReading_eq (hread : ∀ i a, all[i]? = some a → read i = .ok a) {w : Walk}
    (hback : w.back ≤ all.length) :
    ∃ w', next read w = .ok ((all.take w.back).drop w.front).head? w' ∧
      w'.back ≤ all.length ∧
      ((all.take w.back).drop w.front).tail = (all.take w'.back).drop w'.front := by
  obtain ⟨front, back⟩ := w
  have hend : back ≤ all.length := hback
  rw [next]
  split
  · rename_i hmet
    have hnil : (all.take back).drop front = [] := drop_take_eq_nil hmet
    exact ⟨⟨front, back⟩, by rw [hnil, List.head?_nil], hback, by rw [hnil, List.tail_nil]⟩
  · have hfront : (all.take back)[front]? = some all[front] := by
      rw [List.getElem?_take, if_pos (by omega), List.getElem?_eq_getElem]
    rw [hread front _ (List.getElem?_eq_getElem (by omega))]
    refine ⟨⟨front + 1, back⟩, ?_, hback, List.tail_drop⟩
    rw [List.head?_drop, hfront]

/-- Reading from the back takes the last item off what is to come. -/
theorem nextBackReading_eq (hread : ∀ i a, all[i]? = some a → read i = .ok a) {w : Walk}
    (hback : w.back ≤ all.length) :
    ∃ w', nextBack read w = .ok ((all.take w.back).drop w.front).getLast? w' ∧
      w'.back ≤ all.length ∧
      ((all.take w.back).drop w.front).dropLast = (all.take w'.back).drop w'.front := by
  obtain ⟨front, back⟩ := w
  have hend : back ≤ all.length := hback
  rw [nextBack]
  split
  · rename_i hmet
    have hnil : (all.take back).drop front = [] := drop_take_eq_nil hmet
    exact ⟨⟨front, back⟩, by rw [hnil, List.getLast?_nil], hback,
      by rw [hnil, List.dropLast_nil]⟩
  · rename_i hopen
    rw [hread (back - 1) _ (List.getElem?_eq_getElem (by omega)),
      drop_take_eq_concat (Nat.lt_of_not_le hopen) hend]
    refine ⟨⟨front, back - 1⟩, ?_, Nat.le_trans (Nat.sub_le back 1) hend, ?_⟩
    · rw [List.getLast?_concat]
    · rw [List.dropLast_concat]

/-- Reading at the positions of a list takes its items off both ends. -/
theorem takes_reading (hread : ∀ i a, all[i]? = some a → read i = .ok a) :
    Takes (next read) (nextBack read) fun w items =>
      w.back ≤ all.length ∧ items = (all.take w.back).drop w.front where
  next_eq := by
    intro w items hw
    obtain ⟨hback, rfl⟩ := hw
    exact nextReading_eq hread hback
  nextBack_eq := by
    intro w items hw
    obtain ⟨hback, rfl⟩ := hw
    exact nextBackReading_eq hread hback
  length_le := by
    intro w items hw
    obtain ⟨hback, rfl⟩ := hw
    rw [List.length_drop, List.length_take_of_le hback]
    exact Nat.le_refl _

theorem toArray_next (hread : ∀ i a, all[i]? = some a → read i = .ok a) :
    toArray (next read) (upTo all.length) = .ok all.toArray := by
  apply (takes_reading hread).toArray_eq
  exact ⟨Nat.le_refl _, by rw [upTo, List.drop_zero, List.take_length]⟩

theorem toArray_nextBack (hread : ∀ i a, all[i]? = some a → read i = .ok a) :
    toArray (nextBack read) (upTo all.length) = .ok all.reverse.toArray := by
  apply (takes_reading hread).toArray_back_eq
  exact ⟨Nat.le_refl _, by rw [upTo, List.drop_zero, List.take_length]⟩

end

end Walk

end PackedBits
