import PackedBits.Proofs.Lawful

/-!
# Searching and counting word by word

A scan looks for the lowest or the highest position with a property, a word at
a time. `Least` and `Greatest` say which position that is. A word finds its own
by its lowest or its highest one, and a search over consecutive words finds the
one of all of them. A count adds up the ones of the words.
-/

namespace PackedBits

/-! ## The position that a search is after -/

/-- The lowest position that has a property, if there is one. -/
inductive Least (P : Nat → Prop) : Option Nat → Prop where
  | absent : (∀ p, ¬P p) → Least P none
  | present {p : Nat} : P p → (∀ q, P q → p ≤ q) → Least P (some p)

/-- The highest position that has a property, if there is one. -/
inductive Greatest (P : Nat → Prop) : Option Nat → Prop where
  | absent : (∀ p, ¬P p) → Greatest P none
  | present {p : Nat} : P p → (∀ q, P q → q ≤ p) → Greatest P (some p)

section

variable {P Q : Nat → Prop} {found : Option Nat}

theorem Least.congr (h : Least P found) (hiff : ∀ p, P p ↔ Q p) : Least Q found := by
  cases h with
  | absent hnone => exact .absent fun p hp => hnone p ((hiff p).mpr hp)
  | present hp hleast => exact .present ((hiff _).mp hp) fun q hq => hleast q ((hiff q).mpr hq)

theorem Greatest.congr (h : Greatest P found) (hiff : ∀ p, P p ↔ Q p) : Greatest Q found := by
  cases h with
  | absent hnone => exact .absent fun p hp => hnone p ((hiff p).mpr hp)
  | present hp hmost => exact .present ((hiff _).mp hp) fun q hq => hmost q ((hiff q).mpr hq)

end

/-- Only a position below `n` counts. -/
theorem Least.filter_lt {P : Nat → Prop} {found : Option Nat} (h : Least P found) (n : Nat) :
    Least (fun p => P p ∧ p < n) (found.filter (· < n)) := by
  cases h with
  | absent hnone => exact .absent fun p hp => hnone p hp.1
  | @present p hp hleast =>
    by_cases hlt : p < n
    · rw [Option.filter_some, if_pos (decide_eq_true hlt)]
      exact .present ⟨hp, hlt⟩ fun q hq => hleast q hq.1
    · rw [Option.filter_some, if_neg (by rwa [decide_eq_true_iff])]
      apply Least.absent
      rintro q ⟨hq, hqlt⟩
      have hle := hleast q hq
      omega

/-! ## In one word -/

namespace Word

theorem eq_zero_of_lowest?_eq_none {w : Word} (h : w.lowest? = none) : w = 0#64 := by
  unfold lowest? at h
  split at h
  · assumption
  · cases h

theorem eq_zero_of_highest?_eq_none {w : Word} (h : w.highest? = none) : w = 0#64 := by
  unfold highest? at h
  split at h
  · assumption
  · cases h

/-- The highest place holds a one and every higher place a zero. -/
theorem highest?_eq_some {w : Word} {place : Nat} (h : w.highest? = some place) :
    w.getLsbD place = true ∧ ∀ i, place < i → w.getLsbD i = false := by
  unfold highest? at h
  split at h
  · cases h
  · rename_i hne
    cases h
    have hclz : w.clz.toNat < 64 := BitVec.lt_def.mp (BitVec.clz_lt_iff_ne_zero.mpr hne)
    rw [highestPlace, if_neg hne]
    constructor
    · exact BitVec.getLsbD_true_clz_of_ne_zero (by decide) hne
    · intro i hi
      have hsmall : w.toNat < 2 ^ (64 - w.clz.toNat) := BitVec.toNat_lt_two_pow_sub_clz
      have hpow : 2 ^ (64 - w.clz.toNat) ≤ 2 ^ i := Nat.pow_le_pow_right (by decide) (by omega)
      exact Nat.testBit_lt_two_pow (Nat.lt_of_lt_of_le hsmall hpow)

/-- The ones of a word mark the positions with a property, place 0 standing for
`base`. -/
structure Marks (w : Word) (base : Nat) (Q : Nat → Prop) : Prop where
  within (p : Nat) : Q p → base ≤ p ∧ p < base + 64
  ones (j : Nat) : j < 64 → (w.getLsbD j = true ↔ Q (base + j))

section

variable {w : Word} {base p : Nat} {Q : Nat → Prop}

theorem Marks.getLsbD_sub (h : w.Marks base Q) (hp : Q p) : w.getLsbD (p - base) = true := by
  obtain ⟨hlo, hhi⟩ := h.within p hp
  rw [h.ones (p - base) (by omega), Nat.add_sub_cancel' hlo]
  exact hp

theorem Marks.not_of_zero (h : w.Marks base Q) (hzero : w = 0#64) : ¬Q p := by
  intro hp
  have hone := h.getLsbD_sub hp
  rw [hzero, BitVec.getLsbD_zero] at hone
  cases hone

theorem Marks.least (h : w.Marks base Q) : Least Q (w.lowest?.map (base + ·)) := by
  cases hlowest : w.lowest? with
  | none => exact .absent fun p => h.not_of_zero (eq_zero_of_lowest?_eq_none hlowest)
  | some place =>
    obtain ⟨hone, hbelow⟩ := lowest?_eq_some hlowest
    apply Least.present ((h.ones place (BitVec.lt_of_getLsbD hone)).mp hone)
    intro q hq
    by_cases hlt : q - base < place
    · have hzero := hbelow (q - base) hlt
      rw [h.getLsbD_sub hq] at hzero
      cases hzero
    · have hwithin := h.within q hq
      omega

theorem Marks.greatest (h : w.Marks base Q) : Greatest Q (w.highest?.map (base + ·)) := by
  cases hhighest : w.highest? with
  | none => exact .absent fun p => h.not_of_zero (eq_zero_of_highest?_eq_none hhighest)
  | some place =>
    obtain ⟨hone, habove⟩ := highest?_eq_some hhighest
    apply Greatest.present ((h.ones place (BitVec.lt_of_getLsbD hone)).mp hone)
    intro q hq
    by_cases hlt : place < q - base
    · have hzero := habove (q - base) hlt
      rw [h.getLsbD_sub hq] at hzero
      cases hzero
    · have hwithin := h.within q hq
      omega

end

end Word

/-! ## In consecutive words -/

section

variable {α : Type} {start count lo hi : Nat}

/-- A search goes on while nothing has come up, and comes up with what is good or stops at
a failure that is bad. -/
theorem searchUp_ends {ask : Nat → Answer (Option α)} (clear : Nat → Prop)
    (good : α → Prop) (bad : Failure → Prop) (hstart : clear start)
    (hask : ∀ k, start ≤ k → k < start + count → clear k →
      (ask k = .ok none ∧ clear (k + 1)) ∨ (∃ a, ask k = .ok (some a) ∧ good a) ∨
        ∃ failure, ask k = .error failure ∧ bad failure) :
    (searchUp start count ask = .ok none ∧ clear (start + count)) ∨
      (∃ a, searchUp start count ask = .ok (some a) ∧ good a) ∨
      ∃ failure, searchUp start count ask = .error failure ∧ bad failure := by
  induction count generalizing start with
  | zero => exact .inl ⟨rfl, hstart⟩
  | succ count ih =>
    rw [searchUp]
    obtain ⟨hrun, hclear⟩ | ⟨a, hrun, hgood⟩ | ⟨failure, hrun, hbad⟩ :=
      hask start (Nat.le_refl _) (by omega) hstart
    · rw [bind_of_ok hrun, show start + (count + 1) = start + 1 + count by omega]
      exact ih hclear fun k hlo hhi => hask k (by omega) (by omega)
    · rw [bind_of_ok hrun]
      exact .inr (.inl ⟨a, rfl, hgood⟩)
    · rw [hrun]
      exact .inr (.inr ⟨failure, rfl, hbad⟩)

/-- A search that comes up with nothing before a step that fails does so as well. -/
theorem searchUp_error {ask : Nat → Answer (Option α)} {k : Nat} {failure : Failure}
    (hlo : start ≤ k) (hhi : k < start + count)
    (hnone : ∀ j, start ≤ j → j < k → ask j = .ok none) (herror : ask k = .error failure) :
    searchUp start count ask = .error failure := by
  induction count generalizing start with
  | zero => omega
  | succ count ih =>
    rw [searchUp]
    rcases Nat.eq_or_lt_of_le hlo with rfl | hlater
    · rw [herror]
      rfl
    · rw [bind_of_ok (hnone start (Nat.le_refl _) hlater)]
      exact ih hlater (by omega) fun j hj => hnone j (Nat.le_of_succ_le hj)

/-- A search whose steps all answer comes up with what is good if with anything. -/
theorem searchUp_invariant {ask : Nat → Answer (Option α)} (clear : Nat → Prop)
    (good : α → Prop) (hstart : clear start)
    (hask : ∀ k, start ≤ k → k < start + count → clear k →
      (ask k = .ok none ∧ clear (k + 1)) ∨ ∃ a, ask k = .ok (some a) ∧ good a) :
    (searchUp start count ask = .ok none ∧ clear (start + count)) ∨
      ∃ a, searchUp start count ask = .ok (some a) ∧ good a := by
  obtain h | h | ⟨_, _, hfalse⟩ := searchUp_ends clear good (fun _ => False) hstart
    fun k hlo hhi hclear => (hask k hlo hhi hclear).imp_right .inl
  · exact .inl h
  · exact .inr h
  · exact hfalse.elim

theorem searchDown_invariant {ask : Nat → Answer (Option α)} (clear : Nat → Prop)
    (good : α → Prop) (hstart : clear count)
    (hask : ∀ k, k < count → clear (k + 1) →
      (ask k = .ok none ∧ clear k) ∨ ∃ a, ask k = .ok (some a) ∧ good a) :
    (searchDown count ask = .ok none ∧ clear 0) ∨
      ∃ a, searchDown count ask = .ok (some a) ∧ good a := by
  induction count with
  | zero => exact .inl ⟨rfl, hstart⟩
  | succ count ih =>
    rw [searchDown]
    rcases hask count (Nat.lt_succ_self _) hstart with ⟨hrun, hclear⟩ | ⟨a, hrun, hgood⟩
    · rw [bind_of_ok hrun]
      exact ih hclear fun k hk => hask k (by omega)
    · rw [bind_of_ok hrun]
      exact .inr ⟨a, rfl, hgood⟩

/-- The windows of a range are searched in order, each from where the one before
it ended, as far as full windows end at a position. -/
theorem searchWindows_invariant {ask : Nat → Nat → Answer (Option α)} (clear : Nat → Prop)
    (good : α → Prop) (hle : lo ≤ hi) (hstart : clear lo)
    (hask : ∀ first last, lo ≤ first → first ≤ last → last ≤ hi → last ≤ windowsEnd lo →
      last - first ≤ 64 → clear first → (ask first last = .ok none ∧ clear last) ∨
        ∃ a, ask first last = .ok (some a) ∧ good a) :
    (searchWindows lo hi ask = .ok none ∧ clear hi ∧ hi ≤ windowsEnd lo) ∨
      (∃ a, searchWindows lo hi ask = .ok (some a) ∧ good a) ∨
      searchWindows lo hi ask = .error (.overflow .sum) ∧ clear (windowsEnd lo) ∧
        windowsEnd lo < hi := by
  have hcount := le_wordsFor (hi - lo)
  have hfew := wordsFor_le (hi - lo)
  have hsearch : (searchWindows lo hi ask = .ok none ∧
      clear (min (lo + 64 * (0 + wordsFor (hi - lo))) hi) ∧
        min (lo + 64 * (0 + wordsFor (hi - lo))) hi ≤ windowsEnd lo) ∨
      (∃ a, searchWindows lo hi ask = .ok (some a) ∧ good a) ∨
      ∃ failure, searchWindows lo hi ask = .error failure ∧
        failure = .overflow .sum ∧ clear (windowsEnd lo) ∧ windowsEnd lo < hi := by
    apply searchUp_ends
      (fun k => clear (min (lo + 64 * k) hi) ∧ min (lo + 64 * k) hi ≤ windowsEnd lo) good
    · rw [Nat.mul_zero, Nat.add_zero, Nat.min_eq_left hle]
      exact ⟨hstart, le_windowsEnd lo⟩
    · rintro k - hk ⟨hclear, hreached⟩
      rw [Nat.min_eq_left (by omega)] at hclear hreached
      by_cases hend : lo + 64 * k ≤ maxPosition - 64
      · -- The window ends at a position, whether or not it is cut short.
        have hstop := (window_le_windowsEnd_iff lo k).mpr hend
        rw [checkWindowEnd_of_le hend]
        obtain ⟨hrun, hlast⟩ | hfound := hask (lo + 64 * k) (min (lo + 64 * (k + 1)) hi)
          (by omega) (by omega) (by omega) (by omega) (by omega) hclear
        · exact .inl ⟨hrun, hlast, by omega⟩
        · exact .inr (.inl hfound)
      · -- No window ends past this one, which begins where the last of them ends.
        have hhere : lo + 64 * k = windowsEnd lo := by
          have hpast := mt (window_le_windowsEnd_iff lo k).mp hend
          unfold windowsEnd at hreached hpast ⊢
          omega
        rw [checkWindowEnd_of_lt (Nat.lt_of_not_le hend)]
        exact .inr (.inr ⟨_, rfl, rfl, hhere ▸ hclear, by omega⟩)
  rw [show min (lo + 64 * (0 + wordsFor (hi - lo))) hi = hi by omega] at hsearch
  obtain h | h | ⟨_, hrun, rfl, h⟩ := hsearch
  · exact .inl h
  · exact .inr (.inl h)
  · exact .inr (.inr ⟨hrun, h⟩)

variable {P : Nat → Prop} {ask : Nat → Answer (Option Nat)}

/-- Words that each find their lowest position find the lowest in any of them, if
it can be in no other word, unless one of them fails before it comes up. -/
theorem searchUp_least_or (bad : Nat → Failure → Prop)
    (hwords : ∀ p, P p → start ≤ wordOf p ∧ wordOf p < start + count)
    (hask : ∀ k, start ≤ k → k < start + count →
      (∃ found, ask k = .ok found ∧ Least (fun p => P p ∧ wordOf p = k) found) ∨
        ∃ failure, ask k = .error failure ∧ bad k failure) :
    (∃ found, searchUp start count ask = .ok found ∧ Least P found) ∨
      ∃ k failure, k < start + count ∧ searchUp start count ask = .error failure ∧
        bad k failure ∧ ∀ p, P p → k ≤ wordOf p := by
  -- Before word `k` is asked, all the positions there are lie in it or in later words.
  have hsearch : (searchUp start count ask = .ok none ∧ ∀ p, P p → start + count ≤ wordOf p) ∨
      (∃ p, searchUp start count ask = .ok (some p) ∧ P p ∧ ∀ q, P q → p ≤ q) ∨
        ∃ failure, searchUp start count ask = .error failure ∧
          ∃ k < start + count, bad k failure ∧ ∀ p, P p → k ≤ wordOf p := by
    refine searchUp_ends (fun k => ∀ p, P p → k ≤ wordOf p) _ _
      (fun p hp => (hwords p hp).1) ?_
    intro k hlo hhi hclear
    obtain ⟨found, hrun, hfound⟩ | ⟨failure, hrun, hbad⟩ := hask k hlo hhi
    · cases hfound with
      | absent hnone =>
        refine .inl ⟨hrun, fun p hp => Nat.lt_of_le_of_ne (hclear p hp) ?_⟩
        exact fun hsame => hnone p ⟨hp, hsame.symm⟩
      | @present p hp hleast =>
        refine .inr (.inl ⟨p, hrun, hp.1, fun q hq => ?_⟩)
        rcases Nat.eq_or_lt_of_le (hclear q hq) with hsame | hlater
        · exact hleast q ⟨hq, hsame.symm⟩
        · have hword := hp.2
          unfold wordOf at hword hlater
          omega
    · exact .inr (.inr ⟨failure, hrun, k, hhi, hbad, hclear⟩)
  obtain ⟨hrun, hnone⟩ | ⟨p, hrun, hp, hleast⟩ | ⟨failure, hrun, k, hk, hbad, hclear⟩ := hsearch
  · exact .inl ⟨none, hrun, .absent fun p hp => Nat.not_lt.mpr (hnone p hp) (hwords p hp).2⟩
  · exact .inl ⟨some p, hrun, .present hp hleast⟩
  · exact .inr ⟨k, failure, hk, hrun, hbad, hclear⟩

/-- Words that each find their lowest position find the lowest in any of them, if
it can be in no other word. -/
theorem searchUp_least (hwords : ∀ p, P p → start ≤ wordOf p ∧ wordOf p < start + count)
    (hask : ∀ k, start ≤ k → k < start + count →
      ∃ found, ask k = .ok found ∧ Least (fun p => P p ∧ wordOf p = k) found) :
    ∃ found, searchUp start count ask = .ok found ∧ Least P found := by
  obtain hfound | ⟨_, _, -, -, hfalse, -⟩ := searchUp_least_or (fun _ _ => False) hwords
    fun k hlo hhi => .inl (hask k hlo hhi)
  · exact hfound
  · exact hfalse.elim

/-- Words that each find their highest position find the highest in any of them,
if it can be in no other word. -/
theorem searchDown_greatest (hwords : ∀ p, P p → wordOf p < count)
    (hask : ∀ k, k < count →
      ∃ found, ask k = .ok found ∧ Greatest (fun p => P p ∧ wordOf p = k) found) :
    ∃ found, searchDown count ask = .ok found ∧ Greatest P found := by
  have hsearch : (searchDown count ask = .ok none ∧ ∀ p, P p → wordOf p < 0) ∨
      ∃ p, searchDown count ask = .ok (some p) ∧ P p ∧ ∀ q, P q → q ≤ p := by
    apply searchDown_invariant (fun k => ∀ p, P p → wordOf p < k) _ hwords
    intro k hk hclear
    obtain ⟨found, hrun, hfound⟩ := hask k hk
    cases hfound with
    | absent hnone =>
      refine .inl ⟨hrun, fun p hp => Nat.lt_of_le_of_ne (Nat.le_of_lt_succ (hclear p hp)) ?_⟩
      exact fun hsame => hnone p ⟨hp, hsame⟩
    | @present p hp hmost =>
      refine .inr ⟨p, hrun, hp.1, fun q hq => ?_⟩
      rcases Nat.eq_or_lt_of_le (Nat.le_of_lt_succ (hclear q hq)) with hsame | hearlier
      · exact hmost q ⟨hq, hsame⟩
      · have hword := hp.2
        unfold wordOf at hword hearlier
        omega
  rcases hsearch with ⟨hrun, hnone⟩ | ⟨p, hrun, hp, hmost⟩
  · exact ⟨none, hrun, .absent fun p hp => Nat.not_lt_zero _ (hnone p hp)⟩
  · exact ⟨some p, hrun, .present hp hmost⟩

end

/-! ## Counting -/

/-- What holds before each step of a fold and is kept by it holds after the last. -/
theorem foldUp_invariant {ε β : Type} {start count : Nat} {acc : β}
    {step : β → Nat → Except ε β} (inv : Nat → β → Prop) (hstart : inv start acc)
    (hstep : ∀ i acc, start ≤ i → i < start + count → inv i acc →
      ∃ acc', step acc i = .ok acc' ∧ inv (i + 1) acc') :
    ∃ acc', foldUp start count acc step = .ok acc' ∧ inv (start + count) acc' := by
  induction count generalizing start acc with
  | zero => exact ⟨acc, rfl, hstart⟩
  | succ count ih =>
    obtain ⟨next, hrun, hnext⟩ := hstep start acc (Nat.le_refl _) (by omega) hstart
    obtain ⟨last, hrest, hlast⟩ := ih hnext fun i acc hlo hhi => hstep i acc (by omega) (by omega)
    refine ⟨last, ?_, by rwa [show start + (count + 1) = start + 1 + count by omega]⟩
    simp only [foldUp, hrun, bind, Except.bind]
    exact hrest

namespace Word

theorem cpopNatRec_eq_count (w : Word) (n : Nat) :
    w.cpopNatRec n 0 = ((List.range n).map w.getLsbD).count true := by
  induction n with
  | zero => rfl
  | succ n ih =>
    rw [BitVec.cpopNatRec_succ, BitVec.cpopNatRec_eq, ih, List.range_succ, List.map_append,
      List.count_append, List.map_singleton, Nat.zero_add]
    cases w.getLsbD n <;> rfl

/-- The ones of a word lie below its width. -/
theorem Narrow.ones_eq {width : Nat} {w : Word} (h : Narrow width w) (hwidth : width ≤ 64) :
    w.ones = ((List.range width).map w.getLsbD).count true := by
  have hstop : ∀ extra, w.cpopNatRec (width + extra) 0 = w.cpopNatRec width 0 := by
    intro extra
    induction extra with
    | zero => rfl
    | succ extra ih =>
      rw [← Nat.add_assoc, BitVec.cpopNatRec_succ, h (width + extra) (Nat.le_add_right _ _)]
      exact ih
  have hall := hstop (64 - width)
  rw [Nat.add_sub_cancel' hwidth] at hall
  rw [ones, BitVec.toNat_cpop, hall, cpopNatRec_eq_count]

/-- The ones of a window are those of the bits in it. -/
theorem ones_eq_count {w : Word} {bits : List Bool} {lo hi : Nat} (hhi : hi ≤ bits.length)
    (hspan : hi - lo ≤ 64)
    (hw : ∀ j, w.getLsbD j = (decide (j < hi - lo) && bits[lo + j]?.getD false)) :
    w.ones = ((bits.take hi).drop lo).count true := by
  rw [(narrow_of_window hw).ones_eq hspan, map_getLsbD_eq hhi hw]

end Word

/-- Words whose ones are added up give the number of ones. -/
theorem foldUp_countOnes {bits : List Bool} {step : Nat → Nat → Answer Nat}
    (hstep : ∀ count k, 64 * k < bits.length → step count k =
      .ok (count + ((bits.take (min (64 * (k + 1)) bits.length)).drop (64 * k)).count true)) :
    foldUp 0 (wordsFor bits.length) 0 step = .ok (bits.count true) := by
  have hlow := le_wordsFor bits.length
  have hhigh := wordsFor_le bits.length
  have hloop : ∃ total, foldUp 0 (wordsFor bits.length) 0 step = .ok total ∧
      total = (bits.take (min (64 * (0 + wordsFor bits.length)) bits.length)).count true := by
    apply foldUp_invariant fun k count =>
      count = (bits.take (min (64 * k) bits.length)).count true
    · rw [Nat.mul_zero, Nat.zero_min, List.take_zero, List.count_nil]
    · intro k count _ hk hcount
      have hbegin : 64 * k < bits.length := by omega
      have hcut : bits.take (64 * k) ++ (bits.take (min (64 * (k + 1)) bits.length)).drop (64 * k) =
          bits.take (min (64 * (k + 1)) bits.length) :=
        drop_take_append (Nat.zero_le _) (by omega) (Nat.min_le_right _ _)
      refine ⟨_, hstep count k hbegin, ?_⟩
      rw [hcount, Nat.min_eq_left (Nat.le_of_lt hbegin), ← List.count_append, hcut]
  obtain ⟨total, hrun, htotal⟩ := hloop
  rw [hrun, htotal, Nat.min_eq_right (by omega), List.take_length]

end PackedBits
