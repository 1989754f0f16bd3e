import PackedBits.Proofs.GuardedViews
import PackedBits.Proofs.Safe
import PackedBits.Proofs.Search
import PackedBits.Source.Compare
import PackedBits.Source.Digest

/-!
# Vectors that are safe to work on

`Secure guarded plain inv` says that every operation that a type of vectors may give a
way of its own is safe on the vectors with the property `inv`, beside the same
operations under guard. Whatever the classes build on these operations is safe then as
well, here with its own differences under guard.
-/

namespace PackedBits

/-- The operations `plain` are safe on the vectors with a property, and with their
arithmetic under guard they are `guarded`. -/
structure Secure {V : Type} (guarded : GuardedBits V) (plain : ResizableBits V)
    (inv : V → Prop) : Prop where
  measure {v : V} : inv v → guarded.measure v = .ok (plain.length v)
  bit (i : Nat) : SafeRead inv (guarded.bit · i) (plain.bit · i)
  window (lo hi : Nat) : SafeRead inv (guarded.window · lo hi) (plain.window · lo hi)
  narrow {v : V} {lo hi : Nat} {w : Word} : inv v → plain.window v lo hi = .ok w →
    Word.Narrow (hi - lo) w
  countOnes : SafeRead inv guarded.countOnes plain.countOnes
  countOnes_le {v : V} {count : Nat} : inv v → plain.countOnes v = .ok count →
    count ≤ plain.length v
  next (b : Bool) (i : Nat) : SafeRead inv (guarded.next · b i) (plain.next · b i)
  previous (b : Bool) (i : Nat) : SafeRead inv (guarded.previous · b i) (plain.previous · b i)
  set (i : Nat) (b : Bool) : Edit.Safe inv (guarded.set i b) (plain.set i b)
  setBits (lo width : Nat) (value : Word) :
    Edit.Safe inv (guarded.setBits lo width value) (plain.setBits lo width value)
  fillRange (lo hi : Nat) (b : Bool) :
    Edit.Safe inv (guarded.fillRange lo hi b) (plain.fillRange lo hi b)
  flipRange (lo hi : Nat) : Edit.Safe inv (guarded.flipRange lo hi) (plain.flipRange lo hi)
  combine (op : Connective) {other : Source} : other.Tame →
    Edit.Safe inv (guarded.combine op other) (plain.combine op other)
  setLength (memory : Allocator) (n : Nat) {v : V} : inv v →
    Edit.SafeAt inv (guarded.setLength memory n) (plain.setLength memory n) v
      fun _ w => plain.length w = n
  insert (memory : Allocator) (i : Nat) (b : Bool) :
    Edit.Safe inv (guarded.insert memory i b) (plain.insert memory i b)
  remove (i : Nat) : Edit.Safe inv (guarded.remove i) (plain.remove i)
  push (memory : Allocator) (b : Bool) : Edit.Safe inv (guarded.push memory b) (plain.push memory b)
  appendBits (memory : Allocator) (w : Word) (count : Nat) {v : V} : inv v →
    Edit.SafeAt inv (guarded.appendBits memory w count) (plain.appendBits memory w count) v
      fun _ w => plain.length w = plain.length v + count
  append (memory : Allocator) {other : Source} : other.Tame →
    Edit.Safe inv (guarded.append memory other) (plain.append memory other)

/-! ## Sources -/

/-- What holds before a fold and is kept by each step that succeeds holds of what the
fold gives. -/
theorem foldUp_of_ok {β : Type} {start count : Nat} {acc last : β} {step : β → Nat → Answer β}
    (inv : Nat → β → Prop) (hstart : inv start acc)
    (hstep : ∀ i acc acc', start ≤ i → i < start + count → inv i acc → step acc i = .ok acc' →
      inv (i + 1) acc')
    (hlast : foldUp start count acc step = .ok last) : inv (start + count) last := by
  induction count generalizing start acc with
  | zero =>
    cases hlast
    exact hstart
  | succ count ih =>
    obtain ⟨next, hrun, hrest⟩ := bind_eq_ok hlast
    have hnext := hstep start acc next (Nat.le_refl _) (by omega) hstart hrun
    rw [show start + (count + 1) = start + 1 + count by omega]
    exact ih hnext (fun i acc acc' hlo hhi => hstep i acc acc' (by omega) (by omega)) hrest

theorem Word.Narrow.ones_le {width : Nat} {w : Word} (h : Word.Narrow width w)
    (hwidth : width ≤ 64) : w.ones ≤ width := by
  have hcount := List.count_le_length (a := true) (l := (List.range width).map w.getLsbD)
  rwa [← h.ones_eq hwidth, List.length_map, List.length_range] at hcount

namespace Source

variable {s other : Source} {n lo hi : Nat}

theorem Tame.bit? (h : s.Tame) (i : Nat) : Ordinary (Bits.bit? s i) := by
  unfold Bits.bit?
  split
  · rename_i hi
    exact (h.bit hi).bind fun _ _ => ordinary_ok _
  · exact ordinary_ok _

theorem Tame.toArray (h : s.Tame) : Ordinary (Bits.toArray s) := by
  refine ordinary_foldUp fun bits i _ hi => ?_
  exact (h.bit (show i < s.length from Nat.zero_add s.length ▸ hi)).bind fun _ _ => ordinary_ok _

theorem Tame.firstDifference (h : s.Tame) (h' : other.Tame) (hn : n ≤ s.length)
    (hn' : n ≤ other.length) : Ordinary (s.firstDifference other n) := by
  refine ordinary_searchWindows fun a b _ hle hhi hspan => ?_
  refine (h.window hle (Nat.le_trans hhi hn) hspan).bind fun left _ => ?_
  refine (h'.window hle (Nat.le_trans hhi hn') hspan).bind fun right _ => ordinary_ok _

theorem Tame.commonPrefix (h : s.Tame) (h' : other.Tame) : Ordinary (s.commonPrefix other) := by
  refine (h.firstDifference h' (Nat.min_le_left _ _) (Nat.min_le_right _ _)).bind fun found _ => ?_
  cases found <;> exact ordinary_ok _

theorem Tame.isPrefixOf (h : s.Tame) (h' : other.Tame) : Ordinary (s.isPrefixOf other) := by
  unfold Source.isPrefixOf
  split
  · exact (h.commonPrefix h').bind fun _ _ => ordinary_ok _
  · exact ordinary_ok _

theorem Tame.isProperPrefixOf (h : s.Tame) (h' : other.Tame) :
    Ordinary (s.isProperPrefixOf other) := by
  unfold Source.isProperPrefixOf
  split
  · exact h.isPrefixOf h'
  · exact ordinary_ok _

theorem Tame.compare (h : s.Tame) (h' : other.Tame) : Ordinary (s.compare other) := by
  refine (h.firstDifference h' (Nat.min_le_left _ _) (Nat.min_le_right _ _)).bind fun found _ => ?_
  cases found <;> exact ordinary_ok _

theorem Tame.equalOn (h : s.Tame) (h' : other.Tame) : Ordinary (s.equalOn other lo hi) := by
  refine (ordinary_require _ rfl).bind fun _ hin => ?_
  refine (ordinary_require _ rfl).bind fun _ hin' => ?_
  have hhi := (require_eq_ok_iff.mp hin).2
  have hhi' := (require_eq_ok_iff.mp hin').2
  refine Ordinary.bind (ordinary_searchWindows fun a b _ hle hb hspan => ?_)
    fun _ _ => ordinary_ok _
  refine (h.window hle (Nat.le_trans hb hhi) hspan).bind fun left _ => ?_
  exact (h'.window hle (Nat.le_trans hb hhi') hspan).bind fun right _ => ordinary_ok _

theorem Tame.equal (h : s.Tame) (h' : other.Tame) : Ordinary (s.equal other) := by
  unfold Source.equal
  split
  · exact h.equalOn h'
  · exact ordinary_ok _

theorem Tame.digest (h : s.Tame) : Ordinary s.digest := by
  refine Ordinary.bind (ordinary_foldWindows fun acc a b _ hle hhi hspan => ?_)
    fun _ _ => ordinary_ok _
  exact (h.window hle hhi hspan).bind fun _ _ => ordinary_ok _

/-- The ones of a source are counted window by window, and there are no more of them
than bits. -/
theorem Tame.countOnes (h : s.Tame) : Ordinary s.countOnes := by
  refine ordinary_foldWindows fun acc a b _ hle hhi hspan => ?_
  exact (h.window hle hhi hspan).bind fun _ _ => ordinary_ok _

/-- There are no more ones than bits. -/
theorem Tame.countOnes_le (h : s.Tame) {count : Nat} (hcount : s.countOnes = .ok count) :
    count ≤ s.length := by
  have hfew := wordsFor_le s.length
  have hlast : count ≤ min (64 * (0 + wordsFor s.length)) s.length := by
    refine foldUp_of_ok (fun k n => n ≤ min (64 * k) s.length) (Nat.zero_le _)
      (fun k n n' _ hk hn hstep => ?_) hcount
    obtain ⟨w, hread, hstep⟩ := bind_eq_ok hstep
    cases hstep
    have hnarrow := h.trimmed _ _ w (by omega) (by omega) (by omega) hread
    have hones := hnarrow.ones_le (by omega)
    omega
  omega

end Source

namespace Secure

variable {V α : Type} {guarded : GuardedBits V} {plain : ResizableBits V} {inv : V → Prop} {v : V}

/-! ## Reading -/

/-- What a reader sees of a vector is the same under guard. -/
theorem source_eq (h : Secure guarded plain inv) (hv : inv v) :
    @GuardedBits.source V guarded v = .ok (@Bits.source V plain.toBits v) := by
  have hbit : guarded.bit v = plain.bit v := funext fun i => (h.bit i v hv).same
  have hwindow : guarded.window v = plain.window v :=
    funext fun lo => funext fun hi => (h.window lo hi v hv).same
  refine (bind_of_ok (h.measure hv)).trans ?_
  rw [hbit, hwindow]
  rfl

theorem tame (h : Secure guarded plain inv) (hv : inv v) :
    (@Bits.source V plain.toBits v).Tame where
  bit _ := (h.bit _ v hv).ordinary
  window _ _ _ := (h.window _ _ v hv).ordinary
  trimmed _ _ _ _ _ _ hread := h.narrow hv hread

theorem window? (h : Secure guarded plain inv) (lo hi : Nat) :
    SafeRead inv (@GuardedBits.window? V guarded · lo hi)
      (@Bits.window? V plain.toBits · lo hi) := by
  refine fun v hv => .given (h.measure hv) ?_
  show SafeAnswer _ (if lo ≤ hi ∧ hi ≤ plain.length v ∧ hi - lo ≤ 64 then _ else _)
  by_cases hrange : lo ≤ hi ∧ hi ≤ plain.length v
  · rw [if_pos hrange]
    refine .given (minus_of_le hrange.1) ?_
    by_cases hspan : hi - lo ≤ 64
    · rw [if_pos hspan, if_pos ⟨hrange.1, hrange.2, hspan⟩]
      exact (h.window lo hi v hv).map some
    · rw [if_neg hspan, if_neg fun hin => hspan hin.2.2]
      exact safeAnswer_ok none
  · rw [if_neg hrange, if_neg fun hin => hrange ⟨hin.1, hin.2.1⟩]
    exact safeAnswer_ok none

theorem countZeros (h : Secure guarded plain inv) :
    SafeRead inv (@GuardedBits.countZeros V guarded) (@Bits.countZeros V plain.toBits) := by
  refine fun v hv => .given (h.measure hv) ((h.countOnes v hv).bind fun count hcount => ?_)
  exact safeAnswer_of_ordinary (ordinary_of_eq_ok (minus_of_le (h.countOnes_le hv hcount)))

theorem last (h : Secure guarded plain inv) (b : Bool) :
    SafeRead inv (@GuardedBits.last V guarded · b) (@Bits.last V plain.toBits · b) :=
  fun v hv => .given (h.measure hv) (h.previous b _ v hv)

/-! ## Changing -/

theorem flip (h : Secure guarded plain inv) (i : Nat) :
    Edit.Safe inv (@MutableBits.flip V guarded.toMutableBits i)
      (@MutableBits.flip V plain.toMutableBits i) :=
  (Edit.safe_inspect (h.bit i)).bind fun old => (h.set i (!old)).discard.bind fun _ =>
    Edit.safe_pure old

theorem fill (h : Secure guarded plain inv) (b : Bool) :
    Edit.Safe inv (@GuardedBits.fill V guarded b) (@MutableBits.fill V plain.toMutableBits b) :=
  Edit.safe_given (fun _ hv => h.measure hv) fun n => h.fillRange 0 n b

theorem flipAll (h : Secure guarded plain inv) :
    Edit.Safe inv (@GuardedBits.flipAll V guarded) (@MutableBits.flipAll V plain.toMutableBits) :=
  Edit.safe_given (fun _ hv => h.measure hv) fun n => h.flipRange 0 n

theorem pop (h : Secure guarded plain inv) :
    Edit.Safe inv (@GuardedBits.pop V guarded) (@ResizableBits.pop V plain) := by
  refine Edit.safe_given (fun _ hv => h.measure hv) fun n => ?_
  split
  · exact Edit.safe_pure none
  · rename_i hne
    rw [minus_of_le (Nat.pos_of_ne_zero hne), Edit.liftM_ok_bind]
    exact (h.remove (n - 1)).bind fun b => Edit.safe_pure (some b)

theorem resize (h : Secure guarded plain inv) (memory : Allocator) (n : Nat) :
    Edit.Safe inv (guarded.setLength memory n) (plain.setLength memory n) :=
  fun _ hv => (h.setLength memory n hv).imp fun _ _ _ _ => trivial

theorem extend (h : Secure guarded plain inv) (memory : Allocator) (w : Word) (count : Nat) :
    Edit.Safe inv (guarded.appendBits memory w count) (plain.appendBits memory w count) :=
  fun _ hv => (h.appendBits memory w count hv).imp fun _ _ _ _ => trivial

theorem replace (h : Secure guarded plain inv) (memory : Allocator) {other : Source}
    (hother : other.Tame) :
    Edit.Safe inv (@ResizableBits.replace V guarded.toResizableBits memory other)
      (@ResizableBits.replace V plain memory other) :=
  (h.resize memory 0).bind fun _ => h.append memory hother

end Secure

end PackedBits
