import PackedBits.Proofs.Meaning

/-!
# Lawful vectors

A type of vectors is `Lawful` when what it gives of its own follows the plans.
What it takes over from the classes is shown here to follow them as well, from
setting one bit or from appending a few, so a type that keeps its bits one by
one and a type that keeps them in words are held to the same plans.
-/

namespace PackedBits

section Defaults

variable {V : Type} {holds : V → List Bool → Prop} {refused : V → Prop} {bits other : List Bool}

/-! ## Changing bits one after the other -/

/-- Bits that are changed one after the other come to a range that is changed. -/
theorem yields_visitUp_rewritten {act : Nat → Edit V Unit} (g : Nat → Bool → Bool)
    (start count lo : Nat)
    (hact : ∀ i, start ≤ i → i < start + count → ∀ v bits', bits'.length = bits.length →
      holds v bits' → (act i).Yields v
        (fun _ w => holds w (bits'.modify (lo + (i - start)) (g (i - start)))) fun _ _ => False)
    {v : V} (hv : holds v bits) :
    (visitUp start count act).Yields v
      (fun _ w => holds w (rewritten lo (lo + count) g bits)) fun _ _ => False := by
  refine (Edit.yields_visitUp (fun i v => holds v (rewritten lo (lo + (i - start)) g bits)) ?_
    ?_).imp fun _ w hw => by rwa [Nat.add_sub_cancel_left] at hw
  · rwa [rewritten_of_le (by omega)]
  · intro i hlo hhi w hw
    have hnext := hact i hlo hhi w _ (length_rewritten ..) hw
    refine hnext.imp fun _ w' hw' => ?_
    have hsucc := rewritten_succ (Nat.le_add_right lo (i - start)) g bits
    rw [Nat.add_sub_cancel_left] at hsucc
    rwa [show lo + (i + 1 - start) = lo + (i - start) + 1 by omega, hsucc]

section Mutable

variable [MutableBits V]

/-- A bit is set, whatever it was. -/
theorem yields_discard_set (hset : ∀ i b, Follows holds (fun _ => False) (MutableBits.set i b)
    (Plan.set (i := i) (b := b))) {v : V} (hv : holds v bits) {i : Nat} (hi : i < bits.length)
    (b : Bool) :
    (discard (MutableBits.set i b)).Yields v (fun _ w => holds w (bits.modify i fun _ => b))
      fun _ _ => False := by
  obtain ⟨w, hrun, hw⟩ := (hset i b).exists_ok hv
    (Plan.set_of_some (List.getElem?_eq_getElem hi) b)
  refine Edit.Yields.discard (Edit.yields_of_ok hrun ?_)
  rwa [← set_eq_modify]

/-- The bit at a position is read and its negation set. -/
theorem yields_flip (hbit : ∀ {v bits i b}, holds v bits → bits[i]? = some b →
      Bits.bit v i = .ok b)
    (hset : ∀ i b, Follows holds (fun _ => False) (MutableBits.set i b) (Plan.set i b)) {v : V}
    (hv : holds v bits) {i : Nat} (hi : i < bits.length) :
    (Edit.inspect (fun v : V => Bits.bit v i) >>= fun old =>
      discard (MutableBits.set i (!old))).Yields v
      (fun _ w => holds w (bits.modify i (!·))) fun _ _ => False := by
  have hold := List.getElem?_eq_getElem hi
  refine Edit.yields_inspect_bind (hbit hv hold) ?_
  refine (yields_discard_set hset hv hi _).imp fun _ w hw => ?_
  have hsame : (bits.modify i (!·)) = bits.modify i fun _ => !bits[i] := by
    apply List.ext_getElem?
    intro k
    rw [getElem?_modify_ite, getElem?_modify_ite]
    by_cases hk : i = k
    · subst hk
      rw [if_pos rfl, if_pos rfl, hold]
      rfl
    · rw [if_neg hk, if_neg hk]
  rwa [hsame]

theorem follows_default_setBits (hlength : ∀ {v bits}, holds v bits → Bits.length v = bits.length)
    (hset : ∀ i b, Follows holds (fun _ => False) (MutableBits.set i b) (Plan.set i b))
    (lo width : Nat) (value : Word) :
    Follows holds (fun _ => False) (do
      Edit.inspect fun v : V => checkWindow lo (lo + width) (Bits.length v)
      checkValue value width
      visitUp 0 width fun i => discard (MutableBits.set (lo + i) (value.getLsbD i)))
      (Plan.setBits lo width value) := by
  intro v bits hv
  refine followsAt_inspect (checkWindow lo (lo + width)) (hlength hv) fun hwindow => ?_
  refine followsAt_liftM rfl fun _ => ?_
  apply followsAt_of_yields rfl
  have hrange := checkWindow_eq_ok_iff.mp hwindow
  refine (yields_visitUp_rewritten (fun k _ => value.getLsbD k) 0 width lo ?_ hv).mono
    (fun _ w hw => ⟨rfl, hw⟩) fun _ _ hfalse => hfalse.elim
  intro i _ hi v bits' hbits' hv
  exact yields_discard_set hset hv (by omega) _

theorem follows_default_fillRange
    (hlength : ∀ {v bits}, holds v bits → Bits.length v = bits.length)
    (hset : ∀ i b, Follows holds (fun _ => False) (MutableBits.set i b) (Plan.set i b))
    (lo hi : Nat) (b : Bool) :
    Follows holds (fun _ => False) (do
      Edit.inspect fun v : V => checkRange lo hi (Bits.length v)
      visitUp lo (hi - lo) fun i => discard (MutableBits.set i b)) (Plan.fillRange lo hi b) := by
  intro v bits hv
  refine followsAt_inspect (checkRange lo hi) (hlength hv) fun hrange => ?_
  obtain ⟨hle, hhi⟩ := require_eq_ok_iff.mp hrange
  refine followsAt_of_yields rfl ((yields_visitUp_rewritten (fun _ _ => b) lo (hi - lo) lo ?_
    hv).mono (fun _ w hw => ⟨rfl, by rwa [Nat.add_sub_cancel' hle] at hw⟩)
    fun _ _ hfalse => hfalse.elim)
  intro i hlo hlt v bits' hbits' hv
  rw [Nat.add_sub_cancel' hlo]
  exact yields_discard_set hset hv (by omega) _

theorem follows_default_flipRange
    (hlength : ∀ {v bits}, holds v bits → Bits.length v = bits.length)
    (hbit : ∀ {v bits i b}, holds v bits → bits[i]? = some b → Bits.bit v i = .ok b)
    (hset : ∀ i b, Follows holds (fun _ => False) (MutableBits.set i b) (Plan.set i b))
    (lo hi : Nat) :
    Follows holds (fun _ => False) (do
      Edit.inspect fun v : V => checkRange lo hi (Bits.length v)
      visitUp lo (hi - lo) fun i => do
        let old ← Edit.inspect fun v : V => Bits.bit v i
        discard (MutableBits.set i (!old))) (Plan.flipRange lo hi) := by
  intro v bits hv
  refine followsAt_inspect (checkRange lo hi) (hlength hv) fun hrange => ?_
  obtain ⟨hle, hhi⟩ := require_eq_ok_iff.mp hrange
  refine followsAt_of_yields rfl ((yields_visitUp_rewritten (fun _ b => !b) lo (hi - lo) lo ?_
    hv).mono (fun _ w hw => ⟨rfl, by rwa [Nat.add_sub_cancel' hle] at hw⟩)
    fun _ _ hfalse => hfalse.elim)
  intro i hlo hlt v bits' hbits' hv
  rw [Nat.add_sub_cancel' hlo]
  exact yields_flip hbit hset hv (by omega)

theorem follows_default_combine
    (hlength : ∀ {v bits}, holds v bits → Bits.length v = bits.length)
    (hbit : ∀ {v bits i b}, holds v bits → bits[i]? = some b → Bits.bit v i = .ok b)
    (hset : ∀ i b, Follows holds (fun _ => False) (MutableBits.set i b) (Plan.set i b))
    (op : Connective) {source : Source} (hsource : source.Reads other) :
    Follows holds (fun _ => False) (do
      let n ← Edit.view fun v : V => Bits.length v
      visitUp 0 (min n source.length) fun i => do
        match op, ← source.bit i with
        | .both, false => discard (MutableBits.set i false)
        | .either, true => discard (MutableBits.set i true)
        | .differ, true =>
          let old ← Edit.inspect fun v : V => Bits.bit v i
          discard (MutableBits.set i (!old))
        | _, _ => pure ()) (Plan.combine op other) := by
  intro v bits hv
  refine followsAt_view (hlength hv) (followsAt_of_yields rfl ?_)
  rw [hsource.length_eq]
  refine (yields_visitUp_rewritten (fun k b => op.onBits b (other[k]?.getD false)) 0
    (min bits.length other.length) 0 ?_ hv).mono (fun _ w hw => ⟨rfl, ?_⟩)
    fun _ _ hfalse => hfalse.elim
  · intro i _ hi v bits' hbits' hv
    have hread := List.getElem?_eq_getElem (show i < other.length by omega)
    have hlt : i < bits'.length := by omega
    rw [Nat.sub_zero, Nat.zero_add, hread, Option.getD_some]
    apply Edit.yields_liftM_bind_ok (hsource.bit_eq hread)
    -- Where the other bit decides, the bit is set or flipped; elsewhere it stays.
    cases op <;> cases other[i]
    · exact (yields_discard_set hset hv hlt false).imp fun _ w hw => by simpa [Connective.onBits]
    · refine Edit.yields_pure ?_
      rwa [modify_eq_self_of_forall (f := (Connective.both.onBits · true)) Bool.and_true]
    · refine Edit.yields_pure ?_
      rwa [modify_eq_self_of_forall (f := (Connective.either.onBits · false)) Bool.or_false]
    · exact (yields_discard_set hset hv hlt true).imp fun _ w hw => by simpa [Connective.onBits]
    · refine Edit.yields_pure ?_
      rwa [modify_eq_self_of_forall (f := (Connective.differ.onBits · false)) Bool.xor_false]
    · exact (yields_flip hbit hset hv hlt).imp fun _ w hw => by simpa [Connective.onBits]
  · rwa [Nat.zero_add] at hw

end Mutable

/-! ## Putting bits at the end -/

theorem map_getLsbD_eq {w : Word} {lo hi : Nat} (hhi : hi ≤ other.length)
    (hw : ∀ j, w.getLsbD j = (decide (j < hi - lo) && other[lo + j]?.getD false)) :
    (List.range (hi - lo)).map w.getLsbD = (other.take hi).drop lo := by
  apply List.ext_getElem?
  intro j
  rw [List.getElem?_map, List.getElem?_drop, List.getElem?_take]
  rcases Nat.lt_or_ge j (hi - lo) with hj | hj
  · have hread := List.getElem?_eq_getElem (show lo + j < other.length by omega)
    rw [List.getElem?_range hj, if_pos (by omega), hread, Option.map_some, hw, hread,
      decide_eq_true hj, Bool.true_and, Option.getD_some]
  · rw [List.getElem?_eq_none (by rw [List.length_range]; omega), if_neg (by omega),
      Option.map_none]

/-- Putting the bits of a word at the end as the plan says. -/
theorem Follows.yields_appendBits {append : Edit V Unit} {w : Word} {count : Nat}
    (h : Follows holds refused append (Plan.appendBits w count)) {v : V} (hv : holds v bits)
    (hcount : count ≤ 64) :
    append.Yields v (fun _ x => holds x (bits ++ (List.range count).map w.getLsbD))
      fun failure x => failure.isRefusal = true ∧ refused x := by
  exact (h.yields hv (Plan.appendBits_of_le w hcount)).imp fun _ _ hpost => hpost.2

/-- The bits of one window of a source are put behind those before it. -/
theorem yields_appendWindow {append : Word → Nat → Edit V Unit}
    {failed : Failure → V → Prop} {source : Source} (hsource : source.Reads other)
    {lo hi first last : Nat} (hlo : lo ≤ first) (hle : first ≤ last) (hlast : last ≤ hi)
    (hhi : hi ≤ other.length) (hspan : last - first ≤ 64)
    (happend : ∀ v front w count, holds v front → count ≤ 64 →
      front.length + count ≤ bits.length + (hi - lo) →
      (append w count).Yields v (fun _ x => holds x (front ++ (List.range count).map w.getLsbD))
        failed)
    {v : V} (hv : holds v (bits ++ (other.take first).drop lo)) :
    (do append (← source.window first last) (last - first) : Edit V Unit).Yields v
      (fun _ w => holds w (bits ++ (other.take last).drop lo)) failed := by
  obtain ⟨w, hread, hw⟩ := hsource.window_eq first last hle (by omega) hspan
  apply Edit.yields_liftM_bind_ok hread
  have hfront : (bits ++ (other.take first).drop lo).length = bits.length + (first - lo) := by
    rw [List.length_append, List.length_drop, List.length_take]
    omega
  have hnext : bits ++ (other.take first).drop lo ++
      (List.range (last - first)).map w.getLsbD = bits ++ (other.take last).drop lo := by
    rw [map_getLsbD_eq (by omega) hw, List.append_assoc, drop_take_append hlo hle (by omega)]
  rw [← hnext]
  exact happend v _ w _ hv hspan (by omega)

/-- The bits of a source are put at the end window by window, where every step up
to the last of them can be made. -/
theorem yields_appendWindows {append : Word → Nat → Edit V Unit}
    {failed : Failure → V → Prop} {source : Source} (hsource : source.Reads other)
    {lo hi : Nat} (hle : lo ≤ hi) (hhi : hi ≤ other.length)
    (happend : ∀ v front w count, holds v front → count ≤ 64 →
      front.length + count ≤ bits.length + (hi - lo) →
      (append w count).Yields v (fun _ x => holds x (front ++ (List.range count).map w.getLsbD))
        failed)
    {v : V} (hv : holds v bits) :
    (visitWindows lo hi fun first last =>
      (do append (← source.window first last) (last - first) : Edit V Unit)).Yields v
      (fun _ w => holds w (bits ++ (other.take hi).drop lo)) failed := by
  refine Edit.yields_visitWindows (fun m w => holds w (bits ++ (other.take m).drop lo)) hle ?_ ?_
  · rwa [List.drop_of_length_le (List.length_take_le ..), List.append_nil]
  · intro k hk v hv
    exact yields_appendWindow hsource (by omega) (by omega) (by omega) hhi (by omega) happend hv

/-- Where each window is put at the end only if a full one ends at a position, all of them
are put there if and only if the last full one does. -/
theorem yields_copyWindows {append : Word → Nat → Edit V Unit}
    {failed : Failure → V → Prop} {source : Source} (hsource : source.Reads other)
    {lo hi : Nat} (hle : lo ≤ hi) (hhi : hi ≤ other.length)
    (happend : ∀ v front w count, holds v front → count ≤ 64 →
      front.length + count ≤ bits.length + (hi - lo) →
      (append w count).Yields v (fun _ x => holds x (front ++ (List.range count).map w.getLsbD))
        failed)
    (hpast : windowsEnd lo < hi → ∀ v, failed (.overflow .sum) v) {v : V} (hv : holds v bits) :
    (visitWindows lo hi fun first last => (do
      checkWindowEnd first
      append (← source.window first last) (last - first) : Edit V Unit)).Yields v
      (fun _ w => holds w (bits ++ (other.take hi).drop lo) ∧ hi ≤ windowsEnd lo) failed := by
  refine Edit.yields_visitWindows
    (fun m w => holds w (bits ++ (other.take m).drop lo) ∧ m ≤ windowsEnd lo) hle ?_ ?_
  · rw [List.drop_of_length_le (List.length_take_le ..), List.append_nil]
    exact ⟨hv, le_windowsEnd lo⟩
  · rintro k hk v ⟨hv, -⟩
    have hiff := window_le_windowsEnd_iff lo k
    by_cases hend : lo + 64 * k ≤ maxPosition - 64
    · apply Edit.yields_liftM_bind_ok (checkWindowEnd_of_le hend)
      have hstop := hiff.mpr hend
      exact (yields_appendWindow hsource (by omega) (by omega) (by omega) hhi (by omega) happend
        hv).imp fun _ w hw => ⟨hw, by omega⟩
    · have hover := checkWindowEnd_of_lt (Nat.lt_of_not_le hend)
      refine Edit.yields_of_error (Edit.bind_error (Edit.liftM_error hover)) (hpast ?_ v)
      have hshort := mt hiff.mp hend
      unfold windowsEnd at hshort ⊢
      omega

section Resizable

variable [ResizableBits V]

theorem follows_default_push (hlength : ∀ {v bits}, holds v bits → Bits.length v = bits.length)
    (memory : Allocator) (hinsert : ∀ i b, Follows holds refused
      (ResizableBits.insert memory i b) (Plan.insert i b)) (b : Bool) :
    Follows holds refused (do
      ResizableBits.insert memory (← Edit.view fun v : V => Bits.length v) b) (Plan.push b) := by
  intro v bits hv
  refine followsAt_view (hlength hv) (followsAt_congr rfl ?_ (hinsert bits.length b v bits hv))
  rw [Plan.insert_of_le (Nat.le_refl _), Plan.push, List.insertIdx_length_self]

theorem follows_default_appendBits
    (hlength : ∀ {v bits}, holds v bits → Bits.length v = bits.length) (memory : Allocator)
    (hpush : ∀ b, Follows holds refused (ResizableBits.push memory b) (Plan.push b)) (w : Word)
    (count : Nat) :
    Follows holds refused (do
      let n ← Edit.view fun v : V => Bits.length v
      require (count ≤ 64) (.spanTooWide n (n + count))
      visitUp 0 count fun i => ResizableBits.push memory (w.getLsbD i))
      (Plan.appendBits w count) := by
  intro v bits hv
  refine followsAt_view (hlength hv) (followsAt_liftM rfl fun _ => ?_)
  apply followsAt_of_yields rfl
  refine (Edit.yields_visitUp (fun i v => holds v (bits ++ (List.range i).map w.getLsbD)) ?_
    ?_).imp fun _ w hw => ⟨rfl, by rwa [Nat.zero_add] at hw⟩
  · rwa [List.range_zero, List.map_nil, List.append_nil]
  · intro i _ _ v hv
    refine ((hpush (w.getLsbD i)).yields hv rfl).imp fun _ _ hpost => ?_
    rw [List.range_succ, List.map_append, List.map_singleton, ← List.append_assoc]
    exact hpost.2

theorem follows_default_append (memory : Allocator)
    (happend : ∀ w count, Follows holds refused (ResizableBits.appendBits memory w count)
      (Plan.appendBits w count)) {source : Source} (hsource : source.Reads other) :
    Follows holds refused (visitWindows 0 source.length fun lo hi => do
      ResizableBits.appendBits memory (← source.window lo hi) (hi - lo)) (Plan.append other) := by
  intro v bits hv
  apply followsAt_of_yields rfl
  rw [hsource.length_eq]
  refine (yields_appendWindows hsource (Nat.zero_le _) (Nat.le_refl _)
    (fun _ _ w count hv hcount _ => (happend w count).yields_appendBits hv hcount) hv).imp
    fun _ w hw => ⟨rfl, ?_⟩
  rwa [List.drop_zero, List.take_length] at hw

end Resizable

end Defaults

/-! ## Lawful vectors -/

/-- The vectors of a type that hold bits, as `holds` says, do what the plans say.
Only what may have to grow can be refused memory. -/
structure Lawful {V : Type} [ResizableBits V] (holds : V → List Bool → Prop) : Prop where
  reads {v : V} {bits : List Bool} : holds v bits → (Bits.source v).Reads bits
  bit_past {v : V} {bits : List Bool} {i : Nat} : holds v bits → bits.length ≤ i →
    Bits.bit v i = .error (.indexOutOfBounds i bits.length)
  set (i : Nat) (b : Bool) :
    Follows holds (fun _ => False) (MutableBits.set i b) (Plan.set i b)
  setBits (lo width : Nat) (value : Word) :
    Follows holds (fun _ => False) (MutableBits.setBits lo width value)
      (Plan.setBits lo width value)
  fillRange (lo hi : Nat) (b : Bool) :
    Follows holds (fun _ => False) (MutableBits.fillRange lo hi b) (Plan.fillRange lo hi b)
  flipRange (lo hi : Nat) :
    Follows holds (fun _ => False) (MutableBits.flipRange lo hi) (Plan.flipRange lo hi)
  combine (op : Connective) {source : Source} {other : List Bool} : source.Reads other →
    Follows holds (fun _ => False) (MutableBits.combine op source) (Plan.combine op other)
  remove (i : Nat) : Follows holds (fun _ => False) (ResizableBits.remove i) (Plan.remove i)
  setLength (memory : Allocator) (n : Nat) :
    Follows holds (fun _ => True) (ResizableBits.setLength memory n) (Plan.setLength n)
  insert (memory : Allocator) (i : Nat) (b : Bool) :
    Follows holds (fun _ => True) (ResizableBits.insert memory i b) (Plan.insert i b)
  push (memory : Allocator) (b : Bool) :
    Follows holds (fun _ => True) (ResizableBits.push memory b) (Plan.push b)
  appendBits (memory : Allocator) (w : Word) (count : Nat) :
    Follows holds (fun _ => True) (ResizableBits.appendBits memory w count)
      (Plan.appendBits w count)
  append (memory : Allocator) {source : Source} {other : List Bool} : source.Reads other →
    Follows holds (fun _ => True) (ResizableBits.append memory source) (Plan.append other)

namespace Lawful

variable {V : Type} [ResizableBits V] {holds : V → List Bool → Prop} {v : V} {bits : List Bool}

theorem length_eq (h : Lawful holds) (hv : holds v bits) : Bits.length v = bits.length :=
  (h.reads hv).length_eq

theorem bit_eq (h : Lawful holds) (hv : holds v bits) {i : Nat} {b : Bool}
    (hb : bits[i]? = some b) : Bits.bit v i = .ok b :=
  (h.reads hv).bit_eq hb

/-- Where two vectors of one length have the same bit, or neither has one, they are read
alike. -/
theorem bit_congr (h : Lawful holds) {w : V} {bits' : List Bool} (hv : holds v bits)
    (hw : holds w bits') (hlength : bits'.length = bits.length) {i : Nat}
    (hsame : bits'[i]? = bits[i]?) : Bits.bit w i = Bits.bit v i := by
  cases hb : bits[i]? with
  | some b => rw [h.bit_eq hv hb, h.bit_eq hw (hsame.trans hb)]
  | none =>
    have hpast := List.getElem?_eq_none_iff.mp hb
    rw [h.bit_past hv hpast, h.bit_past hw (hlength ▸ hpast), hlength]

theorem bit_rewritten (h : Lawful holds) {w : V} {lo hi i : Nat} {g : Nat → Bool → Bool} {b : Bool}
    (hw : holds w (rewritten lo hi g bits)) (hlo : lo ≤ i) (hhi : i < hi)
    (hb : bits[i]? = some b) : Bits.bit w i = .ok (g (i - lo) b) := by
  refine h.bit_eq hw ?_
  rw [getElem?_rewritten, hb, Option.map_some, if_pos ⟨hlo, hhi⟩]

theorem bit_rewritten_outside (h : Lawful holds) {w : V} {lo hi i : Nat} {g : Nat → Bool → Bool}
    (hv : holds v bits) (hw : holds w (rewritten lo hi g bits)) (houtside : i < lo ∨ hi ≤ i) :
    Bits.bit w i = Bits.bit v i := by
  refine h.bit_congr hv hw (length_rewritten ..) ?_
  rw [getElem?_rewritten]
  simp only [if_neg (show ¬(lo ≤ i ∧ i < hi) by omega), Option.map_id']

theorem clearBit (h : Lawful holds) (i : Nat) :
    Follows holds (fun _ => False) (MutableBits.clearBit i) (Plan.set i false) :=
  h.set i false

theorem flip (h : Lawful holds) (i : Nat) :
    Follows holds (fun _ => False) (MutableBits.flip i) (Plan.flip i) := by
  intro v bits hv
  rcases Nat.lt_or_ge i bits.length with hi | hpast
  · have hold := List.getElem?_eq_getElem hi
    have hplan : Plan.flip i bits = .ok (bits[i], bits.set i (!bits[i])) := by
      rw [Plan.flip, hold]
    obtain ⟨w, hrun, hw⟩ := (h.set i (!bits[i])).exists_ok hv (Plan.set_of_some hold _)
    have hdone : (discard (MutableBits.set i (!bits[i]))).Yields v
        (fun _ w => holds w (bits.set i (!bits[i])))
        fun failure _ => failure.isRefusal = true ∧ False :=
      Edit.Yields.discard (Edit.yields_of_ok hrun hw)
    refine followsAt_of_yields hplan ?_
    refine Edit.yields_inspect_bind (h.bit_eq hv hold) ?_
    exact hdone.bind fun _ w hw => Edit.yields_pure ⟨rfl, hw⟩
  · refine followsAt_error (Edit.inspect_bind_error (h.bit_past hv hpast)) ?_
    rw [Plan.flip, List.getElem?_eq_none hpast]

theorem fill (h : Lawful holds) (b : Bool) :
    Follows holds (fun _ => False) (MutableBits.fill b) (Plan.fill b) := by
  intro v bits hv
  refine followsAt_view (h.length_eq hv) (followsAt_congr rfl ?_ (h.fillRange _ _ b v bits hv))
  rw [Plan.fill, Plan.fillRange_of_le (Nat.zero_le _) (Nat.le_refl _), rewritten_length,
    List.map_const']

theorem flipAll (h : Lawful holds) :
    Follows holds (fun _ => False) (MutableBits.flipAll (V := V)) Plan.flipAll := by
  intro v bits hv
  refine followsAt_view (h.length_eq hv) (followsAt_congr rfl ?_ (h.flipRange _ _ v bits hv))
  rw [Plan.flipAll, Plan.flipRange_of_le (Nat.zero_le _) (Nat.le_refl _), rewritten_length]

theorem pop (h : Lawful holds) :
    Follows holds (fun _ => False) (ResizableBits.pop (V := V)) Plan.pop := by
  intro v bits hv
  refine followsAt_view (h.length_eq hv) ?_
  by_cases hempty : bits.length = 0
  · rw [if_pos hempty]
    have hnil := List.eq_nil_of_length_eq_zero hempty
    subst hnil
    exact followsAt_of_yields rfl (Edit.yields_pure ⟨rfl, hv⟩)
  · rw [if_neg hempty]
    have hlast := List.getElem?_eq_getElem (show bits.length - 1 < bits.length by omega)
    obtain ⟨w, hrun, hw⟩ := (h.remove (bits.length - 1)).exists_ok hv (Plan.remove_of_some hlast)
    have hplan : Plan.pop bits = .ok (some bits[bits.length - 1], bits.dropLast) := by
      rw [Plan.pop, List.getLast?_eq_getElem?, hlast]
    refine followsAt_of_yields hplan (Edit.yields_bind_ok hrun (Edit.yields_pure ⟨rfl, ?_⟩))
    rwa [List.eraseIdx_length_sub_one] at hw

theorem clear (h : Lawful holds) (memory : Allocator) :
    Follows holds (fun _ => True) (ResizableBits.clear memory) Plan.clear := by
  intro v bits hv
  refine followsAt_congr rfl ?_ (h.setLength memory 0 v bits hv)
  rw [Plan.clear, Plan.setLength, resized_zero]

theorem replace (h : Lawful holds) (memory : Allocator) {source : Source} {other : List Bool}
    (hsource : source.Reads other) :
    Follows holds (fun _ => True) (ResizableBits.replace memory source) (Plan.replace other) := by
  intro v bits hv
  refine followsAt_of_yields rfl (((h.clear memory).yields hv rfl).bind fun _ w hw => ?_)
  exact (h.append memory hsource).yields hw.2 rfl

end Lawful

end PackedBits
