import PackedBits.Proofs.WordSecure

/-!
# Parts are safe to work on

What is safe on the vector behind a part is safe on the part, as long as the part starts
no later than it stops. Every operation leaves it so: one that moves the end moves it to
where the vector behind ends, and that is never before the start. The part may stop past
the end of the vector behind it, where an edit was refused half way; reads there are
refused by the vector behind.
-/

namespace PackedBits

namespace Part

/-- The vector behind has a property, and the part starts no later than it stops. -/
structure Ordered {V : Type} (inv : V → Prop) (p : Part V) : Prop where
  backing : inv p.backing
  start_le : p.start ≤ p.stop

variable {V α : Type} {inv : V → Prop} {guarded : GuardedBits V} {plain : ResizableBits V}
  {p : Part V}

theorem Ordered.measure_eq (hp : Ordered inv p) : Guarded.length p = .ok p.length :=
  minus_of_le hp.start_le

/-! ## Reading -/

theorem Ordered.safe_bit (hp : Ordered inv p) (h : Secure guarded plain inv) (i : Nat) :
    SafeAnswer (Guarded.bit p i) (p.bit i) :=
  .given hp.measure_eq <| (safeAnswer_of_ordinary (ordinary_require _ rfl)).bind fun _ _ =>
    h.bit (p.start + i) p.backing hp.backing

theorem Ordered.safe_window (hp : Ordered inv p) (h : Secure guarded plain inv) (lo hi : Nat) :
    SafeAnswer (Guarded.window p lo hi) (p.window lo hi) := by
  refine .given hp.measure_eq ?_
  rw [guardedCheckWindow_eq]
  refine (safeAnswer_of_ordinary (validates_checkWindow _ _ _).ordinary).bind fun _ _ => ?_
  exact h.window (p.start + lo) (p.start + hi) p.backing hp.backing

theorem Ordered.narrow (hp : Ordered inv p) (h : Secure guarded plain inv) {lo hi : Nat} {w : Word}
    (hread : p.window lo hi = .ok w) : Word.Narrow (hi - lo) w := by
  obtain ⟨_, -, hread⟩ := bind_eq_ok hread
  have hnarrow := h.narrow hp.backing hread
  rwa [Nat.add_sub_add_left] at hnarrow

theorem Ordered.tame (hp : Ordered inv p) (h : Secure guarded plain inv) :
    (Bits.source p).Tame where
  bit _ := (hp.safe_bit h _).ordinary
  window _ _ _ := (hp.safe_window h _ _).ordinary
  trimmed _ _ _ _ _ _ hread := hp.narrow h hread

theorem Ordered.safe_countOnes (hp : Ordered inv p) (h : Secure guarded plain inv) :
    SafeAnswer (Guarded.countOnes p) (Bits.countOnes p) := by
  have hbit : Guarded.bit p = p.bit := funext fun i => (hp.safe_bit h i).same
  have hwindow : Guarded.window p = p.window :=
    funext fun lo => funext fun hi => (hp.safe_window h lo hi).same
  refine .given hp.measure_eq ?_
  rw [hbit, hwindow]
  exact safeAnswer_of_ordinary (hp.tame h).countOnes

omit guarded in
/-- A position is taken from the start only where it lies in the part. -/
theorem guarded_localPosition (p : Part V) (position : Option Nat) :
    Guarded.localPosition p position = .ok (p.localPosition position) := by
  unfold Guarded.localPosition localPosition
  rcases hfound : position.filter fun i => decide (p.start ≤ i ∧ i < p.stop) with _ | i
  · rfl
  · have hin := of_decide_eq_true (Option.filter_eq_some_iff.mp hfound).2
    exact bind_of_ok (minus_of_le hin.1)

theorem Ordered.safe_next (hp : Ordered inv p) (h : Secure guarded plain inv) (b : Bool) (i : Nat) :
    SafeAnswer (Guarded.next p b i) (p.next b i) := by
  refine .given hp.measure_eq ?_
  unfold next
  split
  · exact safeAnswer_ok none
  · refine (h.next b (p.start + i) p.backing hp.backing).bind fun found _ => ?_
    rw [guarded_localPosition]
    exact safeAnswer_ok _

theorem Ordered.safe_previous (hp : Ordered inv p) (h : Secure guarded plain inv) (b : Bool)
    (i : Nat) : SafeAnswer (Guarded.previous p b i) (p.previous b i) := by
  refine .given hp.measure_eq ?_
  refine (h.previous b (p.start + min i p.length) p.backing hp.backing).bind fun found _ => ?_
  rw [guarded_localPosition]
  exact safeAnswer_ok _

/-! ## Changing in place -/

theorem safeAt_onBacking {edit edit' : Edit V α} {post : α → V → Prop} (hp : Ordered inv p)
    (hedit : Edit.SafeAt inv edit edit' p.backing post) :
    Edit.SafeAt (Ordered inv) (onBacking edit) (onBacking edit') p
      fun a q => q.start = p.start ∧ q.stop = p.stop ∧ post a q.backing :=
  hedit.piece (editsPiece_onBacking edit p) (editsPiece_onBacking edit' p)
    (fun _ hw => ⟨hw, hp.start_le⟩) fun _ _ _ hpost => ⟨rfl, rfl, hpost⟩

theorem safeAt_onBackingFrom {edit edit' : Nat → Edit V α} {post : α → V → Prop}
    (hp : Ordered inv p) (hedit : Edit.SafeAt inv (edit p.start) (edit' p.start) p.backing post) :
    Edit.SafeAt (Ordered inv) (onBackingFrom edit) (onBackingFrom edit') p
      fun a q => q.start = p.start ∧ q.stop = p.stop ∧ post a q.backing :=
  (safeAt_onBacking hp hedit).congr rfl rfl

theorem safe_onBackingFrom {edit edit' : Nat → Edit V α}
    (hedit : ∀ start, Edit.Safe inv (edit start) (edit' start)) :
    Edit.Safe (Ordered inv) (onBackingFrom edit) (onBackingFrom edit') :=
  fun p hp => (safeAt_onBackingFrom hp (hedit p.start p.backing hp.backing)).imp
    fun _ _ _ _ => trivial

/-- Positions are checked against the length of the part before the vector behind is
edited. -/
theorem safe_checked {check : Nat → Answer Unit} (hcheck : ∀ n, Ordinary (check n))
    {edit edit' : Nat → Edit V α} (hedit : ∀ start, Edit.Safe inv (edit start) (edit' start)) :
    Edit.Safe (Ordered inv)
      (do
        Edit.inspect fun p => do check (← Guarded.length p)
        onBackingFrom edit)
      (do
        Edit.inspect fun p => check p.length
        onBackingFrom edit') :=
  (Edit.safe_inspect fun _ hp => .given hp.measure_eq (safeAnswer_of_ordinary (hcheck _))).bind
    fun _ => safe_onBackingFrom hedit

theorem safe_setBits (h : Secure guarded plain inv) (lo width : Nat) (value : Word) :
    Edit.Safe (Ordered inv) (Guarded.setBits lo width value) (setBits lo width value) := by
  unfold Guarded.setBits
  rw [guardedCheckWindow_eq]
  exact safe_checked (fun _ => (validates_checkWindow _ _ _).ordinary) fun start =>
    h.setBits (start + lo) width value

theorem safe_combine (h : Secure guarded plain inv) (op : Connective) {other : Source}
    (hother : other.Tame) :
    Edit.Safe (Ordered inv) (Guarded.combine op other) (combine op other) := by
  refine fun p hp => .given (bind_of_ok hp.measure_eq) ?_
  refine Edit.safe_visitWindows (fun lo hi _ hle hhi hspan => ?_) p hp
  refine (Edit.safe_inspect fun _ hq => hq.safe_window h lo hi).bind fun mine => ?_
  rw [minus_of_le hle, Edit.liftM_ok_bind]
  refine (Edit.safe_liftM (hother.window hle ?_ hspan)).bind fun theirs => ?_
  · exact Nat.le_trans hhi (Nat.min_le_right _ _)
  · exact safe_setBits h lo (hi - lo) _

/-! ## Growing and shrinking -/

theorem safe_insert (h : Secure guarded plain inv) (memory : Allocator) (i : Nat) (b : Bool) :
    Edit.Safe (Ordered inv) (Guarded.insert memory i b) (insert memory i b) := by
  refine (Edit.safe_inspect fun _ hp => .given hp.measure_eq ?_).bind fun _ => ?_
  · exact safeAnswer_of_ordinary (ordinary_require _ rfl)
  · refine (safe_onBackingFrom fun start => h.insert memory (start + i) b).bind fun _ => ?_
    exact Edit.safe_modify fun _ hq => ⟨hq.backing, Nat.le_succ_of_le hq.start_le⟩

/-- A part that has a bit stops after its start, so that its end can be moved down. -/
theorem safe_remove (h : Secure guarded plain inv) (i : Nat) :
    Edit.Safe (Ordered inv) (Guarded.remove i) (remove i) := by
  intro p hp
  have hindex : Edit.SafeAt (Ordered inv)
      (Edit.inspect fun p => do checkIndex i (← Guarded.length p))
      (Edit.inspect fun p => checkIndex i p.length) p fun _ q => q.start < q.stop :=
    Edit.safeAt_inspect hp
      (.given hp.measure_eq (safeAnswer_of_ordinary (ordinary_require _ rfl))) fun _ hcheck =>
        Nat.lt_of_sub_pos (Nat.zero_lt_of_lt (require_eq_ok_iff.mp hcheck))
  refine hindex.bind fun _ q hq hlt => ?_
  refine (safeAt_onBackingFrom hq (h.remove (q.start + i) q.backing hq.backing)).bind
    fun old r hr hsame => ?_
  have hpos : 1 ≤ r.stop := by omega
  refine ⟨Edit.inspect_bind_ok (minus_of_le hpos), ?_⟩
  refine Edit.yields_of_ok rfl ⟨⟨hr.backing, ?_⟩, trivial⟩
  show r.start ≤ r.stop - 1
  omega

/-- The part then stops where the vector behind ends, which is not before the start. -/
theorem safeAt_reachEnd (h : Secure guarded plain inv) (hp : Ordered inv p)
    (hend : p.start ≤ Bits.length p.backing) :
    Edit.SafeAt (Ordered inv) Guarded.reachEnd reachEnd p
      fun _ q => q.start = p.start ∧ q.stop = Bits.length p.backing where
  same := Edit.inspect_bind_ok (h.measure hp.backing)
  yields := Edit.yields_of_ok rfl ⟨⟨hp.backing, hend⟩, rfl, rfl⟩

/-- An edit that leaves the vector behind at a length of `m` stops the part there. -/
theorem safeAt_moveEnd (h : Secure guarded plain inv) {edit edit' : Edit V Unit} {m : Nat}
    (hp : Ordered inv p) (hm : p.start ≤ m)
    (hedit : Edit.SafeAt inv edit edit' p.backing fun _ w => Bits.length w = m) :
    Edit.SafeAt (Ordered inv) (onBacking edit >>= fun _ => Guarded.reachEnd)
      (onBacking edit' >>= fun _ => reachEnd) p fun _ q => q.start = p.start ∧ q.stop = m := by
  refine (safeAt_onBacking hp hedit).bind fun _ q hq hsame => ?_
  obtain ⟨hstart, -, hlength⟩ := hsame
  refine (safeAt_reachEnd h hq (by omega)).imp fun _ r _ hplace => ?_
  exact ⟨hplace.1.trans hstart, hplace.2.trans hlength⟩

/-- The bits after the part are copied and taken off, the vector behind is edited, and
the copy, which is a vector in words in good order, is put back. -/
theorem safeAt_editEnd (h : Secure guarded plain inv) (memory : Allocator)
    {edit edit' : Edit V Unit} {m : Nat} (hp : Ordered inv p) (hm : p.start ≤ m)
    (hedit : ∀ w, inv w → Bits.length w = p.stop →
      Edit.SafeAt inv edit edit' w fun _ x => Bits.length x = m) :
    Edit.SafeAt (Ordered inv) (Guarded.editEnd memory edit) (editEnd memory edit') p
      fun _ q => q.start = p.start ∧ q.stop = m := by
  have hguarded : Guarded.editEnd memory edit p = (if p.stop = Bits.length p.backing then _ else _ :
      Edit _ _) p :=
    (Edit.view_bind Part.stop).trans (Edit.inspect_bind_ok (h.measure hp.backing))
  have hplain : editEnd memory edit' p = (if p.stop = Bits.length p.backing then _ else _ :
      Edit _ _) p := Edit.bind_ok rfl
  by_cases hend : p.stop = Bits.length p.backing
  · rw [if_pos hend] at hguarded hplain
    exact (safeAt_moveEnd h hp hm (hedit p.backing hp.backing hend.symm)).congr hguarded hplain
  · rw [if_neg hend] at hguarded hplain
    refine Edit.SafeAt.congr ?_ hguarded hplain
    have htail := (h.tame hp.backing).copyRange memory p.stop (Bits.length p.backing)
    refine Edit.SafeAt.bind ?_ fun tail q hq (hcopy : q = p ∧ tail.InOrder) => ?_
    · exact Edit.safeAt_inspect hp (.given (h.source_eq hp.backing) htail.toSafeAnswer)
        fun tail hcopied => ⟨rfl, htail.of_ok hcopied⟩
    · obtain ⟨rfl, hcopied⟩ := hcopy
      refine (safeAt_onBacking hq (h.setLength memory q.stop hq.backing)).bind fun _ r hr hcut => ?_
      obtain ⟨hstart, hstop, hlength⟩ := hcut
      rw [← bind_assoc (onBacking edit), ← bind_assoc (onBacking edit')]
      refine (safeAt_moveEnd h hr (by omega) (hedit r.backing hr.backing hlength)).bind
        fun _ t ht hplace => ?_
      rw [WordVec.secure.source_eq hcopied, Edit.liftM_ok_bind]
      have hother := WordVec.secure.tame hcopied
      refine (safeAt_onBacking ht (h.append memory hother t.backing ht.backing)).imp
        fun _ u _ hsame => ?_
      exact ⟨hsame.1.trans (hplace.1.trans hstart), hsame.2.1.trans hplace.2⟩

theorem safeAt_setLength (h : Secure guarded plain inv) (memory : Allocator) (n : Nat)
    (hp : Ordered inv p) :
    Edit.SafeAt (Ordered inv) (Guarded.setLength memory n) (setLength memory n) p
      fun _ q => q.length = n := by
  refine Edit.SafeAt.congr ?_ (Edit.view_bind Part.start) (Edit.view_bind Part.start)
  have hsum : Edit.SafeAt (Ordered inv) (liftM (plus p.start n)) (liftM (plus p.start n)) p
      fun stop q => q.start = p.start ∧ stop = p.start + n :=
    Edit.safeAt_liftM hp (ordinary_plus p.start n) fun _ hstop => ⟨rfl, plus_eq_ok hstop⟩
  refine Edit.SafeAt.bind hsum fun stop q hq ⟨hstart, hstop⟩ => ?_
  refine (safeAt_editEnd h memory hq (show q.start ≤ stop by omega) fun w hw _ =>
    h.setLength memory stop hw).imp fun _ r _ hplace => ?_
  show r.stop - r.start = n
  omega

theorem safeAt_appendBits (h : Secure guarded plain inv) (memory : Allocator) (w : Word)
    (count : Nat) (hp : Ordered inv p) :
    Edit.SafeAt (Ordered inv) (Guarded.appendBits memory w count) (appendBits memory w count) p
      fun _ q => q.length = p.length + count := by
  have hstart := hp.start_le
  refine .given hp.measure_eq ?_
  refine Edit.SafeAt.bind (Edit.safeAt_liftM hp (ordinary_require _ rfl) fun _ _ => rfl)
    fun _ q hq (hsame : p = q) => ?_
  subst hsame
  refine (safeAt_editEnd h memory hq (show p.start ≤ p.stop + count by omega)
    fun x hx hlength => ?_).imp fun _ r _ hplace => ?_
  · exact (h.appendBits memory w count hx).imp fun _ y _ hgrown => hlength ▸ hgrown
  · show r.stop - r.start = p.stop - p.start + count
    omega

theorem safe_append (h : Secure guarded plain inv) (memory : Allocator) {other : Source}
    (hother : other.Tame) :
    Edit.Safe (Ordered inv) (Guarded.append memory other) (ResizableBits.append memory other) := by
  refine Edit.safe_visitWindows fun lo hi _ hle hhi hspan => ?_
  refine Edit.Safe.bind (Edit.safe_liftM (hother.window hle hhi hspan)) fun w => ?_
  rw [minus_of_le hle, Edit.liftM_ok_bind]
  exact fun p hp => (safeAt_appendBits h memory w (hi - lo) hp).imp fun _ _ _ _ => trivial

/-- Parts of vectors that are safe to work on are safe to work on. -/
theorem secure (h : Secure guarded plain inv) :
    Secure (@guardedBits V guarded) (@instResizableBits V plain) (Ordered inv) where
  measure hp := hp.measure_eq
  bit i := fun _ hp => hp.safe_bit h i
  window lo hi := fun _ hp => hp.safe_window h lo hi
  narrow hp hread := hp.narrow h hread
  countOnes := fun _ hp => hp.safe_countOnes h
  countOnes_le hp hcount := (hp.tame h).countOnes_le hcount
  next b i := fun _ hp => hp.safe_next h b i
  previous b i := fun _ hp => hp.safe_previous h b i
  set i b := safe_checked (fun _ => ordinary_require _ rfl) fun start => h.set (start + i) b
  setBits := safe_setBits h
  fillRange lo hi b := safe_checked (fun _ => ordinary_require _ rfl) fun start =>
    h.fillRange (start + lo) (start + hi) b
  flipRange lo hi := safe_checked (fun _ => ordinary_require _ rfl) fun start =>
    h.flipRange (start + lo) (start + hi)
  combine op _ hother := safe_combine h op hother
  setLength memory n _ hp := safeAt_setLength h memory n hp
  insert := safe_insert h
  remove := safe_remove h
  push memory b := Edit.safe_given (fun _ hp => hp.measure_eq) fun n => safe_insert h memory n b
  appendBits memory w count _ hp := safeAt_appendBits h memory w count hp
  append memory _ hother := safe_append h memory hother

/-! ## Making parts -/

theorem safe_of (h : Secure guarded plain inv) {v : V} (hv : inv v) (lo hi : Nat) :
    SafeAnswer (Guarded.of v lo hi) (Part.of v lo hi) :=
  .given (h.measure hv) <| (safeAnswer_of_ordinary (ordinary_require _ rfl)).bind fun _ _ =>
    safeAnswer_ok _

theorem ordered_of_of {v : V} (hv : inv v) {lo hi : Nat} (hp : Part.of v lo hi = .ok p) :
    Ordered inv p := by
  obtain ⟨_, hrange, hp⟩ := bind_eq_ok hp
  cases hp
  exact ⟨hv, (require_eq_ok_iff.mp hrange).1⟩

theorem Ordered.safe_narrow (hp : Ordered inv p) (lo hi : Nat) :
    SafeAnswer (Guarded.narrow p lo hi) (p.narrow lo hi) :=
  .given hp.measure_eq <| (safeAnswer_of_ordinary (ordinary_require _ rfl)).bind fun _ _ =>
    safeAnswer_ok _

theorem Ordered.of_narrow (hp : Ordered inv p) {lo hi : Nat} {q : Part V}
    (hq : p.narrow lo hi = .ok q) : Ordered inv q := by
  obtain ⟨_, hrange, hq⟩ := bind_eq_ok hq
  cases hq
  exact ⟨hp.backing, Nat.add_le_add_left (require_eq_ok_iff.mp hrange).1 p.start⟩

end Part

end PackedBits
