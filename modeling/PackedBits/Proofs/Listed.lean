/-!
# Operations on lists by position

A vector in words, a vector in bits and a store of words are all compared with
a list, so the effect of an operation is said once for lists of anything:
`rewritten` changes a range in place and `resized` cuts or pads to a length.
Both are used through the item that they leave at a position.
-/

namespace PackedBits

variable {α : Type}

/-- The items from `lo` up to `hi` are changed by `g`, which is told how far
into the range an item stands. -/
def rewritten (lo hi : Nat) (g : Nat → α → α) (items : List α) : List α :=
  items.mapIdx fun i a => if lo ≤ i ∧ i < hi then g (i - lo) a else a

/-- The first `n` items, or all of them and then copies of `a`. -/
def resized (n : Nat) (a : α) (items : List α) : List α :=
  items.take n ++ List.replicate (n - items.length) a

@[simp] theorem length_rewritten (lo hi : Nat) (g : Nat → α → α) (items : List α) :
    (rewritten lo hi g items).length = items.length := by
  simp [rewritten]

@[simp] theorem getElem?_rewritten (lo hi : Nat) (g : Nat → α → α) (items : List α) (i : Nat) :
    (rewritten lo hi g items)[i]? =
      items[i]?.map fun a => if lo ≤ i ∧ i < hi then g (i - lo) a else a := by
  simp [rewritten]

@[simp] theorem length_resized (n : Nat) (a : α) (items : List α) :
    (resized n a items).length = n := by
  simp only [resized, List.length_append, List.length_take, List.length_replicate]
  omega

/-- What was put at the end is cut off again. -/
@[simp] theorem resized_zero (a : α) (items : List α) : resized 0 a items = [] := by
  rw [resized, List.take_zero, Nat.zero_sub, List.replicate_zero, List.nil_append]

theorem resized_length_append (items rest : List α) (a : α) :
    resized items.length a (items ++ rest) = items := by
  rw [resized, List.take_left, List.length_append, Nat.sub_eq_zero_of_le (Nat.le_add_right _ _),
    List.replicate_zero, List.append_nil]

theorem resized_length_add_append (items rest : List α) (n : Nat) (a : α) :
    resized (items.length + n) a (items ++ rest) = items ++ resized n a rest := by
  rw [resized, resized, List.take_length_add_append, List.length_append, Nat.add_sub_add_left,
    List.append_assoc]

theorem resized_length (items : List α) (a : α) : resized items.length a items = items := by
  have hcut := resized_length_append items [] a
  rwa [List.append_nil] at hcut

theorem getElem?_resized (n : Nat) (a : α) (items : List α) (i : Nat) :
    (resized n a items)[i]? = if i < n then some (items[i]?.getD a) else none := by
  simp only [resized, List.getElem?_append, List.length_take, List.getElem?_take,
    List.getElem?_replicate]
  rcases Nat.lt_or_ge i n with hn | hn
  · rcases Nat.lt_or_ge i items.length with hi | hi
    · rw [if_pos (by omega), if_pos hn, if_pos hn, List.getElem?_eq_getElem hi,
        Option.getD_some]
    · rw [if_neg (by omega), if_pos (by omega), if_pos hn, List.getElem?_eq_none (by omega),
        Option.getD_none]
  · rw [if_neg (by omega), if_neg (by omega), if_neg (Nat.not_lt.mpr hn)]

theorem getElem?_modify_ite (items : List α) (i : Nat) (f : α → α) (k : Nat) :
    (items.modify i f)[k]? = if i = k then items[k]?.map f else items[k]? := by
  rw [List.getElem?_modify]
  by_cases hk : i = k
  · simp [hk]
  · simp [hk]

/-- A range of no items changes nothing. -/
theorem rewritten_of_le {lo hi : Nat} (h : hi ≤ lo) (g : Nat → α → α) (items : List α) :
    rewritten lo hi g items = items := by
  apply List.ext_getElem?
  intro i
  have hnot : ¬(lo ≤ i ∧ i < hi) := by omega
  simp [hnot]

/-- A range is changed item by item, from the first on. -/
theorem rewritten_succ {lo i : Nat} (h : lo ≤ i) (g : Nat → α → α) (items : List α) :
    rewritten lo (i + 1) g items = (rewritten lo i g items).modify i (g (i - lo)) := by
  apply List.ext_getElem?
  intro k
  simp only [getElem?_rewritten, getElem?_modify_ite]
  by_cases hk : i = k
  · subst hk
    cases items[i]? <;> simp [h]
  · have hiff : k < i + 1 ↔ k < i := by omega
    simp [hk, hiff]

theorem rewritten_congr {lo hi : Nat} {g h : Nat → α → α} {items : List α}
    (hgh : ∀ k a, k < hi - lo → items[lo + k]? = some a → g k a = h k a) :
    rewritten lo hi g items = rewritten lo hi h items := by
  apply List.ext_getElem?
  intro i
  rw [getElem?_rewritten, getElem?_rewritten]
  split
  · rename_i hin
    rcases hitem : items[i]? with _ | a
    · rfl
    · have hat : items[lo + (i - lo)]? = some a := by rwa [Nat.add_sub_cancel' hin.1]
      exact congrArg some (hgh (i - lo) a (by omega) hat)
  · rfl

/-- A range at the beginning is changed up to `lo` and then from there on. -/
theorem rewritten_rewritten {lo hi : Nat} (hle : lo ≤ hi) {g h : Nat → α → α} {items : List α}
    (hg : ∀ i a, lo ≤ i → i < hi → items[i]? = some a → g (i - lo) a = h i a) :
    rewritten lo hi g (rewritten 0 lo h items) = rewritten 0 hi h items := by
  apply List.ext_getElem?
  intro i
  rw [getElem?_rewritten, getElem?_rewritten, getElem?_rewritten]
  rcases hitem : items[i]? with _ | a
  · rfl
  · simp only [Option.map_some, Nat.zero_le, true_and, Nat.sub_zero]
    rcases Nat.lt_or_ge i lo with hbefore | hfrom
    · rw [if_pos hbefore, if_neg (by omega), if_pos (by omega)]
    · rw [if_neg (Nat.not_lt.mpr hfrom)]
      rcases Nat.lt_or_ge i hi with hin | hpast
      · rw [if_pos ⟨hfrom, hin⟩, if_pos hin, hg i a hfrom hin hitem]
      · rw [if_neg (by omega), if_neg (Nat.not_lt.mpr hpast)]

/-- What is done to a range twice over may be done at once. -/
theorem rewritten_twice (lo hi : Nat) (g h : Nat → α → α) (items : List α) :
    rewritten lo hi g (rewritten lo hi h items) =
      rewritten lo hi (fun k a => g k (h k a)) items := by
  apply List.ext_getElem?
  intro i
  rw [getElem?_rewritten, getElem?_rewritten, getElem?_rewritten, Option.map_map]
  by_cases hin : lo ≤ i ∧ i < hi
  · simp only [if_pos hin, Function.comp_def]
  · simp only [if_neg hin, Function.comp_def]

/-- Nothing changes where each item becomes what it was. -/
theorem rewritten_eq_self {g : Nat → α → α} (hg : ∀ k a, g k a = a) (lo hi : Nat)
    (items : List α) : rewritten lo hi g items = items := by
  apply List.ext_getElem?
  intro i
  simp only [getElem?_rewritten, hg, ite_self, Option.map_id']

/-- Ranges with no position in common are changed in either order. -/
theorem rewritten_comm {lo hi lo' hi' : Nat}
    (hdisjoint : ∀ i, lo ≤ i → i < hi → ¬(lo' ≤ i ∧ i < hi')) (g h : Nat → α → α)
    (items : List α) :
    rewritten lo' hi' h (rewritten lo hi g items) =
      rewritten lo hi g (rewritten lo' hi' h items) := by
  apply List.ext_getElem?
  intro i
  rw [getElem?_rewritten, getElem?_rewritten, getElem?_rewritten, getElem?_rewritten,
    Option.map_map, Option.map_map]
  by_cases hin : lo ≤ i ∧ i < hi
  · simp only [if_pos hin, if_neg (hdisjoint i hin.1 hin.2), Function.comp_def]
  · simp only [if_neg hin, Function.comp_def]

theorem set_eq_modify (items : List α) (i : Nat) (a : α) :
    items.set i a = items.modify i fun _ => a := by
  apply List.ext_getElem?
  intro k
  rw [List.getElem?_set', getElem?_modify_ite]
  rfl

/-- A range that is the whole list is changed by changing every item. -/
theorem rewritten_length (g : α → α) (items : List α) :
    rewritten 0 items.length (fun _ => g) items = items.map g := by
  apply List.ext_getElem?
  intro i
  rw [getElem?_rewritten, List.getElem?_map]
  rcases Nat.lt_or_ge i items.length with hi | hi
  · simp [hi]
  · simp [hi]

theorem modify_eq_self_of_forall {f : α → α} (h : ∀ a, f a = a) (items : List α) (i : Nat) :
    items.modify i f = items := by
  apply List.ext_getElem?
  intro k
  have hid : f = id := funext h
  rw [getElem?_modify_ite, hid, Option.map_id_fun, id, ite_self]

/-- Two stretches of a list that follow one another make one. -/
theorem drop_take_append {lo m hi : Nat} {items : List α} (hlo : lo ≤ m) (hm : m ≤ hi)
    (hhi : hi ≤ items.length) :
    (items.take m).drop lo ++ (items.take hi).drop m = (items.take hi).drop lo := by
  have hfront : items.take m = (items.take hi).take m := by
    rw [List.take_take, Nat.min_eq_left hm]
  have hlength : lo ≤ ((items.take hi).take m).length := by
    rw [List.length_take, List.length_take]
    omega
  rw [hfront, ← List.drop_append_of_le_length hlength, List.take_append_drop]

theorem getD_resized (n : Nat) (bits : List Bool) (i : Nat) :
    (resized n false bits)[i]?.getD false = (decide (i < n) && bits[i]?.getD false) := by
  rw [getElem?_resized]
  by_cases hi : i < n
  · rw [if_pos hi, Option.getD_some, decide_eq_true hi, Bool.true_and]
  · rw [if_neg hi, Option.getD_none, decide_eq_false hi, Bool.false_and]

/-! ## A part of a list -/

section Framed

variable (front middle back : List α)

theorem getElem?_framed (i : Nat) :
    (front ++ middle ++ back)[i]? = if i < front.length then front[i]?
      else if i < front.length + middle.length then middle[i - front.length]?
      else back[i - (front.length + middle.length)]? := by
  rw [List.getElem?_append, List.length_append, List.getElem?_append]
  by_cases hfront : i < front.length
  · rw [if_pos hfront, if_pos hfront, if_pos (by omega)]
  · rw [if_neg hfront, if_neg hfront]

/-- The item at a position of the part. -/
theorem getElem?_framed_add {i : Nat} (hi : i < middle.length) :
    (front ++ middle ++ back)[front.length + i]? = middle[i]? := by
  rw [getElem?_framed, if_neg (by omega), if_pos (by omega), Nat.add_sub_cancel_left]

theorem rewritten_framed (lo : Nat) {hi : Nat} (g : Nat → α → α) (hhi : hi ≤ middle.length) :
    rewritten (front.length + lo) (front.length + hi) g (front ++ middle ++ back) =
      front ++ rewritten lo hi g middle ++ back := by
  apply List.ext_getElem?
  intro i
  rw [getElem?_rewritten, getElem?_framed, getElem?_framed, length_rewritten, getElem?_rewritten]
  by_cases hfront : i < front.length
  · have hout : ¬(front.length + lo ≤ i ∧ i < front.length + hi) := by omega
    simp only [if_pos hfront, if_neg hout, Option.map_id']
  · rcases Nat.lt_or_ge i (front.length + middle.length) with hmiddle | hmiddle
    · have hiff : lo ≤ i - front.length ∧ i - front.length < hi ↔
          front.length + lo ≤ i ∧ i < front.length + hi := by omega
      simp only [if_neg hfront, if_pos hmiddle, hiff, Nat.sub_add_eq]
    · have hout : ¬(front.length + lo ≤ i ∧ i < front.length + hi) := by omega
      simp only [if_neg hfront, if_neg (Nat.not_lt.mpr hmiddle), if_neg hout, Option.map_id']

theorem set_framed {i : Nat} (a : α) (hi : i < middle.length) :
    (front ++ middle ++ back).set (front.length + i) a = front ++ middle.set i a ++ back := by
  have hframed := rewritten_framed front middle back i (fun _ _ => a) hi
  have hsucc : ∀ (items : List α) (k : Nat),
      items.set k a = rewritten k (k + 1) (fun _ _ => a) items := by
    intro items k
    rw [rewritten_succ (Nat.le_refl k), rewritten_of_le (Nat.le_refl k), set_eq_modify]
  rw [hsucc, hsucc]
  exact hframed

theorem insertIdx_framed {i : Nat} (a : α) (hi : i ≤ middle.length) :
    (front ++ middle ++ back).insertIdx (front.length + i) a =
      front ++ middle.insertIdx i a ++ back := by
  induction front with
  | nil =>
    rw [List.nil_append, List.nil_append, List.length_nil, Nat.zero_add]
    induction middle generalizing i with
    | nil =>
      have hzero : i = 0 := Nat.le_zero.mp hi
      rw [hzero]
      rfl
    | cons head rest ih =>
      cases i with
      | zero => rfl
      | succ i => exact congrArg (head :: ·) (ih (Nat.le_of_succ_le_succ hi))
  | cons head rest ih =>
    rw [List.length_cons, show rest.length + 1 + i = rest.length + i + 1 by omega]
    exact congrArg (head :: ·) ih

/-- An item is inserted between those before the position and those from there on. -/
theorem insertIdx_eq_take_append {i : Nat} {items : List α} (hi : i ≤ items.length) (a : α) :
    items.insertIdx i a = items.take i ++ a :: items.drop i := by
  have hframed := insertIdx_framed (items.take i) [] (items.drop i) a (Nat.le_refl 0)
  rwa [List.append_nil, List.take_append_drop, List.length_take_of_le hi, Nat.add_zero,
    List.insertIdx_zero, List.append_assoc, List.singleton_append] at hframed

theorem eraseIdx_framed {i : Nat} (hi : i < middle.length) :
    (front ++ middle ++ back).eraseIdx (front.length + i) =
      front ++ middle.eraseIdx i ++ back := by
  rw [List.append_assoc, List.append_assoc, List.eraseIdx_append_of_length_le (by omega),
    Nat.add_sub_cancel_left, List.eraseIdx_append_of_lt_length hi]

end Framed

end PackedBits
