import PackedBits.Allocator
import PackedBits.Edit

/-!
# Buffers with room to grow

A `Buffer` is a list of items with a capacity, the number of items it has room
for. Room grows to twice what it was, to what is needed, or to four items,
whichever is most; it is given back only by `shrink`. The lemmas say what each
operation leaves in the list and in the capacity.
-/

namespace PackedBits

/-- Items with room for `capacity` of them. -/
structure Buffer (α : Type) where
  /-- The items held. -/
  items : Array α
  /-- The number of items there is room for. -/
  capacity : Nat
  deriving Repr, DecidableEq

namespace Buffer

variable {α : Type}

/-- No items and no room. -/
def empty : Buffer α := ⟨#[], 0⟩

instance : Inhabited (Buffer α) := ⟨empty⟩

/-- The items given, with room for no more. -/
def ofArray (items : Array α) : Buffer α := ⟨items, items.size⟩

/-- The number of items held. -/
def size (b : Buffer α) : Nat := b.items.size

/-- The room for `needed` items after growing from `capacity`: nothing changes
where there is room already. -/
def grown (capacity needed : Nat) : Nat :=
  if needed ≤ capacity then capacity else max (max (2 * capacity) needed) 4

/-- Makes room for `needed` items, asking with `request` for the room to grow
to. Nothing is asked for where there is room already. -/
def reserve (memory : Allocator) (request : Nat → Request) (needed : Nat) :
    Edit (Buffer α) Unit := fun b =>
  if needed ≤ b.capacity then .ok () b
  else
    let capacity := grown b.capacity needed
    if memory.grants (request capacity) then .ok () { b with capacity }
    else .error .allocation b

/-- Makes room for exactly `needed` items, asking with `request`. -/
def reserveExact (memory : Allocator) (request : Nat → Request) (needed : Nat) :
    Edit (Buffer α) Unit := fun b =>
  if needed ≤ b.capacity then .ok () b
  else if memory.grants (request needed) then .ok () { b with capacity := needed }
  else .error .allocation b

/-- Holds `n` items: the first `n`, or all of them and then `item`s. -/
def resize (n : Nat) (item : α) : Buffer α → Buffer α
  | ⟨items, capacity⟩ =>
    if n ≤ items.size then ⟨items.shrink n, capacity⟩
    else ⟨items ++ Array.replicate (n - items.size) item, grown capacity n⟩

/-- Keeps the first `n` items at most, and all the room. -/
def truncate (n : Nat) : Buffer α → Buffer α
  | ⟨items, capacity⟩ => ⟨items.shrink n, capacity⟩

/-- Gives back the room that no item takes. -/
def shrink : Buffer α → Buffer α
  | ⟨items, _⟩ => ofArray items

/-- Changes the item at `i`, if there is one. -/
def modify (i : Nat) (f : α → α) : Buffer α → Buffer α
  | ⟨items, capacity⟩ => ⟨items.modify i f, capacity⟩

/-- Changes each of the `count` items from `first` on by its position and what
it was, as far as there are items. -/
def modifyRange (first count : Nat) (f : Nat → α → α) (b : Buffer α) : Buffer α :=
  match count with
  | 0 => b
  | count + 1 => modifyRange (first + 1) count f (b.modify first (f first))

/-- Writes `item` from `lo` up to `hi`; refused unless the range lies within
the items. -/
def fill (lo hi : Nat) (item : α) : Edit (Buffer α) Unit := fun b =>
  if lo ≤ hi ∧ hi ≤ b.size then
    .ok () (b.modifyRange lo (hi - lo) fun _ _ => item)
  else .error (.fault (.wordRange lo hi b.size)) b

/-! ## What the operations leave -/

@[simp] theorem items_ofArray (items : Array α) : (ofArray items).items = items := rfl

@[simp] theorem items_shrink (b : Buffer α) : b.shrink.items = b.items := rfl

/-- A buffer that grows has the room it needs. -/
theorem le_grown (capacity needed : Nat) : needed ≤ grown capacity needed := by
  unfold grown
  split <;> omega

/-- Growing never takes room away. -/
theorem capacity_le_grown (capacity needed : Nat) : capacity ≤ grown capacity needed := by
  unfold grown
  split <;> omega

@[simp] theorem capacity_modifyRange (b : Buffer α) (first count : Nat) (f : Nat → α → α) :
    (b.modifyRange first count f).capacity = b.capacity := by
  induction count generalizing first b with
  | zero => rfl
  | succ count ih => simp [modifyRange, ih, modify]

@[simp] theorem size_modifyRange (b : Buffer α) (first count : Nat) (f : Nat → α → α) :
    (b.modifyRange first count f).size = b.size := by
  induction count generalizing first b with
  | zero => rfl
  | succ count ih =>
    rw [modifyRange, ih]
    simp [modify, size]

/-- The items in the range are changed, each once, and no other. -/
theorem getElem?_modifyRange (b : Buffer α) (first count : Nat) (f : Nat → α → α) (i : Nat) :
    (b.modifyRange first count f).items[i]? =
      if first ≤ i ∧ i < first + count then (b.items[i]?).map (f i) else b.items[i]? := by
  induction count generalizing first b with
  | zero => rw [modifyRange, if_neg (by omega)]
  | succ count ih =>
    rw [modifyRange, ih]
    simp only [modify, Array.getElem?_modify]
    by_cases hfirst : first = i
    · subst hfirst
      rw [if_neg (by omega), if_pos rfl, if_pos (by omega)]
    · rw [if_neg hfirst]
      by_cases hin : first ≤ i ∧ i < first + (count + 1)
      · rw [if_pos hin, if_pos (by omega)]
      · rw [if_neg hin, if_neg (by omega)]

@[simp] theorem size_resize (b : Buffer α) (n : Nat) (item : α) :
    (b.resize n item).size = n := by
  obtain ⟨items, capacity⟩ := b
  simp only [resize, size]
  split
  · simp; omega
  · simp; omega

/-- A change of size within the room leaves the room alone. -/
theorem capacity_resize_of_le {b : Buffer α} {n : Nat} (item : α) (h : n ≤ b.capacity) :
    (b.resize n item).capacity = b.capacity := by
  obtain ⟨items, capacity⟩ := b
  simp only [resize]
  split
  · rfl
  · exact if_pos h

end Buffer

end PackedBits
