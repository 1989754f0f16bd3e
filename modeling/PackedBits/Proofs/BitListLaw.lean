import PackedBits.BitList
import PackedBits.Proofs.Lawful

/-!
# Vectors kept bit by bit are lawful

A `BitList` gives six operations and takes the others over, so it is lawful when
the six follow their plans. Where it cannot grow it keeps the bits that it has.
-/

namespace PackedBits

namespace BitList

/-- A vector holds the bits that it keeps. -/
def Holds (v : BitList) (bits : List Bool) : Prop := v.bits.toList = bits

variable {v : BitList} {bits : List Bool} {i : Nat} {b : Bool}

theorem Holds.length_eq (h : v.Holds bits) : Bits.length v = bits.length := by
  subst h
  exact Array.length_toList.symm

theorem Holds.getElem?_eq (h : v.Holds bits) (i : Nat) : v.bits[i]? = bits[i]? := by
  subst h
  exact Array.getElem?_toList.symm

theorem Holds.bit_eq (h : v.Holds bits) (hb : bits[i]? = some b) : Bits.bit v i = .ok b := by
  rw [← h.getElem?_eq] at hb
  simp only [Bits.bit, bit, hb]

theorem Holds.bit_past (h : v.Holds bits) (hpast : bits.length ≤ i) :
    Bits.bit v i = .error (.indexOutOfBounds i bits.length) := by
  have hnone : v.bits[i]? = none := by rw [h.getElem?_eq, List.getElem?_eq_none hpast]
  have hsize : v.bits.size = bits.length := h.length_eq
  simp only [Bits.bit, bit, hnone, hsize]

theorem Holds.reads (h : v.Holds bits) : (Bits.source v).Reads bits where
  length_eq := h.length_eq
  bit_eq hb := h.bit_eq hb
  window_eq lo hi hle hhi hspan := by
    have hgather := Source.gather_eq (fun _ _ => h.bit_eq) hle hhi hspan
    rwa [← h.length_eq] at hgather

theorem follows_set (i : Nat) (b : Bool) :
    Follows Holds (fun _ => False) (MutableBits.set i b) (Plan.set i b) := by
  intro v bits h
  have hsize : v.bits.size = bits.length := h.length_eq
  rcases Nat.lt_or_ge i bits.length with hi | hi
  · have hold := List.getElem?_eq_getElem hi
    have hrun : ∃ w : BitList, set i b v = .ok bits[i] w ∧ w.bits = v.bits.setIfInBounds i b := by
      simp only [set, h.getElem?_eq, hold]
      exact ⟨_, rfl, rfl⟩
    obtain ⟨w, hrun, hw⟩ := hrun
    refine followsAt_of_yields (Plan.set_of_some hold b) (Edit.yields_of_ok hrun ⟨rfl, ?_⟩)
    rw [Holds, hw, Array.toList_setIfInBounds, h]
  · have hnone := List.getElem?_eq_none hi
    have hrun : set i b v = .error (.indexOutOfBounds i bits.length) v := by
      simp only [set, h.getElem?_eq, hnone, hsize]
    exact followsAt_error hrun (Plan.set_past hi b)

theorem follows_remove (i : Nat) :
    Follows Holds (fun _ => False) (ResizableBits.remove i) (Plan.remove i) := by
  intro v bits h
  have hsize : v.bits.size = bits.length := h.length_eq
  rcases Nat.lt_or_ge i bits.length with hi | hi
  · have hold := List.getElem?_eq_getElem hi
    have hrun : ∃ w : BitList, remove i v = .ok bits[i] w ∧
        w.bits = v.bits.eraseIdxIfInBounds i := by
      simp only [remove, h.getElem?_eq, hold]
      exact ⟨_, rfl, rfl⟩
    obtain ⟨w, hrun, hw⟩ := hrun
    refine followsAt_of_yields (Plan.remove_of_some hold) (Edit.yields_of_ok hrun ⟨rfl, ?_⟩)
    rw [Holds, hw, Array.toList_eraseIdxIfInBounds, h]
  · have hnone := List.getElem?_eq_none hi
    have hrun : remove i v = .error (.indexOutOfBounds i bits.length) v := by
      simp only [remove, h.getElem?_eq, hnone, hsize]
    exact followsAt_error hrun (Plan.remove_past hi)

/-- A bit is put where there is room for one more. -/
theorem Holds.insert (h : v.Holds bits) (memory : Allocator) (hi : i ≤ bits.length) (b : Bool) :
    (ResizableBits.insert memory i b).Yields v (fun _ w => Holds w (bits.insertIdx i b))
      fun failure w => failure.isRefusal = true ∧ Holds w bits := by
  have hsize : v.bits.size = bits.length := h.length_eq
  have hin : i ≤ v.bits.size := hsize.symm ▸ hi
  by_cases hroom : v.bits.size < maxBytes
  · have hrun : ∃ w : BitList, BitList.insert i b v = .ok () w ∧
        w.bits = v.bits.insertIdxIfInBounds i b := by
      simp only [BitList.insert, if_pos hin, dif_pos hroom]
      exact ⟨_, rfl, rfl⟩
    obtain ⟨w, hrun, hw⟩ := hrun
    refine Edit.yields_of_ok hrun ?_
    have hbits : v.bits = bits.toArray := by rw [← h, Array.toArray_toList]
    rw [Holds, hw, hbits, List.insertIdxIfInBounds_toArray]
  · have hrun : BitList.insert i b v = .error .allocation v := by
      simp only [BitList.insert, if_pos hin, dif_neg hroom]
    exact Edit.yields_of_error hrun ⟨rfl, h⟩

/-- A length that a list can have is given to it. -/
theorem Holds.setLength (h : v.Holds bits) (memory : Allocator) (n : Nat) :
    (ResizableBits.setLength memory n).Yields v (fun _ w => Holds w (resized n false bits))
      fun failure w => failure.isRefusal = true ∧ Holds w bits := by
  by_cases hn : n ≤ maxBytes
  · have hrun : ∃ w : BitList, BitList.setLength n v = .ok () w ∧
        w.bits = cutOrPad v.bits n := by
      simp only [BitList.setLength, dif_pos hn]
      exact ⟨_, rfl, rfl⟩
    obtain ⟨w, hrun, hw⟩ := hrun
    refine Edit.yields_of_ok hrun ?_
    rw [Holds, hw, cutOrPad, Array.toList_append, Array.toList_shrink, Array.toList_replicate, h,
      resized, ← h, Array.length_toList]
  · have hrun : BitList.setLength n v = .error .allocation v := by
      simp only [BitList.setLength, dif_neg hn]
    exact Edit.yields_of_error hrun ⟨rfl, h⟩

theorem follows_insert (memory : Allocator) (i : Nat) (b : Bool) :
    Follows Holds (fun _ => True) (ResizableBits.insert memory i b) (Plan.insert i b) := by
  intro v bits h
  by_cases hi : i ≤ bits.length
  · exact followsAt_of_yields (Plan.insert_of_le hi b) ((h.insert memory hi b).mono
      (fun _ _ hw => ⟨rfl, hw⟩) fun _ _ hfailed => ⟨hfailed.1, trivial⟩)
  · have hsize : v.bits.size = bits.length := h.length_eq
    have hrun : insert i b v = .error (.indexOutOfBounds i v.bits.size) v :=
      if_neg (hsize.symm ▸ hi)
    refine followsAt_error hrun ?_
    rw [Plan.insert, checkInsertIndex, require, if_neg hi, hsize]
    rfl

theorem follows_setLength (memory : Allocator) (n : Nat) :
    Follows Holds (fun _ => True) (ResizableBits.setLength memory n) (Plan.setLength n) :=
  fun _ _ h => followsAt_of_yields rfl ((h.setLength memory n).mono (fun _ _ hw => ⟨rfl, hw⟩)
    fun _ _ hfailed => ⟨hfailed.1, trivial⟩)

theorem follows_push (memory : Allocator) (b : Bool) :
    Follows Holds (fun _ => True) (ResizableBits.push memory b) (Plan.push b) :=
  follows_default_push Holds.length_eq memory (follows_insert memory) b

theorem follows_appendBits (memory : Allocator) (w : Word) (count : Nat) :
    Follows Holds (fun _ => True) (ResizableBits.appendBits memory w count)
      (Plan.appendBits w count) :=
  follows_default_appendBits Holds.length_eq memory (follows_push memory) w count

theorem lawful : Lawful Holds where
  reads := Holds.reads
  bit_past := Holds.bit_past
  set := follows_set
  setBits := follows_default_setBits Holds.length_eq follows_set
  fillRange := follows_default_fillRange Holds.length_eq follows_set
  flipRange := follows_default_flipRange Holds.length_eq Holds.bit_eq follows_set
  combine op _ _ hsource :=
    follows_default_combine Holds.length_eq Holds.bit_eq follows_set op hsource
  remove := follows_remove
  setLength := follows_setLength
  insert := follows_insert
  push := follows_push
  appendBits := follows_appendBits
  append memory _ _ hsource := follows_default_append memory (follows_appendBits memory) hsource

end BitList

end PackedBits
