import Cosmac.Bus.Flat

/-!
Ranges of memory. A range is as long as it says, is its first part with the rest behind it, and
depends on nothing outside it. Main statement: what a flat memory hands out as a slice is what is
read at the addresses of the slice, one by one.
-/

set_option autoImplicit false
set_option relaxedAutoImplicit false

namespace Cosmac.Bus

variable {σ : Type} [Bus σ]

@[simp] theorem length_readEach (memory : σ) (start : Word) (count : Nat) :
    (readEach memory start count).length = count := by
  simp [readEach]

theorem readEach_add (memory : σ) (start : Word) (count more : Nat) :
    readEach memory start (count + more) =
      readEach memory start count ++ readEach memory (start + .ofNat 16 count) more := by
  unfold readEach
  rw [List.range_add, List.map_append, List.map_map]
  congr 1
  apply List.map_congr_left
  intro offset _
  rw [Function.comp_apply, BitVec.ofNat_add, BitVec.add_assoc]

theorem readEach_succ (memory : σ) (start : Word) (count : Nat) :
    readEach memory start (count + 1) =
      read memory start :: readEach memory (start + 1) count := by
  rw [Nat.add_comm, readEach_add]
  show [read memory (start + 0#16)] ++ _ = _
  rw [BitVec.add_zero]
  rfl

theorem readEach_congr {memory other : σ} {start : Word} {count : Nat}
    (same : ∀ offset < count, read other (start + .ofNat 16 offset) =
      read memory (start + .ofNat 16 offset)) :
    readEach other start count = readEach memory start count :=
  List.map_congr_left fun offset inside => same offset (List.mem_range.mp inside)

theorem take_readEach (memory : σ) (start : Word) (count cut : Nat) :
    (readEach memory start count).take cut = readEach memory start (min cut count) := by
  rw [readEach, ← List.map_take, List.take_range]
  rfl

theorem eq_readEach_of_append {memory : σ} {start : Word} {front back : List Byte}
    (holds : front ++ back = readEach memory start (front ++ back).length) :
    front = readEach memory start front.length ∧
      back = readEach memory (start + .ofNat 16 front.length) back.length := by
  rw [List.length_append, readEach_add] at holds
  exact List.append_inj holds (length_readEach _ _ _).symm

theorem Flat.slice_eq_readEach (memory : Flat) (start : Word) (count : Nat)
    (fits : start.toNat + count ≤ addressCount) :
    memory.slice start.toNat (start.toNat + count) = readEach memory start count := by
  have within : start.toNat + count ≤ memory.cells.cells.toArray.size := by
    rw [Vector.size_toArray]
    exact fits
  have length : (memory.slice start.toNat (start.toNat + count)).length = count := by
    rw [slice, Array.length_toList, Array.size_extract]
    omega
  apply List.ext_getElem
  · rw [length, length_readEach]
  · intro offset inside _
    rw [length] at inside
    have address : (start + BitVec.ofNat 16 offset).toNat = start.toNat + offset := by
      unfold addressCount at fits
      rw [BitVec.toNat_add, BitVec.toNat_ofNat]
      omega
    simp only [slice, Array.getElem_toList, Array.getElem_extract, Vector.getElem_toArray, readEach,
      List.getElem_map, List.getElem_range, read_eq_get, Bank.get, Fin.getElem_fin,
      BitVec.val_toFin, address]

end Cosmac.Bus
