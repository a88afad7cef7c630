/-!
A bank of cells, one for every value of a selector. Reading after writing, copying a block into
a bank, and equality cell by cell are its laws; no access can miss.
-/

set_option autoImplicit false
set_option relaxedAutoImplicit false

namespace Cosmac

/-- One cell for each `w`-bit selector. -/
structure Bank (w : Nat) (α : Type) where
  cells : Vector α (Nat.pow 2 w)
  deriving DecidableEq

namespace Bank

variable {w : Nat} {α : Type}

def get (bank : Bank w α) (i : BitVec w) : α :=
  bank.cells[i.toFin]

def set (bank : Bank w α) (i : BitVec w) (v : α) : Bank w α :=
  ⟨bank.cells.set i.toNat v i.isLt⟩

def fill (v : α) : Bank w α :=
  ⟨Vector.replicate (Nat.pow 2 w) v⟩

/-- The bank with the block from cell `start` on replaced by `block`. -/
def splice (bank : Bank w α) (start : Nat) (block : List α)
    (fits : start + block.length ≤ Nat.pow 2 w) : Bank w α :=
  ⟨⟨bank.cells.toArray.extract 0 start ++ block.toArray ++
      bank.cells.toArray.extract (start + block.length) (Nat.pow 2 w), by
    simp only [Array.size_append, Array.size_extract, Vector.size_toArray, List.size_toArray]
    omega⟩⟩

@[ext] theorem ext {b c : Bank w α} (h : ∀ i, b.get i = c.get i) : b = c := by
  cases b with | mk b =>
  cases c with | mk c =>
  congr
  apply Vector.ext
  intro i hi
  have := h ⟨⟨i, hi⟩⟩
  simpa [get] using this

@[simp] theorem get_fill (v : α) (i : BitVec w) : (fill v : Bank w α).get i = v := by
  simp [get, fill]

theorem get_set (bank : Bank w α) (i j : BitVec w) (v : α) :
    (bank.set i v).get j = if i = j then v else bank.get j := by
  simp only [get, set, Fin.getElem_fin, Vector.getElem_set]
  congr 1
  exact propext ⟨fun h => BitVec.eq_of_toNat_eq h, fun h => congrArg BitVec.toNat h⟩

@[simp] theorem get_set_self (bank : Bank w α) (i : BitVec w) (v : α) :
    (bank.set i v).get i = v := by
  rw [get_set, if_pos rfl]

theorem get_set_of_ne (bank : Bank w α) {i j : BitVec w} (v : α) (h : i ≠ j) :
    (bank.set i v).get j = bank.get j := by
  rw [get_set, if_neg h]

@[simp] theorem set_get (bank : Bank w α) (i : BitVec w) : bank.set i (bank.get i) = bank := by
  ext j
  rw [get_set]
  split
  · rename_i h
    rw [h]
  · rfl

@[simp] theorem set_set (bank : Bank w α) (i : BitVec w) (u v : α) :
    (bank.set i u).set i v = bank.set i v := by
  ext j
  simp only [get_set]
  split <;> rfl

theorem get_splice_of_mem (bank : Bank w α) (start : Nat) (block : List α)
    (fits : start + block.length ≤ Nat.pow 2 w) (i : BitVec w) (o : Fin block.length)
    (h : i.toNat = start + o) : (bank.splice start block fits).get i = block.get o := by
  have ho := o.isLt
  have below : (bank.cells.toArray.extract 0 start).size = start := by
    simp only [Array.size_extract, Vector.size_toArray]
    omega
  simp only [get, splice, Fin.getElem_fin, BitVec.val_toFin, Vector.getElem_mk]
  rw [Array.getElem_append_left (by simp only [Array.size_append, below, List.size_toArray]; omega),
    Array.getElem_append_right (by omega)]
  simp [below, h]

theorem get_splice_of_not_mem (bank : Bank w α) (start : Nat) (block : List α)
    (fits : start + block.length ≤ Nat.pow 2 w) (i : BitVec w)
    (h : i.toNat < start ∨ start + block.length ≤ i.toNat) :
    (bank.splice start block fits).get i = bank.get i := by
  have hi := i.isLt
  have below : (bank.cells.toArray.extract 0 start).size = start := by
    simp only [Array.size_extract, Vector.size_toArray]
    omega
  simp only [get, splice, Fin.getElem_fin, BitVec.val_toFin, Vector.getElem_mk]
  rcases h with h | h
  · rw [Array.getElem_append_left (by
        simp only [Array.size_append, below, List.size_toArray]; omega),
      Array.getElem_append_left (by omega)]
    simp
  · rw [Array.getElem_append_right (by
        simp only [Array.size_append, below, List.size_toArray]; omega)]
    simp only [Array.size_append, below, List.size_toArray, Array.getElem_extract,
      Vector.getElem_toArray]
    congr 1
    omega

end Bank

end Cosmac
