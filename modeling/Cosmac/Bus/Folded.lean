import Cosmac.Bus.Basic

/-!
Folded memory: any positive number of cells, repeated through the address space, so that addresses
that differ by a multiple of the size share a cell. Main statement: a write changes what is read at
the addresses that share its cell.
-/

set_option autoImplicit false
set_option relaxedAutoImplicit false

namespace Cosmac.Bus

/-- A positive number of cells that the addresses run through again and again. -/
structure Folded where
  cells : Array Byte
  nonempty : 0 < cells.size
  deriving DecidableEq

namespace Folded

/-- Cells that hold zero; at least one is made. -/
def zero (size : Nat) : Folded where
  cells := Array.replicate (max size 1) 0
  nonempty := by
    rw [Array.size_replicate]
    omega

def cell (memory : Folded) (address : Word) : Fin memory.cells.size :=
  ⟨address.toNat % memory.cells.size, Nat.mod_lt _ memory.nonempty⟩

instance : Bus Folded where
  read memory address := memory.cells[memory.cell address]
  write memory address byte :=
    { cells := memory.cells.set (memory.cell address) byte (memory.cell address).isLt
      nonempty := by
        rw [Array.size_set]
        exact memory.nonempty }

theorem read_write (memory : Folded) (a b : Word) (byte : Byte) :
    read (write memory a byte) b =
      if a.toNat % memory.cells.size = b.toNat % memory.cells.size then byte
      else read memory b := by
  simp only [read, write, cell, Fin.getElem_fin, Array.getElem_set, Array.size_set]

end Folded

end Cosmac.Bus
