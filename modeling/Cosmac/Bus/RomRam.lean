import Cosmac.Bus.Basic

/-!
A memory map with two halves: read-only memory at the addresses below `0x8000`, where the image is
repeated as often as it fits, and writable memory above. Main statements: a write to the lower half
does nothing, and a write to the upper half changes what is read at its own address only.
-/

set_option autoImplicit false
set_option relaxedAutoImplicit false

namespace Cosmac.Bus

/-- Read-only bytes for the lower half of the addresses and writable cells for the upper half. -/
structure RomRam where
  rom : Array Byte
  ram : Bank 15 Byte
  deriving DecidableEq

namespace RomRam

def ofRom (image : List Byte) : RomRam where
  rom := image.toArray
  ram := .fill 0

instance : Bus RomRam where
  read memory address :=
    if address.msb then memory.ram.get (address.setWidth 15)
    else memory.rom.getD (address.toNat % memory.rom.size) 0
  write memory address byte :=
    if address.msb then { memory with ram := memory.ram.set (address.setWidth 15) byte }
    else memory

theorem write_low (memory : RomRam) (address : Word) (byte : Byte) (low : address.msb = false) :
    write memory address byte = memory := by
  simp only [write, low, Bool.false_eq_true, if_false]

theorem read_write_high (memory : RomRam) (a b : Word) (byte : Byte) (high : a.msb = true) :
    read (write memory a byte) b = if a = b then byte else read memory b := by
  simp only [read, write, high, if_true]
  by_cases same : a = b
  · subst same
    rw [if_pos high, if_pos rfl, Bank.get_set_self]
  · rw [if_neg same]
    by_cases upper : b.msb = true
    · rw [if_pos upper, if_pos upper]
      apply Bank.get_set_of_ne
      intro equal
      apply same
      apply BitVec.eq_of_toNat_eq
      have low := congrArg BitVec.toNat equal
      have ha := BitVec.msb_eq_decide a
      have hb := BitVec.msb_eq_decide b
      simp only [high, upper, true_eq_decide_iff, BitVec.toNat_setWidth] at ha hb low
      have := a.isLt
      have := b.isLt
      omega
    · rw [if_neg upper, if_neg upper]

end RomRam

end Cosmac.Bus
