import Cosmac.Bank
import Cosmac.Flag
import Cosmac.Word

/-!
Cells by number. A bank is an array, and an array is asked for a position that it need not have:
the accesses of this module say so. Main statements: the positions that a selector can name are
there, and so is every range within an array.
-/

set_option autoImplicit false
set_option relaxedAutoImplicit false

namespace Cosmac

/-- The entries of an array from one position up to another, if that is a range within it. -/
def slice? {α : Type} (entries : Array α) (start stop : Nat) : Option (Array α) :=
  if start ≤ stop ∧ stop ≤ entries.size then some (entries.extract start stop) else none

theorem slice?_of_le {α : Type} {entries : Array α} {start stop : Nat} (ordered : start ≤ stop)
    (within : stop ≤ entries.size) :
    slice? entries start stop = some (entries.extract start stop) :=
  if_pos ⟨ordered, within⟩

namespace Bank

variable {w : Nat} {α : Type}

def at? (bank : Bank w α) (k : Nat) : Option α := bank.cells[k]?

def put? (bank : Bank w α) (k : Nat) (v : α) : Option (Bank w α) :=
  if inside : k < Nat.pow 2 w then some ⟨bank.cells.set k v inside⟩ else none

/-- The bank with the cells of a range replaced by a block, if it is a range of cells and the block
is as long. -/
def copy? (bank : Bank w α) (start stop : Nat) (block : List α) : Option (Bank w α) :=
  if fits : start ≤ stop ∧ stop ≤ Nat.pow 2 w ∧ block.length = stop - start then
    some (bank.splice start block (by omega))
  else none

@[simp] theorem at?_toNat (bank : Bank w α) (i : BitVec w) : bank.at? i.toNat = some (bank.get i) :=
  Vector.getElem?_eq_getElem i.isLt

@[simp] theorem put?_toNat (bank : Bank w α) (i : BitVec w) (v : α) :
    bank.put? i.toNat v = some (bank.set i v) :=
  dif_pos i.isLt

theorem at?_eq_none_of_le (bank : Bank w α) {k : Nat} (outside : Nat.pow 2 w ≤ k) :
    bank.at? k = none :=
  Vector.getElem?_eq_none outside

theorem copy?_of_le (bank : Bank w α) {start : Nat} {block : List α}
    (fits : start + block.length ≤ Nat.pow 2 w) :
    bank.copy? start (start + block.length) block = some (bank.splice start block fits) :=
  dif_pos ⟨Nat.le_add_right _ _, fits, (Nat.add_sub_cancel_left _ _).symm⟩

end Bank

namespace Nibble

def wide (n : Nibble) : Byte := n.setWidth 8

@[simp] theorem toNat_wide (n : Nibble) : n.wide.toNat = n.toNat :=
  BitVec.toNat_setWidth_of_le (by decide)

theorem toNat_wide_lt (n : Nibble) : n.wide.toNat < 16 := by
  rw [toNat_wide]
  exact n.isLt

end Nibble

namespace Byte

theorem shift_eq_wide_high (b : Byte) : b >>> 4 = b.high.wide := by
  apply BitVec.eq_of_toNat_eq
  rw [BitVec.toNat_ushiftRight, Nibble.toNat_wide, toNat_high]
  exact Nat.shiftRight_eq_div_pow b.toNat 4

theorem mask_eq_wide_low (b : Byte) : b &&& 0x0F = b.low.wide := by
  apply BitVec.eq_of_toNat_eq
  rw [BitVec.toNat_and, Nibble.toNat_wide, toNat_low]
  exact Nat.and_two_pow_sub_one_eq_mod b.toNat 4

end Byte

def Flag.index : Flag → Nat
  | .ef1 => 0
  | .ef2 => 1
  | .ef3 => 2
  | .ef4 => 3

namespace FlagLevels

def bank (levels : FlagLevels) : Bank 2 Bool :=
  ⟨⟨#[levels.ef1, levels.ef2, levels.ef3, levels.ef4], rfl⟩⟩

theorem at?_index_bank (levels : FlagLevels) (flag : Flag) :
    levels.bank.at? flag.index = some (levels.level flag) := by
  cases flag <;> rfl

theorem put?_index_bank (levels : FlagLevels) (flag : Flag) (active : Bool) :
    levels.bank.put? flag.index active = some (levels.drive flag active).bank := by
  cases flag <;> rfl

end FlagLevels

end Cosmac
