import Cosmac.Proofs.Isa.Listed

/-!
What the map says of an instruction can be read backwards. Main statements: the opcode is known
from the mnemonic and the number of the register or device, no mnemonic has a blank in it, and only
that of an undefined opcode has a question mark.
-/

set_option autoImplicit false
set_option relaxedAutoImplicit false

namespace Cosmac.Isa

/-- The number that is written after the mnemonic of an opcode: that of the register or device,
zero where there is none. -/
def OperandKind.number (opcode : Nat) : OperandKind → Nat
  | .register => opcode % 16
  | .device => opcode % 8
  | _ => 0

def encode? (mnemonic : String) (number : Nat) : Option Nat :=
  (rows.flatten.zipIdx.find? fun (entry, opcode) =>
    (entry.operand.number opcode).beq number && entry.mnemonic == mnemonic).map (·.2)

private theorem encode?_info (b : Byte) :
    encode? (info b).mnemonic ((info b).operand.number b.toNat) = some b.toNat :=
  forall_info
    (p := fun b entry => encode? entry.mnemonic (entry.operand.number b.toNat) = some b.toNat)
    (by decide +kernel) b

theorem eq_of_mnemonic_of_number {b c : Byte} (mnemonic : (info b).mnemonic = (info c).mnemonic)
    (number : (info b).operand.number b.toNat = (info c).operand.number c.toNat) : b = c := by
  have first := encode?_info b
  rw [mnemonic, number, encode?_info c] at first
  exact BitVec.eq_of_toNat_eq (Option.some.inj first).symm

theorem blank_lt_of_mem_mnemonic (b : Byte) : ∀ c ∈ (info b).mnemonic.toList, ' ' < c := by
  have pass : (info b).mnemonic.toList.all (' ' < ·) = true :=
    forall_info (p := fun _ entry => entry.mnemonic.toList.all (' ' < ·) = true)
      (by decide +kernel) b
  simpa only [List.all_eq_true, decide_eq_true_eq] using pass

theorem question_not_mem_mnemonic {b : Byte} (isDefined : (info b).isUndefined = false) :
    '?' ∉ (info b).mnemonic.toList :=
  forall_info (p := fun _ entry => entry.isUndefined = false → '?' ∉ entry.mnemonic.toList)
    (by decide +kernel) b isDefined

end Cosmac.Isa
