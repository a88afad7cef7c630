import Cosmac.Text.Hex

/-!
The reasons why an operation is refused, and their wording.
-/

set_option autoImplicit false
set_option relaxedAutoImplicit false

namespace Cosmac

open Text

inductive Fault
  /-- The instruction saves interrupt context, which the machine does not have. -/
  | unsupported (opcode : Byte) (mnemonic : String)
  | imageTooLarge (start : Word) (length : Nat)
  | unreadable (reason : String)
  | noSuchFlag (number : Byte)
  deriving DecidableEq

def Fault.message : Fault → String
  | .unsupported opcode mnemonic =>
      s!"instruction {mnemonic} (0x{Hex.byte opcode}) is not supported"
  | .imageTooLarge start length =>
      s!"image of {length} bytes does not fit at address 0x{Hex.word start}"
  | .unreadable reason => s!"io error: {reason}"
  | .noSuchFlag number => s!"no external flag EF{number.toNat}"

end Cosmac
