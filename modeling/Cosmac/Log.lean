import Cosmac.Fault
import Cosmac.Isa.Table

/-!
Log records as data: what happened, with how much weight, and the line that tells it.
-/

set_option autoImplicit false
set_option relaxedAutoImplicit false

namespace Cosmac

open Text

inductive Level
  | trace
  | debug
  | info
  | warn
  deriving DecidableEq

inductive Record
  | fetched (address : Word) (opcode : Byte)
  | sent (device : BitVec 3) (value : Byte)
  | received (device : BitVec 3) (value : Byte)
  | refused (address : Word) (mnemonic : String)
  | stopped (completed : Nat) (fault : Fault)
  | loaded (start : Word) (length : Nat)
  | imageRead (path : String) (length : Nat)
  deriving DecidableEq

namespace Record

def level : Record → Level
  | .fetched .. | .sent .. | .received .. => .trace
  | .stopped .. | .loaded .. => .debug
  | .imageRead .. => .info
  | .refused .. => .warn

def text : Record → String
  | .fetched address opcode =>
      s!"{Hex.word address}: {Hex.byte opcode} {(Isa.info opcode).mnemonic}"
  | .sent device value => s!"OUT {device.toNat}: bus=0x{Hex.byte value}"
  | .received device value => s!"INP {device.toNat}: bus=0x{Hex.byte value}"
  | .refused address mnemonic =>
      s!"unsupported instruction {mnemonic} at 0x{Hex.word address}"
  | .stopped completed fault => s!"run stopped after {completed} instructions: {fault.message}"
  | .loaded start length => s!"loaded {length} byte image at 0x{Hex.word start}"
  | .imageRead path length => s!"read ROM image {path} ({length} bytes)"

end Record

end Cosmac
