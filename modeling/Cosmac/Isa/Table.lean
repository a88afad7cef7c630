import Cosmac.Bank
import Cosmac.Word

/-!
The map of the 256 opcodes: for each, the mnemonic and the way its operand is written. The map
serves listings and messages; execution does not consult it.
-/

set_option autoImplicit false
set_option relaxedAutoImplicit false

namespace Cosmac.Isa

/-- How an instruction names what it works on: by nothing but its opcode, by a register or a
device number in the low digit, or by the bytes that follow. -/
inductive OperandKind
  | implied
  | register
  | device
  | immediate
  | shortBranch
  | longBranch
  deriving DecidableEq

/-- The number of bytes between an opcode and the next instruction. -/
def OperandKind.byteCount : OperandKind → Nat
  | .implied | .register | .device => 0
  | .immediate | .shortBranch => 1
  | .longBranch => 2

structure OpcodeInfo where
  mnemonic : String
  operand : OperandKind
  deriving DecidableEq

namespace OpcodeInfo

def undefinedMnemonic : String := "???"

def size (info : OpcodeInfo) : Nat :=
  1 + info.operand.byteCount

def isUndefined (info : OpcodeInfo) : Bool :=
  info.mnemonic == undefinedMnemonic

end OpcodeInfo

def entries (operand : OperandKind) (names : List String) : List OpcodeInfo :=
  names.map fun name => ⟨name, operand⟩

/-- Entries of one name for consecutive opcodes that differ in their low digit. -/
def family (operand : OperandKind) (count : Nat) (name : String) : List OpcodeInfo :=
  List.replicate count ⟨name, operand⟩

def rows : List (List OpcodeInfo) :=
  [ entries .implied ["IDL"] ++ family .register 15 "LDN",
    family .register 16 "INC",
    family .register 16 "DEC",
    entries .shortBranch ["BR", "BQ", "BZ", "BDF", "B1", "B2", "B3", "B4"] ++
      entries .implied ["SKP"] ++
      entries .shortBranch ["BNQ", "BNZ", "BNF", "BN1", "BN2", "BN3", "BN4"],
    family .register 16 "LDA",
    family .register 16 "STR",
    entries .implied ["IRX"] ++ family .device 7 "OUT" ++
      entries .implied [OpcodeInfo.undefinedMnemonic] ++ family .device 7 "INP",
    entries .implied
      ["RET", "DIS", "LDXA", "STXD", "ADC", "SDB", "SHRC", "SMB", "SAV", "MARK", "REQ", "SEQ"] ++
      entries .immediate ["ADCI", "SDBI"] ++ entries .implied ["SHLC"] ++
      entries .immediate ["SMBI"],
    family .register 16 "GLO",
    family .register 16 "GHI",
    family .register 16 "PLO",
    family .register 16 "PHI",
    entries .longBranch ["LBR", "LBQ", "LBZ", "LBDF"] ++
      entries .implied ["NOP", "LSNQ", "LSNZ", "LSNF", "LSKP"] ++
      entries .longBranch ["LBNQ", "LBNZ", "LBNF"] ++
      entries .implied ["LSIE", "LSQ", "LSZ", "LSDF"],
    family .register 16 "SEP",
    family .register 16 "SEX",
    entries .implied ["LDX", "OR", "AND", "XOR", "ADD", "SD", "SHR", "SM"] ++
      entries .immediate ["LDI", "ORI", "ANI", "XRI", "ADI", "SDI"] ++
      entries .implied ["SHL"] ++ entries .immediate ["SMI"] ]

def table : Bank 8 OpcodeInfo :=
  ⟨⟨rows.flatten.toArray, by decide +kernel⟩⟩

def info (opcode : Byte) : OpcodeInfo :=
  table.get opcode

end Cosmac.Isa
