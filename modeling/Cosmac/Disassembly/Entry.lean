import Cosmac.Isa.Table
import Cosmac.Text.Hex

/-!
The entries of a disassembly: one for each instruction, with the data that the opcode map gives,
and one for each byte that belongs to no instruction. An entry knows its bytes, its text and,
for a branch, where the branch goes.
-/

set_option autoImplicit false
set_option relaxedAutoImplicit false

namespace Cosmac.Disassembly

open Isa Text

/-- An instruction at an address, or a single byte of data. -/
structure Entry where
  address : Word
  opcode : Byte
  mnemonic : String
  operand : OperandKind
  operandBytes : List Byte
  size : Nat
  deriving DecidableEq

namespace Entry

def dataMnemonic : String := ".byte"

/-- The entry for a byte that belongs to no instruction; it counts as its own operand. -/
def ofData (address : Word) (byte : Byte) : Entry where
  address := address
  opcode := byte
  mnemonic := dataMnemonic
  operand := .implied
  operandBytes := [byte]
  size := 1

/-- The instruction at the front of some bytes. There is none if they are empty, if the opcode is
undefined, or if an operand byte is missing. -/
def decode? (address : Word) : List Byte → Option Entry
  | [] => none
  | opcode :: rest =>
    let info := Isa.info opcode
    let operandBytes := rest.take info.operand.byteCount
    if info.isUndefined || operandBytes.length < info.operand.byteCount then
      none
    else
      some
        { address, opcode, operandBytes
          mnemonic := info.mnemonic
          operand := info.operand
          size := info.size }

/-- The entry for an opcode and what follows it: an instruction if they hold one, data if not. -/
def first (address : Word) (opcode : Byte) (rest : List Byte) : Entry :=
  (decode? address (opcode :: rest)).getD (ofData address opcode)

def isData (entry : Entry) : Bool :=
  entry.mnemonic == dataMnemonic

def bytes (entry : Entry) : List Byte :=
  if entry.isData then [entry.opcode] else entry.opcode :: entry.operandBytes

/-- The number of the register or device in the opcode; devices have only three bits. -/
def number (entry : Entry) : Nibble :=
  if entry.operand = .device then (entry.opcode.setWidth 3).setWidth 4 else entry.opcode.low

/-- Where a branch goes when it is taken. A short branch stays in the page of its operand byte. -/
def target? (entry : Entry) : Option Word :=
  match entry.operand, entry.operandBytes with
  | .shortBranch, [low] => some ((entry.address + 1).withLow low)
  | .longBranch, [high, low] => some (.ofBytes high low)
  | _, _ => none

/-- The operand as it is written after the mnemonic; empty if there is none. -/
def operandText (entry : Entry) : String :=
  if entry.isData then
    "$" ++ Hex.byte entry.opcode
  else
    match entry.operand with
    | .implied => ""
    | .register => "R" ++ String.singleton (Hex.digit entry.number)
    | .device => toString entry.number.toNat
    | .immediate => "#$" ++ (entry.operandBytes.head?.map Hex.byte).getD "??"
    | .shortBranch | .longBranch => "$" ++ (entry.target?.map Hex.word).getD "????"

def text (entry : Entry) : String :=
  let operand := entry.operandText
  if operand.isEmpty then entry.mnemonic else entry.mnemonic ++ " " ++ operand

end Entry

end Cosmac.Disassembly
