import Cosmac.Alu
import Cosmac.Flag
import Cosmac.Word

/-!
The instructions as data, and the instruction that each opcode byte stands for. Decoding reads
the two digits of the byte: the upper one selects the group, the lower one a register, a device,
a condition or a member of the group. Every byte decodes.
-/

set_option autoImplicit false
set_option relaxedAutoImplicit false

namespace Cosmac.Isa

/-- A part of the machine's state that a branch or a skip can depend on. -/
inductive Condition
  | always
  | q
  | accumulatorZero
  | carry
  | flag (f : Flag)
  | interruptsEnabled
  deriving DecidableEq

structure Test where
  condition : Condition
  negated : Bool
  deriving DecidableEq

/-- Where an arithmetic or logic operation finds its operand: at `R(X)`, or after the opcode. -/
inductive Source
  | pointer
  | immediate
  deriving DecidableEq

/-- An instruction with the register, device, test or operation that its opcode holds. -/
inductive Instruction
  | idle
  | load (n : Nibble)
  | loadAdvance (n : Nibble)
  | store (n : Nibble)
  | popAdvance
  | pushRetreat
  | increment (n : Nibble)
  | decrement (n : Nibble)
  | advancePointer
  /-- Goes to an offset in the page of the operand byte. -/
  | branch (test : Test)
  | longBranch (test : Test)
  | longSkip (test : Test)
  | output (device : BitVec 3)
  /-- Takes a byte from a device to the data pointer and to `D`. -/
  | input (device : BitVec 3)
  /-- Restores `X` and `P` from the byte at the data pointer and sets the interrupt enable. -/
  | restore (enable : Bool)
  | setQ (level : Bool)
  | compute (op : Alu.Operation) (source : Source)
  | shift (direction : Alu.Direction) (ring : Bool)
  | getLow (n : Nibble)
  | getHigh (n : Nibble)
  | putLow (n : Nibble)
  | putHigh (n : Nibble)
  | selectCounter (n : Nibble)
  | selectPointer (n : Nibble)
  | pass
  /-- Saves the context of an interrupt, which this machine does not have. -/
  | saveContext
  deriving DecidableEq

/-- The condition in the low three bits of a short branch. -/
def Condition.ofShort (n : Nibble) : Condition :=
  match n.toNat % 8 with
  | 0 => .always
  | 1 => .q
  | 2 => .accumulatorZero
  | 3 => .carry
  | 4 => .flag .ef1
  | 5 => .flag .ef2
  | 6 => .flag .ef3
  | _ => .flag .ef4

/-- The condition in the low two bits of a long branch or long skip. -/
def Condition.ofLong (n : Nibble) : Condition :=
  match n.toNat % 4 with
  | 0 => .always
  | 1 => .q
  | 2 => .accumulatorZero
  | _ => .carry

namespace Instruction

/-- The group of branches within a page; the top bit of the low digit negates the condition. -/
def ofShortBranch (n : Nibble) : Instruction :=
  .branch ⟨.ofShort n, n.msb⟩

def ofTransfer (n : Nibble) : Instruction :=
  match n.toNat with
  | 0 => .advancePointer
  | 8 => .pass
  | k => if k < 8 then .output (n.setWidth 3) else .input (n.setWidth 3)

def ofControl (n : Nibble) : Instruction :=
  match n.toNat with
  | 0x0 => .restore true
  | 0x1 => .restore false
  | 0x2 => .popAdvance
  | 0x3 => .pushRetreat
  | 0x4 => .compute (.add true) .pointer
  | 0x5 => .compute (.subtractAccumulator true) .pointer
  | 0x6 => .shift .right true
  | 0x7 => .compute (.subtractOperand true) .pointer
  | 0x8 => .saveContext
  | 0x9 => .saveContext
  | 0xA => .setQ false
  | 0xB => .setQ true
  | 0xC => .compute (.add true) .immediate
  | 0xD => .compute (.subtractAccumulator true) .immediate
  | 0xE => .shift .left true
  | _ => .compute (.subtractOperand true) .immediate

def ofLongBranch (n : Nibble) : Instruction :=
  match n.toNat with
  | 0x4 => .pass
  | 0x5 | 0x6 | 0x7 => .longSkip ⟨.ofLong n, true⟩
  | 0x9 | 0xA | 0xB => .longBranch ⟨.ofLong n, true⟩
  | 0x8 => .longSkip ⟨.always, false⟩
  | 0xC => .longSkip ⟨.interruptsEnabled, false⟩
  | 0xD | 0xE | 0xF => .longSkip ⟨.ofLong n, false⟩
  | _ => .longBranch ⟨.ofLong n, false⟩

def ofArithmetic (n : Nibble) : Instruction :=
  match n.toNat with
  | 0x0 => .compute .load .pointer
  | 0x1 => .compute .or .pointer
  | 0x2 => .compute .and .pointer
  | 0x3 => .compute .xor .pointer
  | 0x4 => .compute (.add false) .pointer
  | 0x5 => .compute (.subtractAccumulator false) .pointer
  | 0x6 => .shift .right false
  | 0x7 => .compute (.subtractOperand false) .pointer
  | 0x8 => .compute .load .immediate
  | 0x9 => .compute .or .immediate
  | 0xA => .compute .and .immediate
  | 0xB => .compute .xor .immediate
  | 0xC => .compute (.add false) .immediate
  | 0xD => .compute (.subtractAccumulator false) .immediate
  | 0xE => .shift .left false
  | _ => .compute (.subtractOperand false) .immediate

def ofByte (b : Byte) : Instruction :=
  match b.high.toNat with
  | 0x0 => if b.low = 0 then .idle else .load b.low
  | 0x1 => .increment b.low
  | 0x2 => .decrement b.low
  | 0x3 => ofShortBranch b.low
  | 0x4 => .loadAdvance b.low
  | 0x5 => .store b.low
  | 0x6 => ofTransfer b.low
  | 0x7 => ofControl b.low
  | 0x8 => .getLow b.low
  | 0x9 => .getHigh b.low
  | 0xA => .putLow b.low
  | 0xB => .putHigh b.low
  | 0xC => ofLongBranch b.low
  | 0xD => .selectCounter b.low
  | 0xE => .selectPointer b.low
  | _ => ofArithmetic b.low

end Instruction

end Cosmac.Isa
