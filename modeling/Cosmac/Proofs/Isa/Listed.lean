import Cosmac.Isa.Instruction
import Cosmac.Isa.Table

/-!
Execution decodes an opcode by its two digits, listings look it up in the map. This module joins
the two: it gives the entries of the map that stand for each instruction. Main statements: every
opcode is listed under the instruction it decodes to, and a register that an instruction names is
the lower digit of its opcode.
-/

set_option autoImplicit false
set_option relaxedAutoImplicit false

namespace Cosmac.Isa

def Test.shortBranches : Test → List String
  | ⟨.always, false⟩ => ["BR"]
  | ⟨.q, false⟩ => ["BQ"]
  | ⟨.q, true⟩ => ["BNQ"]
  | ⟨.accumulatorZero, false⟩ => ["BZ"]
  | ⟨.accumulatorZero, true⟩ => ["BNZ"]
  | ⟨.carry, false⟩ => ["BDF"]
  | ⟨.carry, true⟩ => ["BNF"]
  | ⟨.flag .ef1, false⟩ => ["B1"]
  | ⟨.flag .ef1, true⟩ => ["BN1"]
  | ⟨.flag .ef2, false⟩ => ["B2"]
  | ⟨.flag .ef2, true⟩ => ["BN2"]
  | ⟨.flag .ef3, false⟩ => ["B3"]
  | ⟨.flag .ef3, true⟩ => ["BN3"]
  | ⟨.flag .ef4, false⟩ => ["B4"]
  | ⟨.flag .ef4, true⟩ => ["BN4"]
  | _ => []

def Test.longBranches : Test → List String
  | ⟨.always, false⟩ => ["LBR"]
  | ⟨.q, false⟩ => ["LBQ"]
  | ⟨.q, true⟩ => ["LBNQ"]
  | ⟨.accumulatorZero, false⟩ => ["LBZ"]
  | ⟨.accumulatorZero, true⟩ => ["LBNZ"]
  | ⟨.carry, false⟩ => ["LBDF"]
  | ⟨.carry, true⟩ => ["LBNF"]
  | _ => []

def Test.longSkips : Test → List String
  | ⟨.always, false⟩ => ["LSKP"]
  | ⟨.q, false⟩ => ["LSQ"]
  | ⟨.q, true⟩ => ["LSNQ"]
  | ⟨.accumulatorZero, false⟩ => ["LSZ"]
  | ⟨.accumulatorZero, true⟩ => ["LSNZ"]
  | ⟨.carry, false⟩ => ["LSDF"]
  | ⟨.carry, true⟩ => ["LSNF"]
  | ⟨.interruptsEnabled, false⟩ => ["LSIE"]
  | _ => []

def Source.mnemonic : Source → Alu.Operation → String
  | .pointer, .load => "LDX"
  | .pointer, .or => "OR"
  | .pointer, .and => "AND"
  | .pointer, .xor => "XOR"
  | .pointer, .add false => "ADD"
  | .pointer, .add true => "ADC"
  | .pointer, .subtractAccumulator false => "SD"
  | .pointer, .subtractAccumulator true => "SDB"
  | .pointer, .subtractOperand false => "SM"
  | .pointer, .subtractOperand true => "SMB"
  | .immediate, .load => "LDI"
  | .immediate, .or => "ORI"
  | .immediate, .and => "ANI"
  | .immediate, .xor => "XRI"
  | .immediate, .add false => "ADI"
  | .immediate, .add true => "ADCI"
  | .immediate, .subtractAccumulator false => "SDI"
  | .immediate, .subtractAccumulator true => "SDBI"
  | .immediate, .subtractOperand false => "SMI"
  | .immediate, .subtractOperand true => "SMBI"

def Source.operandKind : Source → OperandKind
  | .pointer => .implied
  | .immediate => .immediate

def shiftMnemonic : Alu.Direction → Bool → String
  | .right, false => "SHR"
  | .right, true => "SHRC"
  | .left, false => "SHL"
  | .left, true => "SHLC"

namespace Instruction

/-- The entries of the map that stand for an instruction. A branch that never goes anywhere is
listed as a skip of one byte. -/
def listed : Instruction → List OpcodeInfo
  | .idle => [⟨"IDL", .implied⟩]
  | .load _ => [⟨"LDN", .register⟩]
  | .loadAdvance _ => [⟨"LDA", .register⟩]
  | .store _ => [⟨"STR", .register⟩]
  | .popAdvance => [⟨"LDXA", .implied⟩]
  | .pushRetreat => [⟨"STXD", .implied⟩]
  | .increment _ => [⟨"INC", .register⟩]
  | .decrement _ => [⟨"DEC", .register⟩]
  | .advancePointer => [⟨"IRX", .implied⟩]
  | .branch test =>
      entries .shortBranch test.shortBranches ++
        if test = ⟨.always, true⟩ then [⟨"SKP", .implied⟩] else []
  | .longBranch test => entries .longBranch test.longBranches
  | .longSkip test => entries .implied test.longSkips
  | .output _ => [⟨"OUT", .device⟩]
  | .input _ => [⟨"INP", .device⟩]
  | .restore true => [⟨"RET", .implied⟩]
  | .restore false => [⟨"DIS", .implied⟩]
  | .setQ true => [⟨"SEQ", .implied⟩]
  | .setQ false => [⟨"REQ", .implied⟩]
  | .compute op source => [⟨source.mnemonic op, source.operandKind⟩]
  | .shift direction ring => [⟨shiftMnemonic direction ring, .implied⟩]
  | .getLow _ => [⟨"GLO", .register⟩]
  | .getHigh _ => [⟨"GHI", .register⟩]
  | .putLow _ => [⟨"PLO", .register⟩]
  | .putHigh _ => [⟨"PHI", .register⟩]
  | .selectCounter _ => [⟨"SEP", .register⟩]
  | .selectPointer _ => [⟨"SEX", .register⟩]
  | .pass => [⟨"NOP", .implied⟩, ⟨OpcodeInfo.undefinedMnemonic, .implied⟩]
  | .saveContext => [⟨"SAV", .implied⟩, ⟨"MARK", .implied⟩]

def register? : Instruction → Option Nibble
  | .load n | .loadAdvance n | .store n | .increment n | .decrement n | .getLow n | .getHigh n
  | .putLow n | .putHigh n | .selectCounter n | .selectPointer n => some n
  | _ => none

end Instruction

private theorem length_flatten_rows : rows.flatten.length = 256 := by
  decide +kernel

/-- What holds of every cell in one pass over the rows of the map holds of every opcode. -/
theorem forall_info {p : Byte → OpcodeInfo → Prop} [∀ b entry, Decidable (p b entry)]
    (pass : rows.flatten.zipIdx.all (fun cell => decide (p (.ofNat 8 cell.2) cell.1)) = true)
    (b : Byte) : p b (info b) := by
  have inside : b.toNat < rows.flatten.length := by
    rw [length_flatten_rows]
    exact b.isLt
  have cell : info b = rows.flatten[b.toNat] := by
    simp [info, table, Bank.get]
  have member : (rows.flatten[b.toNat], b.toNat) ∈ rows.flatten.zipIdx := by
    rw [List.mem_zipIdx_iff_getElem?]
    exact List.getElem?_eq_getElem inside
  have holds := of_decide_eq_true (List.all_eq_true.mp pass _ member)
  rwa [BitVec.ofNat_toNat, BitVec.setWidth_eq, ← cell] at holds

theorem info_mem_listed (b : Byte) : info b ∈ (Instruction.ofByte b).listed :=
  forall_info (p := fun b entry => entry ∈ (Instruction.ofByte b).listed) (by decide +kernel) b

theorem isUndefined_info (b : Byte) : (info b).isUndefined = decide (b = 0x68) :=
  forall_info (p := fun b entry => entry.isUndefined = decide (b = 0x68)) (by decide +kernel) b

-- One pass over the opcodes for all that is read off the decoding.
private theorem ofByte_shape : ∀ b : Byte,
    ((Instruction.ofByte b).register? = none ∨
      (Instruction.ofByte b).register? = some b.low) ∧
    (0x61 ≤ b ∧ b ≤ 0x67 → Instruction.ofByte b = .output (b.setWidth 3)) ∧
    (0x69 ≤ b ∧ b ≤ 0x6F → Instruction.ofByte b = .input (b.setWidth 3)) ∧
    (Instruction.ofByte b = .saveContext ↔ b = 0x78 ∨ b = 0x79) := by
  decide +kernel

theorem eq_low_of_register? {b : Byte} {n : Nibble}
    (names : (Instruction.ofByte b).register? = some n) : n = b.low := by
  rcases (ofByte_shape b).1 with none | some
  · rw [none] at names
    contradiction
  · rw [some] at names
    exact (Option.some.inj names).symm

theorem ofByte_of_output (b : Byte) :
    0x61 ≤ b ∧ b ≤ 0x67 → Instruction.ofByte b = .output (b.setWidth 3) :=
  (ofByte_shape b).2.1

theorem ofByte_of_input (b : Byte) :
    0x69 ≤ b ∧ b ≤ 0x6F → Instruction.ofByte b = .input (b.setWidth 3) :=
  (ofByte_shape b).2.2.1

theorem Instruction.ofByte_eq_saveContext_iff (b : Byte) :
    ofByte b = .saveContext ↔ b = 0x78 ∨ b = 0x79 :=
  (ofByte_shape b).2.2.2

end Cosmac.Isa
