import Cosmac.Alu
import Cosmac.Bank
import Cosmac.Flag
import Cosmac.Isa.Instruction

/-!
The state of the processor: the registers that a program works on, and around them the lines and
counters that it shares with the environment. The program counter and the data pointer are not
registers of their own but the scratchpad registers that `P` and `X` select.
-/

set_option autoImplicit false
set_option relaxedAutoImplicit false

namespace Cosmac

/-- The registers that a program works on. -/
structure Registers where
  d : Byte
  /-- The data flag: carry, absence of borrow, or the bit that a shift moved out. -/
  df : Bool
  /-- An auxiliary byte that no instruction uses. -/
  b : Byte
  /-- The sixteen scratchpad registers. -/
  r : Bank 4 Word
  /-- Selects the program counter. -/
  p : Nibble
  /-- Selects the data pointer. -/
  x : Nibble
  /-- The lower digit of the last opcode. -/
  n : Nibble
  /-- The upper digit of the last opcode. -/
  i : Nibble
  /-- A byte kept for the saved `X` and `P`. -/
  t : Byte
  ie : Bool
  q : Bool
  deriving DecidableEq

/-- The registers together with what the environment drives and counts. -/
structure Processor extends Registers where
  ef : FlagLevels
  bus : Byte
  /-- The number of instructions completed, modulo `2 ^ 64`. -/
  count : BitVec 64
  /-- Whether an observer is told of every completed instruction. -/
  observed : Bool
  deriving DecidableEq

/-- What an observer is told: the instruction, and the registers and bus that it left. -/
structure Event where
  address : Word
  opcode : Byte
  registers : Registers
  bus : Byte
  deriving DecidableEq

namespace Registers

def counter (regs : Registers) : Word := regs.r.get regs.p

def pointer (regs : Registers) : Word := regs.r.get regs.x

def accumulator (regs : Registers) : Accumulator := ⟨regs.d, regs.df⟩

end Registers

namespace Processor

def blank : Processor where
  d := 0
  df := false
  b := 0
  r := .fill 0
  p := 0
  x := 0
  n := 0
  i := 0
  t := 0
  ie := false
  q := false
  ef := .inactive
  bus := 0
  count := 0
  observed := false

/-- The state from which execution restarts at address zero. Registers other than `R(0)`, the
accumulator and the external flags keep their values. -/
def reset (proc : Processor) : Processor :=
  { proc with
    i := 0, n := 0, q := false, ie := true, bus := 0, x := 0, p := 0
    r := proc.r.set 0 0 }

end Processor

open Isa in
def Isa.Condition.holds (proc : Processor) : Condition → Bool
  | .always => true
  | .q => proc.q
  | .accumulatorZero => proc.d == 0
  | .carry => proc.df
  | .flag f => proc.ef.level f
  | .interruptsEnabled => proc.ie

def Isa.Test.holds (proc : Processor) (test : Isa.Test) : Bool :=
  test.condition.holds proc != test.negated

end Cosmac
