import Cosmac.Machine.Basic

/-!
What each instruction does to a machine whose program counter has already moved past the opcode.
An instruction that reads operand bytes finds them at the program counter and moves it past them.
-/

set_option autoImplicit false
set_option relaxedAutoImplicit false

namespace Cosmac.Machine

open Isa

variable {σ : Type} [Bus σ]

/-- Goes to the offset in the operand byte, within the page of that byte, if the test succeeds;
steps over the byte otherwise. -/
def branch (test : Test) (m : Machine σ) : Machine σ :=
  if test.holds m.toProcessor then
    m.setCounter (m.counter.withLow m.atCounter)
  else
    m.advance m.p 1

/-- Goes to the address in the two operand bytes, upper byte first, if the test succeeds; steps
over both otherwise. -/
def longBranch (test : Test) (m : Machine σ) : Machine σ :=
  if test.holds m.toProcessor then
    m.setCounter (.ofBytes m.atCounter (m.read (m.counter + 1)))
  else
    m.advance m.p 2

/-- Steps over two bytes, whatever they hold, if the test succeeds. -/
def longSkip (test : Test) (m : Machine σ) : Machine σ :=
  if test.holds m.toProcessor then m.advance m.p 2 else m

def compute (op : Alu.Operation) (source : Source) (m : Machine σ) : Machine σ :=
  match source with
  | .pointer => m.setAccumulator (op.apply m.accumulator m.atPointer)
  | .immediate => (m.advance m.p 1).setAccumulator (op.apply m.accumulator m.atCounter)

/-- Takes `X` and `P` from the byte at the data pointer, which is stepped on first. -/
def restore (enable : Bool) (m : Machine σ) : Machine σ :=
  let saved := m.atPointer
  { m.advance m.x 1 with x := saved.high, p := saved.low, ie := enable }

/-- The machine after an instruction. Saving context, which no step lets through, leaves it
alone. -/
def execute (m : Machine σ) : Instruction → Machine σ
  | .idle => m.retreat m.p
  | .load n => m.setD (m.read (m.register n))
  | .loadAdvance n => (m.setD (m.read (m.register n))).advance n 1
  | .store n => m.write (m.register n) m.d
  | .popAdvance => (m.setD m.atPointer).advance m.x 1
  | .pushRetreat => (m.write m.pointer m.d).retreat m.x
  | .increment n => m.advance n 1
  | .decrement n => m.retreat n
  | .advancePointer => m.advance m.x 1
  | .branch test => m.branch test
  | .longBranch test => m.longBranch test
  | .longSkip test => m.longSkip test
  | .output _ => { m with bus := m.atPointer }.advance m.x 1
  | .input _ => (m.write m.pointer m.bus).setD m.bus
  | .restore enable => m.restore enable
  | .setQ level => { m with q := level }
  | .compute op source => m.compute op source
  | .shift direction ring => m.setAccumulator (Alu.shift direction ring m.accumulator)
  | .getLow n => m.setD (m.register n).lowByte
  | .getHigh n => m.setD (m.register n).highByte
  | .putLow n => m.setRegister n ((m.register n).withLow m.d)
  | .putHigh n => m.setRegister n ((m.register n).withHigh m.d)
  | .selectCounter n => { m with p := n }
  | .selectPointer n => { m with x := n }
  | .pass => m
  | .saveContext => m

end Cosmac.Machine
