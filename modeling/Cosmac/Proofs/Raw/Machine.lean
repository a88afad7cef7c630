import Cosmac.Bus.Flat
import Cosmac.Bus.Folded
import Cosmac.Machine.Command
import Cosmac.Proofs.Raw.Cells

/-!
The machine on plain bytes and arrays. A selector is a byte here, and nothing but what instructions
and settings do to it keeps it below sixteen; registers, flags, memory and the opcode map are arrays
that are asked for a position. Each operation answers `none` if a position is not there.
-/

set_option autoImplicit false
set_option relaxedAutoImplicit false

namespace Cosmac

open Isa

namespace Bus

variable {σ : Type}

def writeEach? (write? : σ → Word → Byte → Option σ) (memory : σ) (address : Word) :
    List Byte → Option σ
  | [] => some memory
  | byte :: rest => do
    let written ← write? memory address byte
    writeEach? write? written (address + 1) rest

def loadEach? (write? : σ → Word → Byte → Option σ) (memory : σ) (start : Word)
    (image : List Byte) : Option (Except Fault Unit × σ) :=
  if start.toNat + image.length ≤ addressCount then do
    return (.ok (), ← writeEach? write? memory start image)
  else
    some (.error (.imageTooLarge start image.length), memory)

end Bus

class Cells (σ : Type) where
  read? : σ → Word → Option Byte
  write? : σ → Word → Byte → Option σ
  load? : σ → Word → List Byte → Option (Except Fault Unit × σ) := Bus.loadEach? write?

/-- A memory that misses no access and does what the bus has it do. -/
class LawfulCells (σ : Type) [Bus σ] [Cells σ] : Prop where
  read? (memory : σ) (address : Word) :
    Cells.read? memory address = some (Bus.read memory address)
  write? (memory : σ) (address : Word) (value : Byte) :
    Cells.write? memory address value = some (Bus.write memory address value)
  load? (memory : σ) (start : Word) (image : List Byte) :
    Cells.load? memory start image =
      some ((Bus.load memory start image).result, (Bus.load memory start image).state)

namespace Bus

instance : Cells Flat where
  read? memory address := memory.cells.at? address.toNat
  write? memory address value := (memory.cells.put? address.toNat value).map Flat.mk
  load? memory start image :=
    let stop := start.toNat + image.length
    if stop ≤ addressCount then do
      return (.ok (), ⟨← memory.cells.copy? start.toNat stop image⟩)
    else
      some (.error (.imageTooLarge start image.length), memory)

instance : Cells Folded where
  read? memory address := memory.cells[address.toNat % memory.cells.size]?
  write? memory address value :=
    if inside : address.toNat % memory.cells.size < memory.cells.size then
      some
        { cells := memory.cells.set (address.toNat % memory.cells.size) value inside
          nonempty := by
            rw [Array.size_set]
            exact memory.nonempty }
    else
      none

end Bus

/-- The machine with selectors and digits as bytes and the external flags as an array. -/
structure Raw (σ : Type) where
  d : Byte
  df : Bool
  b : Byte
  r : Bank 4 Word
  p : Byte
  x : Byte
  n : Byte
  i : Byte
  t : Byte
  ie : Bool
  q : Bool
  ef : Bank 2 Bool
  bus : Byte
  count : BitVec 64
  observed : Bool
  memory : σ

namespace Raw

variable {σ : Type}

def cell? (m : Raw σ) (k : Byte) : Option Word := m.r.at? k.toNat

def setCell? (m : Raw σ) (k : Byte) (value : Word) : Option (Raw σ) := do
  return { m with r := ← m.r.put? k.toNat value }

def advance? (m : Raw σ) (k : Byte) (places : Word) : Option (Raw σ) := do
  m.setCell? k ((← m.cell? k) + places)

def retreat? (m : Raw σ) (k : Byte) : Option (Raw σ) := do
  m.setCell? k ((← m.cell? k) - 1)

def level? (m : Raw σ) (flag : Flag) : Option Bool := m.ef.at? flag.index

def drive? (m : Raw σ) (flag : Flag) (active : Bool) : Option (Raw σ) := do
  return { m with ef := ← m.ef.put? flag.index active }

def ask? (m : Raw σ) (number : Byte) (flag : Flag) : Option (Word × Word × Word × Bool) := do
  return (← m.cell? m.p, ← m.cell? m.x, ← m.cell? (number &&& 0x0F), ← m.level? flag)

def reset? (m : Raw σ) : Option (Raw σ) :=
  { m with i := 0, n := 0, q := false, ie := true, bus := 0, x := 0, p := 0 }.setCell? 0 0

def new? (memory : σ) : Option (Raw σ) :=
  reset?
    { d := 0, df := false, b := 0, r := .fill 0, p := 0, x := 0, n := 0, i := 0, t := 0,
      ie := false, q := false, ef := .fill false, bus := 0, count := 0, observed := false, memory }

def accumulator (m : Raw σ) : Accumulator := ⟨m.d, m.df⟩

def setAccumulator (m : Raw σ) (acc : Accumulator) : Raw σ := { m with d := acc.d, df := acc.df }

def holds? (m : Raw σ) (test : Test) : Option Bool := do
  let level ← match test.condition with
    | .always => some true
    | .q => some m.q
    | .accumulatorZero => some (m.d == 0)
    | .carry => some m.df
    | .flag flag => m.level? flag
    | .interruptsEnabled => some m.ie
  return level != test.negated

variable [Cells σ]

def peek? (m : Raw σ) (k : Byte) : Option Byte := do
  Cells.read? m.memory (← m.cell? k)

def poke? (m : Raw σ) (k : Byte) (value : Byte) : Option (Raw σ) := do
  return { m with memory := ← Cells.write? m.memory (← m.cell? k) value }

def loadD? (m : Raw σ) (k : Byte) : Option (Raw σ) := do
  return { m with d := ← m.peek? k }

def branch? (test : Test) (m : Raw σ) : Option (Raw σ) := do
  if ← m.holds? test then
    let low ← m.peek? m.p
    m.setCell? m.p ((← m.cell? m.p).withLow low)
  else
    m.advance? m.p 1

def longBranch? (test : Test) (m : Raw σ) : Option (Raw σ) := do
  if ← m.holds? test then
    let high ← m.peek? m.p
    let m ← m.advance? m.p 1
    m.setCell? m.p (.ofBytes high (← m.peek? m.p))
  else
    m.advance? m.p 2

def longSkip? (test : Test) (m : Raw σ) : Option (Raw σ) := do
  if ← m.holds? test then m.advance? m.p 2 else some m

def compute? (op : Alu.Operation) (source : Source) (m : Raw σ) : Option (Raw σ) := do
  match source with
  | .pointer => return m.setAccumulator (op.apply m.accumulator (← m.peek? m.x))
  | .immediate =>
    let operand ← m.peek? m.p
    let m ← m.advance? m.p 1
    return m.setAccumulator (op.apply m.accumulator operand)

def restore? (enable : Bool) (m : Raw σ) : Option (Raw σ) := do
  let saved ← m.peek? m.x
  let m ← m.advance? m.x 1
  return { m with x := saved >>> 4, p := saved &&& 0x0F, ie := enable }

/-- Executes an instruction. The register that it names is the one in the latch `N`. -/
def execute? (m : Raw σ) : Instruction → Option (Raw σ)
  | .idle => m.retreat? m.p
  | .load _ => m.loadD? m.n
  | .loadAdvance _ => do (← m.loadD? m.n).advance? m.n 1
  | .store _ => m.poke? m.n m.d
  | .popAdvance => do (← m.loadD? m.x).advance? m.x 1
  | .pushRetreat => do (← m.poke? m.x m.d).retreat? m.x
  | .increment _ => m.advance? m.n 1
  | .decrement _ => m.retreat? m.n
  | .advancePointer => m.advance? m.x 1
  | .branch test => m.branch? test
  | .longBranch test => m.longBranch? test
  | .longSkip test => m.longSkip? test
  | .output _ => do
    let sent ← m.peek? m.x
    advance? { m with bus := sent } m.x 1
  | .input _ => do
    let stored ← m.poke? m.x m.bus
    return { stored with d := m.bus }
  | .restore enable => m.restore? enable
  | .setQ level => some { m with q := level }
  | .compute op source => m.compute? op source
  | .shift direction ring => some (m.setAccumulator (Alu.shift direction ring m.accumulator))
  | .getLow _ => do return { m with d := (← m.cell? m.n).lowByte }
  | .getHigh _ => do return { m with d := (← m.cell? m.n).highByte }
  | .putLow _ => do m.setCell? m.n ((← m.cell? m.n).withLow m.d)
  | .putHigh _ => do m.setCell? m.n ((← m.cell? m.n).withHigh m.d)
  | .selectCounter _ => some { m with p := m.n }
  | .selectPointer _ => some { m with x := m.n }
  | .pass => some m
  | .saveContext => some m

/-- Executes the instruction at the program counter. The digits of the opcode are latched, and its
line of the map is looked up, whatever it is; a refusal looks at the counter once more. -/
def step? (m : Raw σ) : Option (Except Fault Unit × Raw σ) := do
  let opcode ← m.peek? m.p
  let moved ← m.advance? m.p 1
  let latched := { moved with i := opcode >>> 4, n := opcode &&& 0x0F }
  let entry ← Isa.table.at? opcode.toNat
  if Instruction.ofByte opcode = .saveContext then
    let _ ← latched.cell? latched.p
    return (.error (.unsupported opcode entry.mnemonic), latched)
  else
    let after ← latched.execute? (Instruction.ofByte opcode)
    return (.ok (), { after with count := after.count + 1 })

def runFrom? (completed : Nat) (m : Raw σ) : Nat → Option (Except Fault Nat × Raw σ)
  | 0 => some (.ok completed, m)
  | remaining + 1 => do
    match ← m.step? with
    | (.ok (), after) => runFrom? (completed + 1) after remaining
    | (.error fault, after) => return (.error fault, after)

def load? (m : Raw σ) (start : Word) (image : List Byte) :
    Option (Except Fault Unit × Raw σ) := do
  let (result, memory) ← Cells.load? m.memory start image
  return (result, { m with memory })

def configure? (m : Raw σ) : Command → Option (Raw σ)
  | .setRegister number value => m.setCell? (number &&& 0x0F) value
  | .setP number => some { m with p := number &&& 0x0F }
  | .setX number => some { m with x := number &&& 0x0F }
  | .setD value => some { m with d := value }
  | .setB value => some { m with b := value }
  | .setT value => some { m with t := value }
  | .setBus value => some { m with bus := value }
  | .setDf level => some { m with df := level }
  | .setIe level => some { m with ie := level }
  | .setQ level => some { m with q := level }
  | .drive flag active => m.drive? flag active
  | .setCounter address => m.setCell? m.p address
  | .writeAtCounter value => m.poke? m.p value
  | .write address value => do
    return { m with memory := ← Cells.write? m.memory address value }
  | .reset => m.reset?
  | .observe on => some { m with observed := on }
  | .load .. | .step | .run _ => some m

def perform? (m : Raw σ) : Command → Option (Except Fault Nat × Raw σ)
  | .load start image => do
    let (result, after) ← m.load? start image
    return (result.map fun _ => 0, after)
  | .step => do
    let (result, after) ← m.step?
    return (result.map fun _ => 1, after)
  | .run limit => m.runFrom? 0 limit
  | command => do return (.ok 0, ← m.configure? command)

def session? (m : Raw σ) : List Command → Option (List (Except Fault Nat × Raw σ))
  | [] => some []
  | command :: rest => do
    let first ← m.perform? command
    return first :: (← first.2.session? rest)

end Raw

end Cosmac
