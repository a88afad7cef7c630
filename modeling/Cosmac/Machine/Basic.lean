import Cosmac.Bus.Basic

/-!
The machine: a processor and the memory on its bus. This module holds the accesses that
instructions are made of: a register is stepped, or a cell reached through the program counter,
the data pointer or a numbered register.
-/

set_option autoImplicit false
set_option relaxedAutoImplicit false

namespace Cosmac

/-- A processor with a memory on its bus. -/
structure Machine (σ : Type) extends Processor where
  memory : σ
  deriving DecidableEq

namespace Machine

variable {σ : Type}

/-- Restarts execution at address zero; memory keeps its content. -/
def reset (m : Machine σ) : Machine σ :=
  { m with toProcessor := m.toProcessor.reset }

def new (memory : σ) : Machine σ :=
  ({ Processor.blank with memory } : Machine σ).reset

def register (m : Machine σ) (k : Nibble) : Word := m.r.get k

def setRegister (m : Machine σ) (k : Nibble) (value : Word) : Machine σ :=
  { m with r := m.r.set k value }

/-- Steps a scratchpad register on by some places; the last address is followed by the first. -/
def advance (m : Machine σ) (k : Nibble) (places : Word) : Machine σ :=
  m.setRegister k (m.register k + places)

def retreat (m : Machine σ) (k : Nibble) : Machine σ :=
  m.setRegister k (m.register k - 1)

def setCounter (m : Machine σ) (address : Word) : Machine σ :=
  m.setRegister m.p address

def setAccumulator (m : Machine σ) (acc : Accumulator) : Machine σ :=
  { m with d := acc.d, df := acc.df }

def setD (m : Machine σ) (value : Byte) : Machine σ :=
  { m with d := value }

def drive (m : Machine σ) (flag : Flag) (active : Bool) : Machine σ :=
  { m with ef := m.ef.drive flag active }

variable [Bus σ]

def read (m : Machine σ) (address : Word) : Byte :=
  Bus.read m.memory address

def write (m : Machine σ) (address : Word) (value : Byte) : Machine σ :=
  { m with memory := Bus.write m.memory address value }

def atCounter (m : Machine σ) : Byte := m.read m.counter

def atPointer (m : Machine σ) : Byte := m.read m.pointer

/-- Copies an image into memory. An observer is told of instructions only, not of this. -/
def load (m : Machine σ) (start : Word) (image : List Byte) : Outcome Unit (Machine σ) :=
  let loaded := Bus.load m.memory start image
  { result := loaded.result
    state := { m with memory := loaded.state }
    log := loaded.log }

end Machine

end Cosmac
