import Cosmac.Outcome

/-!
The bus: what a memory has to offer the processor. Any type with a read and a write at every
address will do; nothing is assumed of how the two relate, so cells may be shared between
addresses, and writes may be ignored.
-/

set_option autoImplicit false
set_option relaxedAutoImplicit false

namespace Cosmac

def addressCount : Nat := 65536

namespace Bus

variable {σ : Type}

def writeEach (write : σ → Word → Byte → σ) (memory : σ) (address : Word) : List Byte → σ
  | [] => memory
  | byte :: rest => writeEach write (write memory address byte) (address + 1) rest

/-- Copies an image into memory byte by byte. An image that would run past the last address is
refused before anything is written. -/
def loadEach (write : σ → Word → Byte → σ) (memory : σ) (start : Word) (image : List Byte) :
    Outcome Unit σ :=
  if start.toNat + image.length ≤ addressCount then
    { result := .ok ()
      state := writeEach write memory start image
      log := [.loaded start image.length] }
  else
    .refuse (.imageTooLarge start image.length) memory

end Bus

/-- A memory as the processor sees it. A memory that can copy a whole block may replace the
bytewise `load`. -/
class Bus (σ : Type) where
  read : σ → Word → Byte
  write : σ → Word → Byte → σ
  load : σ → Word → List Byte → Outcome Unit σ := Bus.loadEach write

namespace Bus

variable {σ : Type} [Bus σ]

/-- The bytes at `count` consecutive addresses; after the last address comes address zero. -/
def readEach (memory : σ) (start : Word) (count : Nat) : List Byte :=
  (List.range count).map fun offset => read memory (start + BitVec.ofNat 16 offset)

end Bus

end Cosmac
