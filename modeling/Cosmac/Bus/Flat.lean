import Cosmac.Bus.Basic

/-!
Flat memory: a cell of its own for each address, all of them writable. Images are copied in as one
block, and whole ranges can be read out. Main statement: a write changes what is read at its own
address and nowhere else.
-/

set_option autoImplicit false
set_option relaxedAutoImplicit false

namespace Cosmac.Bus

/-- One writable cell for each address. -/
structure Flat where
  cells : Bank 16 Byte
  deriving DecidableEq

namespace Flat

def zero : Flat := ⟨.fill 0⟩

/-- Copies an image into memory as one block. An image that would run past the last address is
refused, and the memory is left as it was. -/
def loadBlock (memory : Flat) (start : Word) (image : List Byte) : Outcome Unit Flat :=
  if fits : start.toNat + image.length ≤ addressCount then
    { result := .ok ()
      state := ⟨memory.cells.splice start.toNat image fits⟩
      log := [.loaded start image.length] }
  else
    .refuse (.imageTooLarge start image.length) memory

instance : Bus Flat where
  read memory := memory.cells.get
  write memory address byte := ⟨memory.cells.set address byte⟩
  load := loadBlock

theorem read_eq_get (memory : Flat) (address : Word) :
    read memory address = memory.cells.get address := rfl

theorem read_write (memory : Flat) (a b : Word) (byte : Byte) :
    read (write memory a byte) b = if a = b then byte else read memory b :=
  memory.cells.get_set a b byte

@[simp] theorem read_zero (address : Word) : read zero address = 0 :=
  Bank.get_fill 0 address

theorem ext_read {a b : Flat} (h : ∀ address, read a address = read b address) : a = b := by
  cases a with | mk a =>
  cases b with | mk b =>
  congr
  exact Bank.ext h

/-- Memory with an image from address zero on and zero after it. -/
def ofImage (image : List Byte) : Outcome Unit Flat :=
  zero.loadBlock 0 image

/-- Memory with the content of an image file from address zero on; `content` is what reading the
file gave. -/
def ofFile (path : String) (content : Except String (List Byte)) : Outcome Unit Flat :=
  match content with
  | .error reason => .refuse (.unreadable reason) zero
  | .ok image =>
      let loaded := ofImage image
      { loaded with log := .imageRead path image.length :: loaded.log }

/-- The bytes from address `start` up to but not including `stop`. -/
def slice (memory : Flat) (start stop : Nat) : List Byte :=
  (memory.cells.cells.toArray.extract start stop).toList

/-- The 256 bytes whose addresses have the given upper byte. -/
def page (memory : Flat) (number : Byte) : List Byte :=
  memory.slice (number.toNat * 256) (number.toNat * 256 + 256)

end Flat

end Cosmac.Bus
