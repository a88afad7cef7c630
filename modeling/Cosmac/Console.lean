import Cosmac.Bus.Flat
import Cosmac.Disassembly.Sweep
import Cosmac.Machine.Command

/-!
A console: a machine over flat memory for interactive use. Requests are answered with plain
values, faults with their wording, and every byte that an instruction sends to a device is handed
out with the answer.
-/

set_option autoImplicit false
set_option relaxedAutoImplicit false

namespace Cosmac

open Bus (Flat)

/-- The device and the byte, if the event is of an instruction that sends one. -/
def Event.output? (event : Event) : Option (BitVec 3 × Byte) :=
  if 0x61 ≤ event.opcode ∧ event.opcode ≤ 0x67 then
    some (event.opcode.setWidth 3, event.bus)
  else
    none

/-- A watched machine over flat memory. -/
structure Console where
  machine : Machine Flat

namespace Console

def new : Console :=
  ⟨{ Machine.new Flat.zero with observed := true }⟩

inductive Request
  | loadImage (image : List Byte)
  | step
  | run (limit : Nat)
  | reset
  | register (number : Byte)
  | drive (flagNumber : Byte) (active : Bool)
  | setBus (value : Byte)
  | readByte (address : Word)
  | writeByte (address : Word) (value : Byte)
  | readPage (number : Byte)
  deriving DecidableEq

inductive Reply
  | done
  | number (value : Nat)
  | bytes (content : List Byte)
  deriving DecidableEq

/-- An answer or the wording of a fault, the console that is left, and the bytes sent to devices
on the way. -/
structure Response where
  reply : Except String Reply
  console : Console
  outputs : List (BitVec 3 × Byte) := []

def answer (console : Console) (reply : Reply) : Response :=
  { reply := .ok reply, console }

def replace (machine : Machine Flat) : Response :=
  { reply := .ok .done, console := ⟨machine⟩ }

/-- The response that tells the outcome of an operation on the machine. -/
def report {α : Type} (outcome : Outcome α (Machine Flat)) (reply : α → Reply) : Response where
  reply := match outcome.result with
    | .ok value => .ok (reply value)
    | .error fault => .error fault.message
  console := ⟨outcome.state⟩
  outputs := outcome.events.filterMap Event.output?

def perform (console : Console) : Request → Response
  | .loadImage image => report (console.machine.load 0 image) fun _ => .done
  | .step => report console.machine.step fun _ => .done
  | .run limit => report (console.machine.run limit) .number
  | .reset => replace console.machine.reset
  | .register number => console.answer (.number (console.machine.register number.low).toNat)
  | .drive flagNumber active =>
      match Flag.ofNumber? flagNumber with
      | some flag => replace (console.machine.drive flag active)
      | none => { reply := .error (Fault.noSuchFlag flagNumber).message, console }
  | .setBus value => replace { console.machine with bus := value }
  | .readByte address => console.answer (.number (console.machine.read address).toNat)
  | .writeByte address value => replace (console.machine.write address value)
  | .readPage number => console.answer (.bytes (console.machine.memory.page number))

structure Line where
  address : Word
  bytes : List Byte
  text : String
  deriving DecidableEq

/-- The lines of the first `limit` instructions in memory from `start` on. -/
def disassemble (console : Console) (start : Word) (limit : Nat) : List Line :=
  let (first, stop) := Disassembly.window start limit
  ((Disassembly.sweep start (console.machine.memory.slice first stop)).take limit).map fun entry =>
    { address := entry.address, bytes := entry.bytes, text := entry.text }

end Console

end Cosmac
