import Cosmac.Machine.Step

/-!
Everything that can be done to a machine from outside, as data: setting its registers and inputs,
writing and loading memory, watching it and letting it execute.
-/

set_option autoImplicit false
set_option relaxedAutoImplicit false

namespace Cosmac

/-- An operation on a machine. Numbers of scratchpad registers are given as bytes, of which the
lower digit counts. -/
inductive Command
  | setRegister (number : Byte) (value : Word)
  | setP (number : Byte)
  | setX (number : Byte)
  | setD (value : Byte)
  | setB (value : Byte)
  | setT (value : Byte)
  | setBus (value : Byte)
  | setDf (level : Bool)
  | setIe (level : Bool)
  | setQ (level : Bool)
  | drive (flag : Flag) (active : Bool)
  | setCounter (address : Word)
  | writeAtCounter (value : Byte)
  | write (address : Word) (value : Byte)
  | load (start : Word) (image : List Byte)
  | reset
  | observe (on : Bool)
  | step
  | run (limit : Nat)
  deriving DecidableEq

def Command.loadImage (image : List Byte) : Command := .load 0 image

namespace Machine

variable {σ : Type} [Bus σ]

def configure (m : Machine σ) : Command → Machine σ
  | .setRegister number value => m.setRegister number.low value
  | .setP number => { m with p := number.low }
  | .setX number => { m with x := number.low }
  | .setD value => m.setD value
  | .setB value => { m with b := value }
  | .setT value => { m with t := value }
  | .setBus value => { m with bus := value }
  | .setDf level => { m with df := level }
  | .setIe level => { m with ie := level }
  | .setQ level => { m with q := level }
  | .drive flag active => m.drive flag active
  | .setCounter address => m.setCounter address
  | .writeAtCounter value => m.write m.counter value
  | .write address value => m.write address value
  | .reset => m.reset
  | .observe on => { m with observed := on }
  | .load .. | .step | .run _ => m

/-- Carries out a command. The result is the number of instructions that were completed. -/
def perform (m : Machine σ) : Command → Outcome Nat (Machine σ)
  | .load start image =>
      let loaded := m.load start image
      { loaded with result := loaded.result.map fun _ => 0 }
  | .step =>
      let stepped := m.step
      { stepped with result := stepped.result.map fun _ => 1 }
  | .run limit => m.run limit
  | command => .done 0 (m.configure command)

end Machine

end Cosmac
