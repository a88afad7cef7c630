import Cosmac.Word

/-!
The four external flags EF1 to EF4: inputs that the environment drives and only the branches
named after them test.
-/

set_option autoImplicit false
set_option relaxedAutoImplicit false

namespace Cosmac

inductive Flag
  | ef1
  | ef2
  | ef3
  | ef4
  deriving DecidableEq

/-- The flag with the given number, counted from one. -/
def Flag.ofNumber? (number : Byte) : Option Flag :=
  match number.toNat with
  | 1 => some .ef1
  | 2 => some .ef2
  | 3 => some .ef3
  | 4 => some .ef4
  | _ => none

/-- The level that the environment drives on each flag. -/
structure FlagLevels where
  ef1 : Bool
  ef2 : Bool
  ef3 : Bool
  ef4 : Bool
  deriving DecidableEq

namespace FlagLevels

def inactive : FlagLevels := ⟨false, false, false, false⟩

def level (levels : FlagLevels) : Flag → Bool
  | .ef1 => levels.ef1
  | .ef2 => levels.ef2
  | .ef3 => levels.ef3
  | .ef4 => levels.ef4

def drive (levels : FlagLevels) (flag : Flag) (active : Bool) : FlagLevels :=
  match flag with
  | .ef1 => { levels with ef1 := active }
  | .ef2 => { levels with ef2 := active }
  | .ef3 => { levels with ef3 := active }
  | .ef4 => { levels with ef4 := active }

theorem level_drive (levels : FlagLevels) (f g : Flag) (active : Bool) :
    (levels.drive f active).level g = if g = f then active else levels.level g := by
  cases f <;> cases g <;> rfl

theorem ext_level {a b : FlagLevels} (h : ∀ f, a.level f = b.level f) : a = b := by
  cases a with | mk a1 a2 a3 a4 =>
  cases b with | mk b1 b2 b3 b4 =>
  obtain rfl : a1 = b1 := h .ef1
  obtain rfl : a2 = b2 := h .ef2
  obtain rfl : a3 = b3 := h .ef3
  obtain rfl : a4 = b4 := h .ef4
  rfl

end FlagLevels

end Cosmac
