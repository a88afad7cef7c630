import Cosmac.Word

/-!
Arithmetic and logic on the accumulator. `D` and `DF` together are nine bits: an addition leaves
its nine-bit sum there, a subtraction adds the complement, so that `DF` set means no borrow, and
a shift moves one bit between the two. Main statements: a sum of two bytes and a carry is exact as
a nine-bit number, and adding a complement is exact subtraction.
-/

set_option autoImplicit false
set_option relaxedAutoImplicit false

namespace Cosmac

/-- The data register with the data flag above it. -/
structure Accumulator where
  d : Byte
  df : Bool
  deriving DecidableEq

def Accumulator.toNat (acc : Accumulator) : Nat :=
  acc.d.toNat + 256 * acc.df.toNat

namespace Alu

/-- What an operand byte is combined with the accumulator for. The two subtractions differ in
the side of the accumulator; `chained` takes the carry or borrow of the step before from `DF`. -/
inductive Operation
  | load
  | or
  | and
  | xor
  | add (chained : Bool)
  | subtractOperand (chained : Bool)
  | subtractAccumulator (chained : Bool)
  deriving DecidableEq

def sum (a b : Byte) (carry : Bool) : Accumulator :=
  let total := a.toNat + b.toNat + carry.toNat
  ⟨BitVec.ofNat 8 total, decide (255 < total)⟩

theorem toNat_sum (a b : Byte) (carry : Bool) :
    (sum a b carry).toNat = a.toNat + b.toNat + carry.toNat := by
  have ha := a.isLt
  have hb := b.isLt
  have hc := carry.toNat_le
  by_cases wide : 255 < a.toNat + b.toNat + carry.toNat
  · simp only [Accumulator.toNat, sum, BitVec.toNat_ofNat, wide, decide_true, Bool.toNat_true]
    omega
  · simp only [Accumulator.toNat, sum, BitVec.toNat_ofNat, wide, decide_false, Bool.toNat_false]
    omega

/-- Adding the complement subtracts: the difference, less one without a carry, plus 256. -/
theorem toNat_sum_not (a b : Byte) (carry : Bool) :
    (sum a (~~~b) carry).toNat + b.toNat + 1 = a.toNat + 256 + carry.toNat := by
  have hb := b.isLt
  rw [toNat_sum, BitVec.toNat_not]
  omega

def Operation.apply (op : Operation) (acc : Accumulator) (operand : Byte) : Accumulator :=
  match op with
  | .load => { acc with d := operand }
  | .or => { acc with d := acc.d ||| operand }
  | .and => { acc with d := acc.d &&& operand }
  | .xor => { acc with d := acc.d ^^^ operand }
  | .add chained => sum acc.d operand (chained && acc.df)
  | .subtractOperand chained => sum acc.d (~~~operand) (!chained || acc.df)
  | .subtractAccumulator chained => sum operand (~~~acc.d) (!chained || acc.df)

inductive Direction
  | left
  | right
  deriving DecidableEq

/-- Moves `D` by one bit. The bit that leaves goes to `DF`; the place that falls free takes the
old `DF` in a ring shift and zero otherwise. -/
def shift (direction : Direction) (ring : Bool) (acc : Accumulator) : Accumulator :=
  let entering := ring && acc.df
  match direction with
  | .left => ⟨(acc.d.setWidth 7).concat entering, acc.d.msb⟩
  | .right => ⟨(acc.d.extractLsb' 1 7).cons entering, acc.d.getLsbD 0⟩

end Alu

end Cosmac
