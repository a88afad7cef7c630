import Cosmac.Alu
import Mathlib.Data.Nat.Digits.Defs
import Mathlib.Tactic.LinearCombination

/-!
Arithmetic on numbers of several bytes, the lowest byte first. The first pair of bytes is combined
by a plain operation and each later pair by the chained one, which takes the carry or the absence
of a borrow from the pair before. Main statement: the bytes of the results are those of the exact
sum or difference modulo a power of 256, and the last carry tells whether it was exceeded.
-/

set_option autoImplicit false
set_option relaxedAutoImplicit false

namespace Cosmac.Alu

/-- The number with the given bytes, the lowest first. -/
def littleEndian (bytes : List Byte) : Nat :=
  Nat.ofDigits 256 (bytes.map BitVec.toNat)

@[simp] theorem littleEndian_nil : littleEndian [] = 0 := rfl

@[simp] theorem littleEndian_cons (byte : Byte) (bytes : List Byte) :
    littleEndian (byte :: bytes) = byte.toNat + 256 * littleEndian bytes :=
  Nat.ofDigits_cons

private theorem lt_of_mem_map_toNat (bytes : List Byte) :
    ∀ digit ∈ bytes.map BitVec.toNat, digit < 256 := by
  intro digit member
  obtain ⟨byte, -, rfl⟩ := List.mem_map.mp member
  exact byte.isLt

theorem littleEndian_lt (bytes : List Byte) : littleEndian bytes < 256 ^ bytes.length := by
  have bound := Nat.ofDigits_lt_base_pow_length (by decide : 1 < 256) (lt_of_mem_map_toNat bytes)
  rwa [List.length_map] at bound

theorem littleEndian_div_mod (bytes : List Byte) (i : Nat) (inside : i < bytes.length) :
    littleEndian bytes / 256 ^ i % 256 = bytes[i].toNat := by
  have dropped := Nat.ofDigits_div_pow_eq_ofDigits_drop i (by decide : 0 < 256) _
    (lt_of_mem_map_toNat bytes)
  rw [littleEndian, dropped, ← List.map_drop, List.drop_eq_getElem_cons inside, List.map_cons,
    Nat.ofDigits_cons]
  have := bytes[i].isLt
  omega

/-- The bytes and the last `DF` of operations one after the other. Each takes over the `DF` of the
one before it; the first is `chained` or plain. -/
def chain {α : Type} (apply : Bool → α → Bool → Accumulator) (chained df : Bool) :
    List α → List Byte × Bool
  | [] => ([], df)
  | x :: rest =>
    let acc := apply chained x df
    let further := chain apply true acc.df rest
    (acc.d :: further.1, further.2)

theorem length_chain {α : Type} (apply : Bool → α → Bool → Accumulator) (chained df : Bool)
    (xs : List α) : (chain apply chained df xs).1.length = xs.length := by
  induction xs generalizing chained df with
  | nil => rfl
  | cons x rest ih => exact congrArg (· + 1) (ih true _)

/-- The operations with a carry or a borrow. The two subtractions differ in the side of the
accumulator, which holds the first of two operands. -/
inductive Arithmetic
  | add
  | subtractOperand
  | subtractAccumulator
  deriving DecidableEq

namespace Arithmetic

def operation : Arithmetic → Bool → Operation
  | .add => .add
  | .subtractOperand => .subtractOperand
  | .subtractAccumulator => .subtractAccumulator

def exact (u v : Nat) : Arithmetic → Int
  | .add => u + v
  | .subtractOperand => u - v
  | .subtractAccumulator => v - u

/-- Whether a result on `k` bytes leaves `DF` set: a sum that needs more bytes does, and a
difference that is not negative. -/
def Sets (k u v : Nat) : Arithmetic → Prop
  | .add => 256 ^ k ≤ u + v
  | .subtractOperand => v ≤ u
  | .subtractAccumulator => u ≤ v

instance (k u v : Nat) (op : Arithmetic) : Decidable (op.Sets k u v) :=
  match op with
  | .add => inferInstanceAs (Decidable (256 ^ k ≤ u + v))
  | .subtractOperand => inferInstanceAs (Decidable (v ≤ u))
  | .subtractAccumulator => inferInstanceAs (Decidable (u ≤ v))

/-- What stands for nothing carried and nothing borrowed. -/
def idle : Arithmetic → Bool
  | .add => false
  | .subtractOperand | .subtractAccumulator => true

private theorem apply_plain (op : Arithmetic) (u v : Byte) (df : Bool) :
    (op.operation false).apply ⟨u, df⟩ v = (op.operation true).apply ⟨u, op.idle⟩ v := by
  cases op <;> rfl

private theorem toNat_apply (op : Arithmetic) (u v : Byte) (df : Bool) :
    (((op.operation true).apply ⟨u, df⟩ v).toNat : Int) =
      op.exact u.toNat v.toNat + 255 * op.idle.toNat + df.toNat := by
  cases op with
  | add =>
    have sum := toNat_sum u v df
    simp only [operation, Operation.apply, exact, idle, Bool.true_and, Bool.toNat_false] at sum ⊢
    omega
  | subtractOperand =>
    have difference := toNat_sum_not u v df
    simp only [operation, Operation.apply, exact, idle, Bool.not_true, Bool.false_or,
      Bool.toNat_true] at difference ⊢
    omega
  | subtractAccumulator =>
    have difference := toNat_sum_not v u df
    simp only [operation, Operation.apply, exact, idle, Bool.not_true, Bool.false_or,
      Bool.toNat_true] at difference ⊢
    omega

def chain (op : Arithmetic) : Bool → Bool → List (Byte × Byte) → List Byte × Bool :=
  Alu.chain fun chained operands df => (op.operation chained).apply ⟨operands.1, df⟩ operands.2

def total (op : Arithmetic) (operands : List (Byte × Byte)) : Int :=
  op.exact (littleEndian (operands.map Prod.fst)) (littleEndian (operands.map Prod.snd))

private theorem total_nil (op : Arithmetic) : op.total [] = 0 := by
  cases op <;> rfl

private theorem total_cons (op : Arithmetic) (u v : Byte) (operands : List (Byte × Byte)) :
    op.total ((u, v) :: operands) = op.exact u.toNat v.toNat + 256 * op.total operands := by
  cases op <;> simp only [total, exact, List.map_cons, littleEndian_cons] <;> omega

private theorem littleEndian_chain (op : Arithmetic) (df : Bool) (operands : List (Byte × Byte)) :
    (littleEndian (op.chain true df operands).1 : Int) +
        256 ^ operands.length * (op.chain true df operands).2.toNat =
      op.total operands + (256 ^ operands.length - 1) * op.idle.toNat + df.toNat := by
  -- On the pairs: the carry that the lowest pair leaves is the one that the higher pairs take over.
  induction operands generalizing df with
  | nil => simp [chain, Alu.chain, total_nil]
  | cons pair operands ih =>
    obtain ⟨u, v⟩ := pair
    have lowest := op.toNat_apply u v df
    have higher := ih ((op.operation true).apply ⟨u, df⟩ v).df
    simp only [Accumulator.toNat] at lowest
    rw [total_cons]
    simp only [chain, Alu.chain, littleEndian_cons, List.length_cons] at higher ⊢
    push_cast at lowest higher ⊢
    linear_combination lowest + 256 * higher

theorem chain_exact (op : Arithmetic) (df : Bool) {operands : List (Byte × Byte)}
    (nonempty : operands ≠ []) :
    (littleEndian (op.chain false df operands).1 : Int) =
        op.total operands % 256 ^ operands.length ∧
      ((op.chain false df operands).2 = true ↔
        op.Sets operands.length (littleEndian (operands.map Prod.fst))
          (littleEndian (operands.map Prod.snd))) := by
  have first : op.chain false df operands = op.chain true op.idle operands := by
    obtain ⟨⟨u, v⟩, rest, rfl⟩ := List.exists_cons_of_ne_nil nonempty
    simp only [chain, Alu.chain, apply_plain]
  have exactly := op.littleEndian_chain op.idle operands
  have bound := littleEndian_lt (op.chain true op.idle operands).1
  have length : (op.chain true op.idle operands).1.length = operands.length := length_chain ..
  rw [length] at bound
  rw [first]
  generalize (op.chain true op.idle operands).1 = bytes at exactly bound ⊢
  generalize (op.chain true op.idle operands).2 = df at exactly ⊢
  constructor
  · have split : op.total operands =
        littleEndian bytes + 256 ^ operands.length * ((df.toNat : Int) - op.idle.toNat) := by
      linear_combination -exactly
    rw [split, Int.add_mul_emod_self_left, Int.emod_eq_of_lt]
    · exact Int.natCast_nonneg _
    · exact_mod_cast bound
  · unfold total at exactly
    generalize littleEndian (operands.map Prod.fst) = u at exactly ⊢
    generalize littleEndian (operands.map Prod.snd) = v at exactly ⊢
    have power : (256 ^ operands.length : Int) = (256 ^ operands.length : Nat) := by
      norm_cast
    rw [power] at exactly
    -- What is above the bytes is one bit: it is set or not, and the bytes are below the power.
    cases op <;> cases df <;>
      simp only [exact, Sets, idle, Bool.toNat_true, Bool.toNat_false, Bool.false_eq_true,
        false_iff, true_iff] at exactly ⊢ <;> omega

end Arithmetic

end Cosmac.Alu
