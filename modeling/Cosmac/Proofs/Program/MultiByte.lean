import Cosmac.Proofs.Program.Row

/-!
Programs for arithmetic on numbers of any number of bytes. A program loads the first byte of each
pair, the lowest pair first, combines it with the second and pushes the result, plainly for the
first pair and with the carry for each later one. Main statement: what it leaves in memory and in
`DF` is the exact sum or difference.
-/

set_option autoImplicit false
set_option relaxedAutoImplicit false

namespace Cosmac

open Program

namespace Alu.Arithmetic

def row (op : Arithmetic) : Row (Byte × Byte) where
  loaded := Prod.fst
  item chained operands := .immediate (op.operation chained) operands.2
  size := 5
  length_bytes _ _ := rfl
  quiet _ _ := nofun

def program (op : Arithmetic) : Bool → List (Byte × Byte) → List Item := op.row.program

end Alu.Arithmetic

namespace Machine

open Alu

/-- Multi-byte arithmetic is exact: the program for it completes and leaves the bytes of the exact
result, one below the other, and `DF` as the whole numbers set it, and changes nothing else. -/
theorem run_arithmetic_exact (op : Arithmetic) (operands : List (Byte × Byte))
    {m : Machine Bus.Flat} {p x : Nibble} {start top : Word} (nonempty : operands ≠ [])
    (holds : Bus.readEach m.memory start (5 * operands.length) =
      code (op.program false operands))
    (selected : m.p = p) (counter : m.register p = start)
    (pointing : m.x = x) (pointer : m.register x = top) (apart : x ≠ p)
    (clear : ∀ i < operands.length, ∀ offset < 5 * operands.length,
      top - .ofNat 16 i ≠ start + .ofNat 16 offset) :
    let k := operands.length
    let u := littleEndian (operands.map Prod.fst)
    let v := littleEndian (operands.map Prod.snd)
    let outcome := m.run (3 * k)
    outcome.result = .ok (3 * k) ∧
      (∀ i < k, ((outcome.state.read (top - .ofNat 16 i)).toNat : Int) =
        op.exact u v % 256 ^ k / 256 ^ i % 256) ∧
      (outcome.state.df = true ↔ op.Sets k u v) ∧
      outcome.state.register p = start + .ofNat 16 (5 * k) ∧
      outcome.state.register x = top - .ofNat 16 k ∧
      (∀ j, j ≠ p → j ≠ x → outcome.state.register j = m.register j) ∧
      ∀ address, (∀ i < k, address ≠ top - .ofNat 16 i) →
        outcome.state.read address = m.read address := by
  intro k u v outcome
  have leaves := run_row op.row nonempty holds selected counter pointing pointer apart clear
  have length : (op.chain false m.df operands).1.length = k := length_chain ..
  obtain ⟨exactly, sets⟩ := op.chain_exact m.df nonempty
  refine ⟨length ▸ leaves.result, ?bytes, ?df, length ▸ leaves.counter, length ▸ leaves.pointer,
    leaves.others, ?memory⟩
  case bytes =>
    intro i inside
    have inside : i < (op.chain false m.df operands).1.length := length.symm ▸ inside
    have byte := leaves.bytes i inside
    have digit := littleEndian_div_mod (op.chain false m.df operands).1 i inside
    calc ((outcome.state.read (top - .ofNat 16 i)).toNat : Int)
        = (littleEndian (op.chain false m.df operands).1 / 256 ^ i % 256 : Nat) := by
          rw [digit]
          exact congrArg (fun b : Byte => (b.toNat : Int)) byte
      _ = littleEndian (op.chain false m.df operands).1 / 256 ^ i % 256 := by push_cast; rfl
      _ = op.exact u v % 256 ^ k / 256 ^ i % 256 := by rw [exactly]; rfl
  case df =>
    rw [leaves.df]
    exact sets
  case memory =>
    intro address missed
    exact leaves.memory address (length.symm ▸ missed)

/-- The sum 0xF234 + 0x5678 on two bytes, pushed at the first address and then at the last one. -/
theorem run_arithmetic_exact_across_end :
    let code := [0xF8, 0x34, 0xFC, 0x78, 0x73, 0xF8, 0xF2, 0x7C, 0x56, 0x73]
    let m : Machine Bus.Flat :=
      { Machine.new (Bus.writeEach Bus.write Bus.Flat.zero 4 code) with
        p := 3, r := (Bank.fill 0).set 3 4 }
    let outcome := m.run 6
    outcome.result = .ok 6 ∧ outcome.state.read 0x0000 = 0xAC ∧ outcome.state.read 0xFFFF = 0x48 ∧
      outcome.state.df = true ∧ outcome.state.register 3 = 14 ∧
      outcome.state.register 0 = 0xFFFE := by
  intro code m outcome
  have holds : Bus.readEach m.memory 4 10 =
      Program.code (Arithmetic.add.program false [(0x34, 0x78), (0xF2, 0x56)]) := by
    decide +kernel
  have counter : m.register 3 = 4 := by decide +kernel
  have pointer : m.register 0 = 0 := by decide +kernel
  have clear : ∀ i < 2, ∀ offset < 10, (0 : Word) - .ofNat 16 i ≠ 4 + .ofNat 16 offset := by decide
  obtain ⟨result, bytes, df, counter, pointer, -, -⟩ :=
    run_arithmetic_exact .add [(0x34, 0x78), (0xF2, 0x56)] (by decide) holds rfl counter rfl pointer
      (by decide) clear
  have lowest := bytes 0 (by decide)
  have highest := bytes 1 (by decide)
  refine ⟨result, ?_, ?_, ?_, counter, pointer⟩
  · apply BitVec.eq_of_toNat_eq
    exact Int.ofNat.inj lowest
  · apply BitVec.eq_of_toNat_eq
    exact Int.ofNat.inj highest
  · exact df.mpr (by decide)

end Machine

end Cosmac
