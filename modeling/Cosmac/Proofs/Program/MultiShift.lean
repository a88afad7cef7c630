import Cosmac.Proofs.Alu.Shift
import Cosmac.Proofs.Program.Row

/-!
Programs that double or halve numbers of any number of bytes. A program loads each byte, shifts it
and pushes the result, plainly for the first byte and with the bit that left the byte before for
each later one. Main statement: what it leaves in memory and in `DF` is the exact double, taken from
the lowest byte upward, or the exact half, taken from the highest byte downward.
-/

set_option autoImplicit false
set_option relaxedAutoImplicit false

namespace Cosmac

open Program

namespace Alu.Direction

def row (direction : Direction) : Row Byte where
  loaded := id
  item ring _ := .shift direction ring
  size := 4
  length_bytes _ _ := rfl
  quiet _ _ := nofun

def program (direction : Direction) : Bool → List Byte → List Item := direction.row.program

end Alu.Direction

namespace Machine

open Alu

/-- Multi-byte shifts are exact: the program for them completes and leaves the bytes of the double,
the lowest at the top, or of the half, the highest at the top, with `DF` as the whole number sets
it, and changes nothing else. -/
theorem run_shift_exact (direction : Direction) (bytes : List Byte) {m : Machine Bus.Flat}
    {p x : Nibble} {start top : Word} (nonempty : bytes ≠ [])
    (holds : Bus.readEach m.memory start (4 * bytes.length) =
      code (direction.program false (direction.order bytes)))
    (selected : m.p = p) (counter : m.register p = start)
    (pointing : m.x = x) (pointer : m.register x = top) (apart : x ≠ p)
    (clear : ∀ i < bytes.length, ∀ offset < 4 * bytes.length,
      top - .ofNat 16 i ≠ start + .ofNat 16 offset) :
    let k := bytes.length
    let v := littleEndian bytes
    let outcome := m.run (3 * k)
    outcome.result = .ok (3 * k) ∧
      (∀ i < k, (outcome.state.read (top - .ofNat 16 i)).toNat =
        direction.exact k v / 256 ^ direction.place k i % 256) ∧
      (outcome.state.df = true ↔ direction.Sets k v) ∧
      outcome.state.register p = start + .ofNat 16 (4 * k) ∧
      outcome.state.register x = top - .ofNat 16 k ∧
      (∀ j, j ≠ p → j ≠ x → outcome.state.register j = m.register j) ∧
      ∀ address, (∀ i < k, address ≠ top - .ofNat 16 i) →
        outcome.state.read address = m.read address := by
  intro k v outcome
  have ordered := direction.length_order bytes
  have taken : direction.order bytes ≠ [] := by
    rwa [← List.length_pos_iff, ordered, List.length_pos_iff]
  rw [← ordered] at holds clear
  have leaves := run_row direction.row taken holds selected counter pointing pointer apart clear
  rw [ordered] at leaves
  have length : (direction.chain false m.df (direction.order bytes)).1.length = k :=
    (length_chain ..).trans ordered
  obtain ⟨exactly, sets⟩ := direction.chain_exact m.df nonempty
  refine ⟨length ▸ leaves.result, ?digits, ?df, length ▸ leaves.counter, length ▸ leaves.pointer,
    leaves.others, ?memory⟩
  case digits =>
    intro i inside
    have inside : i < (direction.chain false m.df (direction.order bytes)).1.length :=
      length.symm ▸ inside
    have byte := leaves.bytes i inside
    have digit := direction.toNat_getElem_of_order inside
    calc (outcome.state.read (top - .ofNat 16 i)).toNat
        = littleEndian (direction.order (direction.chain false m.df (direction.order bytes)).1) /
            256 ^ direction.place (direction.chain false m.df (direction.order bytes)).1.length i %
              256 := by
          rw [← digit]
          exact congrArg BitVec.toNat byte
      _ = direction.exact k v / 256 ^ direction.place k i % 256 := by rw [exactly, length]
  case df =>
    rw [leaves.df]
    exact sets
  case memory =>
    intro address missed
    exact leaves.memory address (length.symm ▸ missed)

/-- The number 0x8103 doubled and halved on two bytes, pushed at the first address and then at the
last one, with `DF` set before. -/
theorem run_shift_exact_across_end :
    let codes : Direction → List Byte
      | .left => [0xF8, 0x03, 0xFE, 0x73, 0xF8, 0x81, 0x7E, 0x73]
      | .right => [0xF8, 0x81, 0xF6, 0x73, 0xF8, 0x03, 0x76, 0x73]
    let m (direction : Direction) : Machine Bus.Flat :=
      { Machine.new (Bus.writeEach Bus.write Bus.Flat.zero 4 (codes direction)) with
        df := true, p := 3, r := (Bank.fill 0).set 3 4 }
    let outcome (direction : Direction) := (m direction).run 6
    (∀ direction, (outcome direction).result = .ok 6) ∧
      (outcome .left).state.read 0x0000 = 0x06 ∧ (outcome .left).state.read 0xFFFF = 0x02 ∧
      (outcome .left).state.df = true ∧
      (outcome .right).state.read 0x0000 = 0x40 ∧ (outcome .right).state.read 0xFFFF = 0x81 ∧
      (outcome .right).state.df = true := by
  intro codes m outcome
  have holds : ∀ direction, Bus.readEach (m direction).memory 4 8 =
      Program.code (direction.program false (direction.order [0x03, 0x81])) := by
    intro direction
    cases direction <;> decide +kernel
  have counter : ∀ direction, (m direction).register 3 = 4 := by
    intro direction
    cases direction <;> decide +kernel
  have clear : ∀ i < 2, ∀ offset < 8, (0 : Word) - .ofNat 16 i ≠ 4 + .ofNat 16 offset := by decide
  have pointer : ∀ direction, (m direction).register 0 = 0 := by
    intro direction
    cases direction <;> decide +kernel
  have apart : (0 : Nibble) ≠ 3 := by decide
  have exactly (direction : Direction) :=
    run_shift_exact direction [0x03, 0x81] (by decide) (holds direction) rfl (counter direction) rfl
      (pointer direction) apart clear
  obtain ⟨-, doubled, above, -⟩ := exactly .left
  obtain ⟨-, halved, remainder, -⟩ := exactly .right
  refine ⟨fun direction => (exactly direction).1, ?_, ?_, above.mpr (by decide), ?_, ?_,
    remainder.mpr (by decide)⟩
  · exact BitVec.eq_of_toNat_eq (doubled 0 (by decide))
  · exact BitVec.eq_of_toNat_eq (doubled 1 (by decide))
  · exact BitVec.eq_of_toNat_eq (halved 0 (by decide))
  · exact BitVec.eq_of_toNat_eq (halved 1 (by decide))

end Machine

end Cosmac
