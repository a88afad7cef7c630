import Cosmac.Console
import Cosmac.Proofs.Bus.Range
import Cosmac.Proofs.Disassembly.Boundary
import Mathlib.Data.List.Infix

/-!
A window of three bytes for each wanted instruction is wide enough. Decoding looks at no more than
two bytes behind an opcode, so a sweep of the window and a sweep of everything up to the end of
memory begin with the same entries. Main statement: the lines that a console shows are the first
lines of the unbounded disassembly, and their bytes are the content of memory.
-/

set_option autoImplicit false
set_option relaxedAutoImplicit false

namespace Cosmac

namespace Disassembly

private theorem take_sweep_take (address : Word) (bytes : List Byte) {limit cut : Nat}
    (enough : 3 * limit ≤ cut) :
    (sweep address (bytes.take cut)).take limit = (sweep address bytes).take limit := by
  -- On the number of instructions: the first takes three of the bytes left in the cut at most.
  induction limit generalizing address bytes cut with
  | zero => rw [List.take_zero, List.take_zero]
  | succ limit ih =>
    cases bytes with
    | nil => rw [List.take_nil]
    | cons opcode rest =>
      obtain ⟨cut, rfl⟩ : ∃ behind, cut = behind + 1 := ⟨cut - 1, by omega⟩
      have size := (Entry.first_spec address opcode rest).1.size_le_three
      have stable := Entry.first_take_of_size_le address opcode rest cut (by omega)
      rw [List.take_succ_cons, sweep_cons, sweep_cons, stable]
      simp only [List.take_succ_cons]
      rw [List.drop_take, ih _ _ (by omega)]

private theorem window_eq (start : Word) (limit : Nat) :
    window start limit =
      (start.toNat, start.toNat + min (3 * limit) (addressCount - start.toNat)) := by
  have inside : start.toNat < addressCount := start.isLt
  simp only [window, Prod.mk.injEq, true_and]
  omega

private theorem ofMemory_eq_take_sweep {σ : Type} [Bus σ] (memory : σ) (start : Word)
    (limit : Nat) :
    ofMemory memory start limit =
      (sweep start (Bus.readEach memory start (addressCount - start.toNat))).take limit := by
  simp only [ofMemory, window_eq, Nat.add_sub_cancel_left]
  rw [← Bus.take_readEach, take_sweep_take _ _ (Nat.le_refl _)]

private theorem bytes_of_mem_sweep {σ : Type} [Bus σ] {memory : σ} {start : Word}
    {bytes : List Byte} (holds : bytes = Bus.readEach memory start bytes.length) :
    ∀ entry ∈ sweep start bytes,
      entry.bytes = Bus.readEach memory entry.address entry.bytes.length := by
  induction start, bytes using sweep_induction with
  | nil => simp
  | cons entry rest formed swept ih =>
    obtain ⟨here, behind⟩ := Bus.eq_readEach_of_append holds
    rw [formed.length_bytes] at behind
    rw [swept]
    intro other member
    rcases List.mem_cons.mp member with rfl | later
    · exact here
    · exact ih behind other later

end Disassembly

namespace Console

open Disassembly

def Line.ofEntry (entry : Entry) : Line :=
  { address := entry.address, bytes := entry.bytes, text := entry.text }

private theorem disassemble_eq_map_ofMemory (console : Console) (start : Word) (limit : Nat) :
    console.disassemble start limit =
      (ofMemory console.machine.memory start limit).map Line.ofEntry := by
  have inside : start.toNat < addressCount := start.isLt
  have slice := Bus.Flat.slice_eq_readEach console.machine.memory start
    (min (3 * limit) (addressCount - start.toNat)) (by omega)
  simp only [disassemble, ofMemory, window_eq, slice, Nat.add_sub_cancel_left]
  rfl

/-- A bounded disassembly is the unbounded one up to its bound: the lines are those of the first
entries of all memory from `start` on, there are fewer than `limit` only if memory ends, and the
bytes of the lines are the content of memory at their addresses and from `start` on. -/
theorem disassemble_eq_take (console : Console) (start : Word) (limit : Nat) :
    let memory := console.machine.memory
    let rest := memory.slice start.toNat addressCount
    let entries := sweep start rest
    let lines := console.disassemble start limit
    lines = (entries.take limit).map (fun entry => ⟨entry.address, entry.bytes, entry.text⟩) ∧
      lines.length = min limit entries.length ∧
      (∀ line ∈ lines, line.bytes = Bus.readEach memory line.address line.bytes.length) ∧
      lines.flatMap Line.bytes <+: rest ∧
      (lines.length < limit → lines.flatMap Line.bytes = rest) := by
  intro memory rest entries lines
  have upToEnd : rest = Bus.readEach memory start (addressCount - start.toNat) := by
    have inside : start.toNat < addressCount := start.isLt
    have slice := Bus.Flat.slice_eq_readEach memory start (addressCount - start.toNat) (by omega)
    rwa [Nat.add_sub_cancel' (Nat.le_of_lt inside)] at slice
  have shown : lines = (entries.take limit).map Line.ofEntry := by
    show console.disassemble start limit = _
    rw [disassemble_eq_map_ofMemory, ofMemory_eq_take_sweep, ← upToEnd]
  have length : lines.length = min limit entries.length := by
    rw [shown, List.length_map, List.length_take]
  have bytes : lines.flatMap Line.bytes = (entries.take limit).flatMap Entry.bytes := by
    rw [shown, List.flatMap_map]
    rfl
  have all : entries.flatMap Entry.bytes = rest := flatMap_bytes_sweep start rest
  refine ⟨shown, length, ?_, ?_, ?_⟩
  · intro line member
    rw [shown] at member
    obtain ⟨entry, taken, rfl⟩ := List.mem_map.mp member
    have holds : rest = Bus.readEach memory start rest.length := by
      rw [upToEnd, Bus.length_readEach]
    exact bytes_of_mem_sweep holds entry (List.mem_of_mem_take taken)
  · rw [bytes, ← all]
    exact (List.take_prefix limit entries).flatMap Entry.bytes
  · intro few
    rw [length] at few
    rw [bytes, List.take_of_length_le (by omega), all]

/-- A long branch that the end of memory cuts short, and an instruction in the last byte. -/
theorem disassemble_eq_take_at_end :
    let memory : Bus.Flat := Bus.write (Bus.write Bus.Flat.zero 0xFFFE 0xC0) 0xFFFF 0x12
    let lines := disassemble ⟨Machine.new memory⟩ 0xFFFE 9
    lines = [⟨0xFFFE, [0xC0], ".byte $C0"⟩, ⟨0xFFFF, [0x12], "INC R2"⟩] ∧
      [0x12] = Bus.readEach memory 0xFFFF 1 ∧
      lines.length < 9 ∧
      lines.flatMap Line.bytes = memory.slice (0xFFFE : Word).toNat addressCount := by
  intro memory lines
  have content : Bus.readEach memory 0xFFFE 2 = [0xC0, 0x12] := by
    simp only [memory, Bus.readEach, Bus.Flat.read_write, Bus.Flat.read_zero]
    decide
  -- From here on the two bytes are all that is known of memory.
  clear_value memory
  have shown : lines = [⟨0xFFFE, [0xC0], ".byte $C0"⟩, ⟨0xFFFF, [0x12], "INC R2"⟩] := by
    show disassemble ⟨Machine.new memory⟩ 0xFFFE 9 = _
    rw [disassemble_eq_map_ofMemory, ofMemory, window_eq]
    show ((sweep 0xFFFE (Bus.readEach memory 0xFFFE 2)).take 9).map Line.ofEntry = _
    rw [content]
    decide +kernel
  have last : ⟨0xFFFF, [0x12], "INC R2"⟩ ∈ lines := by simp [shown]
  have few : lines.length < 9 := by simp [shown]
  obtain ⟨-, -, cells, -, whole⟩ := disassemble_eq_take ⟨Machine.new memory⟩ 0xFFFE 9
  exact ⟨shown, cells _ last, few, whole few⟩

end Console

end Cosmac
