import Cosmac.Proofs.Disassembly.Boundary
import Cosmac.Proofs.Disassembly.Text

/-!
What a sweep finds at each offset. An entry is the first one of the bytes from its offset on, so
whether it is data can be told from the byte there and the number of bytes behind it. Main
statement: an entry is data exactly if its opcode is undefined or the bytes end before its operand
does; any other is complete as the map lists it; and all of them can be written out.
-/

set_option autoImplicit false
set_option relaxedAutoImplicit false

namespace Cosmac.Disassembly

open Isa

namespace Entry

private theorem opcode_first (address : Word) (opcode : Byte) (rest : List Byte) :
    (first address opcode rest).opcode = opcode := by
  rw [first_eq]
  split <;> rfl

private theorem isData_first_iff (address : Word) (opcode : Byte) (rest : List Byte) :
    (first address opcode rest).isData = true ↔ Lone opcode rest := by
  rw [first_eq]
  split <;> simp [*]

private theorem lone_iff {opcode : Byte} {rest : List Byte} :
    Lone opcode rest ↔ opcode = 0x68 ∨ (opcode :: rest).length < (Isa.info opcode).size := by
  rw [Lone, isUndefined_info, decide_eq_true_eq, OpcodeInfo.size, List.length_cons, Nat.add_comm 1,
    Nat.add_lt_add_iff_right]

private theorem WellFormed.listed_of_not_isData {entry : Entry} (formed : entry.WellFormed)
    (isInstruction : entry.isData = false) :
    entry.mnemonic = (Isa.info entry.opcode).mnemonic ∧
      entry.operand = (Isa.info entry.opcode).operand ∧
      entry.size = (Isa.info entry.opcode).size ∧
      entry.operandBytes.length = entry.operand.byteCount ∧
      entry.operand.byteCount = entry.size - 1 := by
  cases formed with
  | data => contradiction
  | instruction address opcode operandBytes isDefined complete =>
    exact ⟨rfl, rfl, rfl, complete, (Nat.add_sub_cancel_left 1 _).symm⟩

private theorem WellFormed.isSome_target?_iff {entry : Entry} (formed : entry.WellFormed) :
    entry.target?.isSome = true ↔
      entry.operand = .shortBranch ∨ entry.operand = .longBranch := by
  cases formed with
  | data => simp [target?, ofData]
  | instruction address opcode operandBytes isDefined complete =>
    cases kind : (Isa.info opcode).operand with
    | shortBranch =>
      rw [kind] at complete
      obtain ⟨low, rfl⟩ := List.length_eq_one_iff.mp complete
      simp [target?, ofInstruction, kind]
    | longBranch =>
      rw [kind] at complete
      obtain ⟨high, low, rfl⟩ := List.length_eq_two.mp complete
      simp [target?, ofInstruction, kind]
    | implied | register | device | immediate => simp [target?, ofInstruction, kind]

end Entry

private theorem exists_getElem_sweep_eq_first (address : Word) (bytes : List Byte) (i : Nat)
    (inside : i < (sweep address bytes).length) :
    let offset := extent ((sweep address bytes).take i)
    ∃ within : offset < bytes.length,
      (sweep address bytes)[i] =
        Entry.first (address + .ofNat 16 offset) bytes[offset] (bytes.drop (offset + 1)) := by
  intro offset
  have here : (sweep address bytes).drop i =
      sweep (address + .ofNat 16 offset) (bytes.drop offset) := drop_sweep address bytes i
  have within : offset < bytes.length := by
    by_contra ended
    rw [List.drop_eq_nil_of_le (Nat.le_of_not_lt ended), sweep_nil, List.drop_eq_nil_iff] at here
    omega
  refine ⟨within, ?_⟩
  rw [List.drop_eq_getElem_cons inside, List.drop_eq_getElem_cons within, sweep_cons] at here
  exact (List.cons.inj here).1

/-- An entry is data exactly if the byte at its offset is the undefined opcode or fewer bytes are
left there than its instruction has; so data other than the undefined opcode lies in the last two
bytes. Any other entry is as the map lists its opcode, with all its operand bytes. Branches, and no
other entries, have a target, and no entry is written with a placeholder. -/
theorem sweep_classified (address : Word) (bytes : List Byte) (i : Nat)
    (inside : i < (sweep address bytes).length) :
    let entry := (sweep address bytes)[i]
    let offset := extent ((sweep address bytes).take i)
    ∃ within : offset < bytes.length,
      let info := Isa.info bytes[offset]
      entry.opcode = bytes[offset] ∧
      (entry.isData = true ↔ bytes[offset] = 0x68 ∨ bytes.length - offset < info.size) ∧
      (entry.isData = true → bytes[offset] ≠ 0x68 → bytes.length ≤ offset + 2) ∧
      (entry.isData = false →
        entry.mnemonic = info.mnemonic ∧ entry.operand = info.operand ∧ entry.size = info.size ∧
          entry.operandBytes.length = entry.operand.byteCount ∧
          entry.operand.byteCount = entry.size - 1) ∧
      (entry.target?.isSome = true ↔
        entry.operand = .shortBranch ∨ entry.operand = .longBranch) ∧
      '?' ∉ entry.text.toList := by
  intro entry offset
  obtain ⟨within, first⟩ := exists_getElem_sweep_eq_first address bytes i inside
  have formed : entry.WellFormed :=
    wellFormed_of_mem_sweep address bytes entry (List.getElem_mem inside)
  have opcode : entry.opcode = bytes[offset] := by
    show (sweep address bytes)[i].opcode = _
    rw [first, Entry.opcode_first]
  have isData : entry.isData = true ↔
      bytes[offset] = 0x68 ∨ bytes.length - offset < (Isa.info bytes[offset]).size := by
    show (sweep address bytes)[i].isData = true ↔ _
    rw [first, Entry.isData_first_iff, Entry.lone_iff, ← List.drop_eq_getElem_cons within,
      List.length_drop]
  refine ⟨within, opcode, isData, ?_, ?_, formed.isSome_target?_iff, formed.question_not_mem_text⟩
  · intro data isDefined
    have short := (isData.mp data).resolve_left isDefined
    have few := Entry.byteCount_le_two (Isa.info bytes[offset]).operand
    unfold OpcodeInfo.size at short
    omega
  · intro isInstruction
    rw [← opcode]
    exact formed.listed_of_not_isData isInstruction

/-- The undefined opcode and a branch, and behind them a long branch that the end of the bytes cuts
short: its opcode is data, in the last two bytes. -/
theorem sweep_classified_of_truncated :
    let bytes : List Byte := [0x68, 0x30, 0x05, 0xC0, 0x12]
    ∃ inside : 2 < (sweep 0x12FE bytes).length,
      (sweep 0x12FE bytes)[2].isData = true ∧
        bytes.length ≤ extent ((sweep 0x12FE bytes).take 2) + 2 ∧
        '?' ∉ (sweep 0x12FE bytes)[2].text.toList := by
  intro bytes
  have inside : 2 < (sweep 0x12FE bytes).length := by decide +kernel
  have offset : extent ((sweep 0x12FE bytes).take 2) = 3 := by decide +kernel
  obtain ⟨within, -, isData, last, -, -, written⟩ :=
    sweep_classified 0x12FE bytes 2 inside
  have byte : bytes[extent ((sweep 0x12FE bytes).take 2)] = 0xC0 := by
    simp only [offset]
    rfl
  have data := isData.mpr (.inr (by rw [byte, offset]; decide +kernel))
  exact ⟨inside, data, last data (by rw [byte]; decide), written⟩

end Cosmac.Disassembly
