import Cosmac.Disassembly.Sweep
import Cosmac.Proofs.Isa.Listed
import Mathlib.Algebra.GroupWithZero.Nat

/-!
The sweep loses nothing. Every entry of a sweep is a byte of data or a complete instruction, and
the sweep cuts the bytes of its entries off one after the other. Main statement: the bytes of the
entries, in order, are the bytes that were swept, and each entry lies where those before it end.
-/

set_option autoImplicit false
set_option relaxedAutoImplicit false

namespace Cosmac.Disassembly

open Isa

namespace Entry

def ofInstruction (address : Word) (opcode : Byte) (operandBytes : List Byte) : Entry where
  address := address
  opcode := opcode
  mnemonic := (Isa.info opcode).mnemonic
  operand := (Isa.info opcode).operand
  operandBytes := operandBytes
  size := (Isa.info opcode).size

/-- The entries that a sweep makes: a byte of data, or a defined instruction with all its
operand bytes. -/
inductive WellFormed : Entry → Prop
  | data (address : Word) (byte : Byte) : WellFormed (ofData address byte)
  | instruction (address : Word) (opcode : Byte) (operandBytes : List Byte)
      (isDefined : (Isa.info opcode).isUndefined = false)
      (complete : operandBytes.length = (Isa.info opcode).operand.byteCount) :
      WellFormed (ofInstruction address opcode operandBytes)

theorem mnemonic_ne_dataMnemonic (b : Byte) : (Isa.info b).mnemonic ≠ dataMnemonic :=
  forall_info (p := fun _ entry => entry.mnemonic ≠ dataMnemonic) (by decide +kernel) b

@[simp] theorem isData_ofData (address : Word) (byte : Byte) :
    (ofData address byte).isData = true := rfl

@[simp] theorem isData_ofInstruction (address : Word) (opcode : Byte) (operandBytes : List Byte) :
    (ofInstruction address opcode operandBytes).isData = false :=
  beq_eq_false_iff_ne.mpr (mnemonic_ne_dataMnemonic opcode)

@[simp] theorem bytes_ofData (address : Word) (byte : Byte) :
    (ofData address byte).bytes = [byte] := rfl

@[simp] theorem bytes_ofInstruction (address : Word) (opcode : Byte) (operandBytes : List Byte) :
    (ofInstruction address opcode operandBytes).bytes = opcode :: operandBytes := by
  rw [bytes, isData_ofInstruction]
  rfl

theorem exists_bytes_eq_cons (entry : Entry) :
    ∃ rest, entry.bytes = entry.opcode :: rest := by
  unfold bytes
  split
  · exact ⟨_, rfl⟩
  · exact ⟨_, rfl⟩

theorem WellFormed.length_bytes {entry : Entry} (formed : entry.WellFormed) :
    entry.bytes.length = entry.size := by
  cases formed with
  | data => rfl
  | instruction address opcode operandBytes isDefined complete =>
    rw [bytes_ofInstruction, List.length_cons, complete, Nat.add_comm]
    rfl

theorem WellFormed.one_le_size {entry : Entry} (formed : entry.WellFormed) : 1 ≤ entry.size := by
  cases formed with
  | data => exact Nat.le_refl 1
  | instruction => exact Nat.le_add_right 1 _

theorem byteCount_le_two (kind : OperandKind) : kind.byteCount ≤ 2 := by
  cases kind <;> decide

theorem WellFormed.size_le_three {entry : Entry} (formed : entry.WellFormed) :
    entry.size ≤ 3 := by
  cases formed with
  | data => exact Nat.le_add_left 1 2
  | instruction => exact Nat.add_le_add_left (byteCount_le_two _) 1

theorem WellFormed.size_eq_size_info {entry : Entry} (formed : entry.WellFormed)
    (pass : entry.isData = true → entry.opcode = 0x68) :
    entry.size = (Isa.info entry.opcode).size := by
  cases formed with
  | data address byte =>
    obtain rfl : byte = 0x68 := pass rfl
    show 1 = (Isa.info 0x68).size
    decide +kernel
  | instruction => rfl

/-- A byte that the bytes behind it do not make an instruction: its opcode is undefined, or an
operand byte is missing. -/
def Lone (opcode : Byte) (rest : List Byte) : Prop :=
  (Isa.info opcode).isUndefined = true ∨ rest.length < (Isa.info opcode).operand.byteCount

instance (opcode : Byte) (rest : List Byte) : Decidable (Lone opcode rest) :=
  inferInstanceAs (Decidable (_ ∨ _))

theorem not_lone_iff {opcode : Byte} {rest : List Byte} :
    ¬ Lone opcode rest ↔ (Isa.info opcode).isUndefined = false ∧
      (Isa.info opcode).operand.byteCount ≤ rest.length := by
  rw [Lone, not_or, Bool.not_eq_true, Nat.not_lt]

theorem first_eq (address : Word) (opcode : Byte) (rest : List Byte) :
    first address opcode rest =
      if Lone opcode rest then ofData address opcode
      else ofInstruction address opcode (rest.take (Isa.info opcode).operand.byteCount) := by
  have test : ((Isa.info opcode).isUndefined || decide ((rest.take
      (Isa.info opcode).operand.byteCount).length < (Isa.info opcode).operand.byteCount)) = true ↔
        Lone opcode rest := by
    rw [Bool.or_eq_true, decide_eq_true_eq, List.length_take, Lone]
    exact or_congr_right (by omega)
  simp only [first, decode?, test]
  split <;> rfl

theorem first_spec (address : Word) (opcode : Byte) (rest : List Byte) :
    let entry := first address opcode rest
    entry.WellFormed ∧ entry.address = address ∧
      opcode :: rest = entry.bytes ++ rest.drop (entry.size - 1) := by
  rw [first_eq]
  split
  next => exact ⟨.data address opcode, rfl, rfl⟩
  next joined =>
    obtain ⟨isDefined, enough⟩ := not_lone_iff.mp joined
    have complete := List.length_take_of_le enough
    refine ⟨.instruction address opcode _ isDefined complete, rfl, ?_⟩
    have size : (ofInstruction address opcode
        (rest.take (Isa.info opcode).operand.byteCount)).size - 1 =
          (Isa.info opcode).operand.byteCount := Nat.add_sub_cancel_left 1 _
    rw [bytes_ofInstruction, size, List.cons_append, List.take_append_drop]

end Entry

/-- Induction along a sweep: the bytes are none, or those of a well-formed entry in front of bytes
that are swept from where the entry ends. -/
theorem sweep_induction {motive : Word → List Byte → Prop}
    (nil : ∀ address, motive address [])
    (cons : ∀ (entry : Entry) (rest : List Byte), entry.WellFormed →
      sweep entry.address (entry.bytes ++ rest) =
        entry :: sweep (entry.address + .ofNat 16 entry.size) rest →
      motive (entry.address + .ofNat 16 entry.size) rest →
      motive entry.address (entry.bytes ++ rest))
    (address : Word) (bytes : List Byte) : motive address bytes := by
  -- On the number of bytes: the sweep goes on with what the first entry leaves of them.
  induction length : bytes.length using Nat.strongRecOn generalizing address bytes with
  | ind n ih =>
    subst length
    cases bytes with
    | nil => exact nil address
    | cons opcode rest =>
      obtain ⟨formed, start, cut⟩ := Entry.first_spec address opcode rest
      have swept := sweep_cons address opcode rest
      simp only at swept
      generalize Entry.first address opcode rest = entry at formed start cut swept
      subst start
      have shorter : (rest.drop (entry.size - 1)).length < (opcode :: rest).length := by
        rw [List.length_drop, List.length_cons]
        omega
      rw [cut] at swept ⊢
      exact cons entry _ formed swept (ih _ shorter _ _ rfl)

theorem wellFormed_of_mem_sweep (address : Word) (bytes : List Byte) :
    ∀ entry ∈ sweep address bytes, entry.WellFormed := by
  induction address, bytes using sweep_induction with
  | nil address => simp
  | cons entry rest formed swept ih =>
    intro other member
    rw [swept] at member
    rcases List.mem_cons.mp member with rfl | later
    · exact formed
    · exact ih other later

theorem flatMap_bytes_sweep (address : Word) (bytes : List Byte) :
    (sweep address bytes).flatMap Entry.bytes = bytes := by
  induction address, bytes using sweep_induction with
  | nil address => rw [sweep_nil, List.flatMap_nil]
  | cons entry rest formed swept ih => rw [swept, List.flatMap_cons, ih]

private theorem toNat_address_getElem_sweep (address : Word) (bytes : List Byte) (i : Nat)
    (inside : i < (sweep address bytes).length) :
    (sweep address bytes)[i].address.toNat =
      (address.toNat + (((sweep address bytes).take i).map Entry.size).sum) % addressCount := by
  induction address, bytes using sweep_induction generalizing i with
  | nil address =>
    rw [sweep_nil] at inside
    contradiction
  | cons entry rest formed swept ih =>
    simp only [swept, List.length_cons] at inside ⊢
    cases i with
    | zero => exact (Nat.mod_eq_of_lt entry.address.isLt).symm
    | succ i =>
      have later := ih i (Nat.lt_of_succ_lt_succ inside)
      rw [List.getElem_cons_succ, later, List.take_succ_cons, List.map_cons, List.sum_cons,
        BitVec.toNat_add, BitVec.toNat_ofNat]
      unfold addressCount
      omega

/-- No byte is lost or made up: the bytes of the entries, in order, are those that were swept; each
entry is as long as it says, and lies where those before it end. -/
theorem sweep_lossless (address : Word) (bytes : List Byte) :
    (sweep address bytes).flatMap Entry.bytes = bytes ∧
      (∀ entry ∈ sweep address bytes,
        entry.bytes.length = entry.size ∧ 1 ≤ entry.size ∧ entry.size ≤ 3) ∧
      ∀ (i : Nat) (inside : i < (sweep address bytes).length),
        (sweep address bytes)[i].address.toNat =
          (address.toNat + (((sweep address bytes).take i).map Entry.size).sum) %
            addressCount := by
  refine ⟨flatMap_bytes_sweep address bytes, ?_, toNat_address_getElem_sweep address bytes⟩
  intro entry member
  have formed := wellFormed_of_mem_sweep address bytes entry member
  exact ⟨formed.length_bytes, formed.one_le_size, formed.size_le_three⟩

/-- A load at the last address, and a branch that the end of the bytes cuts short. -/
theorem sweep_lossless_of_truncated :
    let entries := sweep 0xFFFF [0xF8, 0x12, 0xC0]
    entries.flatMap Entry.bytes = [0xF8, 0x12, 0xC0] ∧
      (Entry.ofData 0x0001 0xC0).bytes.length = (Entry.ofData 0x0001 0xC0).size ∧
      ∃ inside : 1 < entries.length, entries[1].address.toNat = 1 := by
  obtain ⟨cover, sizes, addresses⟩ := sweep_lossless 0xFFFF [0xF8, 0x12, 0xC0]
  have member : Entry.ofData 0x0001 0xC0 ∈ sweep 0xFFFF [0xF8, 0x12, 0xC0] := by
    decide +kernel
  have inside : 1 < (sweep 0xFFFF [0xF8, 0x12, 0xC0]).length := by
    decide +kernel
  refine ⟨cover, (sizes _ member).1, inside, (addresses 1 inside).trans ?_⟩
  decide +kernel

end Cosmac.Disassembly
