import Cosmac.Proofs.Disassembly.Lossless

/-!
Where a sweep can be cut. The first entry depends on its own bytes, and on what lies behind them
only in that an operand byte may be missing; one that is missing from all the bytes is missing from
any first part of them. So the entries from any one on are the sweep of the bytes from there on, and
those before it are the sweep of the bytes up to there. Main statement: the sweeps of two parts, one
after the other, are the sweep of the whole exactly if an entry of the whole ends where the first
part does.
-/

set_option autoImplicit false
set_option relaxedAutoImplicit false

namespace Cosmac.Disassembly

def extent (entries : List Entry) : Nat :=
  (entries.map Entry.size).sum

@[simp] private theorem extent_nil : extent [] = 0 := rfl

@[simp] private theorem extent_cons (entry : Entry) (entries : List Entry) :
    extent (entry :: entries) = entry.size + extent entries := by
  rw [extent, List.map_cons, List.sum_cons, extent]

/-- A cut between two entries of a sweep, or at either end: some of its first entries take up
exactly the bytes before the cut. -/
def IsBoundary (address : Word) (bytes : List Byte) (cut : Nat) : Prop :=
  ∃ count, extent ((sweep address bytes).take count) = cut

private theorem extent_sweep (address : Word) (bytes : List Byte) :
    extent (sweep address bytes) = bytes.length := by
  induction address, bytes using sweep_induction with
  | nil address => rw [sweep_nil, extent_nil, List.length_nil]
  | cons entry rest formed swept ih =>
    rw [swept, extent_cons, ih, List.length_append, formed.length_bytes]

theorem Entry.first_take_of_size_le (address : Word) (opcode : Byte) (rest : List Byte) (cut : Nat)
    (covered : (first address opcode rest).size ≤ cut + 1) :
    first address opcode (rest.take cut) = first address opcode rest := by
  rw [first_eq] at covered ⊢
  rw [first_eq]
  by_cases lone : Lone opcode rest
  · have shorter : Lone opcode (rest.take cut) :=
      lone.imp_right (Nat.lt_of_le_of_lt (List.length_take_le' cut rest))
    rw [if_pos lone, if_pos shorter]
  · obtain ⟨isDefined, enough⟩ := not_lone_iff.mp lone
    rw [if_neg lone] at covered ⊢
    have within : (Isa.info opcode).operand.byteCount ≤ cut := by
      have size : 1 + (Isa.info opcode).operand.byteCount ≤ cut + 1 := covered
      omega
    have joined : ¬ Lone opcode (rest.take cut) := by
      rw [not_lone_iff, List.length_take]
      exact ⟨isDefined, Nat.le_min.mpr ⟨within, enough⟩⟩
    rw [if_neg joined, List.take_take, Nat.min_eq_left within]

private theorem Entry.WellFormed.take_bytes_append {entry : Entry} (formed : entry.WellFormed)
    (rest : List Byte) (cut : Nat) :
    (entry.bytes ++ rest).take (entry.size + cut) = entry.bytes ++ rest.take cut := by
  rw [← formed.length_bytes, List.take_length_add_append]

private theorem Entry.WellFormed.drop_bytes_append {entry : Entry} (formed : entry.WellFormed)
    (rest : List Byte) (cut : Nat) :
    (entry.bytes ++ rest).drop (entry.size + cut) = rest.drop cut := by
  rw [← formed.length_bytes, List.drop_length_add_append]

private theorem sweep_take_of_sweep {entry : Entry} {rest : List Byte} (formed : entry.WellFormed)
    (swept : sweep entry.address (entry.bytes ++ rest) =
      entry :: sweep (entry.address + .ofNat 16 entry.size) rest) (cut : Nat) :
    sweep entry.address (entry.bytes ++ rest.take cut) =
      entry :: sweep (entry.address + .ofNat 16 entry.size) (rest.take cut) := by
  -- Both sweeps begin with the opcode of the entry, so it is enough to compare their first entries.
  obtain ⟨operandBytes, bytes⟩ := entry.exists_bytes_eq_cons
  have size : entry.size = operandBytes.length + 1 := by
    rw [← formed.length_bytes, bytes, List.length_cons]
  rw [bytes, List.cons_append] at swept ⊢
  rw [sweep_cons] at swept ⊢
  obtain ⟨first, -⟩ := List.cons.inj swept
  have front : operandBytes ++ rest.take cut =
      (operandBytes ++ rest).take (operandBytes.length + cut) := by
    rw [List.take_length_add_append]
  have same := Entry.first_take_of_size_le entry.address entry.opcode (operandBytes ++ rest)
    (operandBytes.length + cut) (by rw [first, size]; omega)
  rw [front, same, first]
  simp only [size, Nat.add_sub_cancel, ← front, List.drop_left]

theorem drop_sweep (address : Word) (bytes : List Byte) (count : Nat) :
    let front := extent ((sweep address bytes).take count)
    (sweep address bytes).drop count = sweep (address + .ofNat 16 front) (bytes.drop front) := by
  induction address, bytes using sweep_induction generalizing count with
  | nil address => simp
  | cons entry rest formed swept ih =>
    cases count with
    | zero => simp
    | succ count =>
      simp only [swept, List.take_succ_cons, List.drop_succ_cons, extent_cons]
      rw [ih count, formed.drop_bytes_append, BitVec.ofNat_add, BitVec.add_assoc]

theorem take_sweep (address : Word) (bytes : List Byte) (count : Nat) :
    let front := extent ((sweep address bytes).take count)
    (sweep address bytes).take count = sweep address (bytes.take front) := by
  induction address, bytes using sweep_induction generalizing count with
  | nil address => simp
  | cons entry rest formed swept ih =>
    cases count with
    | zero => simp
    | succ count =>
      simp only [swept, List.take_succ_cons, extent_cons]
      rw [formed.take_bytes_append, sweep_take_of_sweep formed swept, ← ih count]

/-- Two sweeps in a row are one sweep exactly if the first part ends where an entry of the whole
does; the entries before the cut may be data for want of operand bytes. -/
theorem sweep_append_iff_isBoundary (address : Word) (front back : List Byte) :
    sweep address (front ++ back) =
        sweep address front ++ sweep (address + .ofNat 16 front.length) back ↔
      IsBoundary address (front ++ back) front.length := by
  constructor
  · intro same
    refine ⟨(sweep address front).length, ?_⟩
    rw [same, List.take_left, extent_sweep]
  · rintro ⟨count, boundary⟩
    have first := take_sweep address (front ++ back) count
    have later := drop_sweep address (front ++ back) count
    simp only [boundary, List.take_left, List.drop_left] at first later
    rw [← first, ← later, List.take_append_drop]

/-- A cut behind a branch that lacks an operand byte, and one through a load, which the parts do
not find. -/
theorem sweep_append_iff_isBoundary_of_truncated :
    sweep 0xFFFE ([0xF8, 0x12, 0xC0] ++ [0x34]) =
        sweep 0xFFFE [0xF8, 0x12, 0xC0] ++ sweep 0x0001 [0x34] ∧
      ¬ IsBoundary 0xFFFE ([0xF8] ++ [0x12]) 1 := by
  have whole := sweep_append_iff_isBoundary 0xFFFE [0xF8, 0x12, 0xC0] [0x34]
  have through := sweep_append_iff_isBoundary 0xFFFE [0xF8] [0x12]
  exact ⟨whole.mpr ⟨2, by decide +kernel⟩, mt through.mpr (by decide +kernel)⟩

end Cosmac.Disassembly
