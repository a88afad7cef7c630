import Cosmac.Proofs.Disassembly.Lossless
import Cosmac.Proofs.Machine.Fetch
import Cosmac.Proofs.Manual.Agreement

/-!
Where control goes can be read off a listing. A branch goes to the target of its entry or behind
the entry, a long skip over two bytes or none, and every other instruction goes on behind its
entry unless it works on the program counter itself. Main statement: the machine goes where the
entry at its program counter says, also when the entry runs across the end of a page or of memory.
-/

set_option autoImplicit false
set_option relaxedAutoImplicit false

namespace Cosmac

namespace Disassembly.Entry

open Isa

variable {σ : Type}

def behind (entry : Entry) : Word :=
  entry.address + .ofNat 16 entry.size

/-- Where the program counter stands after the instruction of an entry. A name with a condition is
that of a branch if the entry has a target, and of a long skip if it has none. -/
def successor? (entry : Entry) (m : Machine σ) : Option Word :=
  match entry.target?, Manual.condition m entry.mnemonic with
  | some target, some true => some target
  | some _, some false => some entry.behind
  | some _, none => none
  | none, some true => some (entry.address + 3)
  | none, some false => some (entry.address + 1)
  | none, none =>
    match entry.mnemonic with
    | "IDL" => some entry.address
    | "SKP" => some (entry.address + 2)
    | _ => some entry.behind

private theorem successor?_of_target {entry : Entry} {m : Machine σ} {target : Word} {taken : Bool}
    (goes : entry.target? = some target)
    (condition : Manual.condition m entry.mnemonic = some taken) :
    entry.successor? m = some (if taken then target else entry.behind) := by
  rw [successor?, goes, condition]
  cases taken <;> rfl

private theorem successor?_of_skip {entry : Entry} {m : Machine σ} {taken : Bool}
    (stays : entry.target? = none) (condition : Manual.condition m entry.mnemonic = some taken) :
    entry.successor? m = some (if taken then entry.address + 3 else entry.address + 1) := by
  rw [successor?, stays, condition]
  cases taken <;> rfl

def altering : List String := ["INC", "DEC", "LDA", "PLO", "PHI"]

def stepping : List String := ["IRX", "OUT", "LDXA", "STXD", "RET", "DIS"]

/-- Whether the instruction of an entry addresses the program counter as a register or as the data
pointer. -/
def AddressesCounter (entry : Entry) (m : Machine σ) : Prop :=
  entry.mnemonic ∈ altering ∧ entry.number = m.p ∨ entry.mnemonic ∈ stepping ∧ m.x = m.p

/-- The entry of an opcode that the map lists as `info`, with the bytes behind the opcode. -/
def ofListed (address : Word) (opcode : Byte) (info : OpcodeInfo) (rest : List Byte) : Entry where
  address := address
  opcode := opcode
  mnemonic := info.mnemonic
  operand := info.operand
  operandBytes := rest.take info.operand.byteCount
  size := info.size

private theorem decode?_cons_of_ne (address : Word) {opcode : Byte} (isDefined : opcode ≠ 0x68)
    {rest : List Byte} (enough : 2 ≤ rest.length) :
    decode? address (opcode :: rest) = some (ofListed address opcode (Isa.info opcode) rest) := by
  have complete : ¬ (rest.take (Isa.info opcode).operand.byteCount).length <
      (Isa.info opcode).operand.byteCount := by
    have few := byteCount_le_two (Isa.info opcode).operand
    rw [List.length_take]
    omega
  simp only [decode?, isUndefined_info, isDefined, decide_false, Bool.false_or, complete,
    Bool.false_eq_true, if_false]
  rfl

theorem mem_altering_of_alters? {i : Instruction} {info : OpcodeInfo} {n : Nibble}
    (listed : info ∈ i.listed) (alters : i.alters? = some n) :
    info.mnemonic ∈ altering ∧ info.operand = .register ∧ i.register? = some n := by
  cases i with
  | loadAdvance k | increment k | decrement k | putLow k | putHigh k =>
    obtain rfl := List.mem_singleton.mp listed
    exact ⟨by decide, rfl, alters⟩
  | _ => contradiction

theorem mem_stepping_of_movesPointer {i : Instruction} {info : OpcodeInfo}
    (listed : info ∈ i.listed) (moves : i.movesPointer = true) : info.mnemonic ∈ stepping := by
  cases i with
  | popAdvance | pushRetreat | advancePointer | output =>
    obtain rfl := List.mem_singleton.mp listed
    decide
  | restore enable =>
    cases enable <;> obtain rfl := List.mem_singleton.mp listed <;> decide
  | _ => contradiction

end Disassembly.Entry

namespace Machine

open Isa Disassembly

variable {σ : Type} [Bus σ]

def listedEntry (m : Machine σ) (info : OpcodeInfo) : Entry :=
  .ofListed m.counter m.atCounter info [m.read (m.counter + 1), m.read (m.counter + 1 + 1)]

private theorem decode?_readEach (m : Machine σ) (isDefined : m.atCounter ≠ 0x68) :
    Entry.decode? m.counter (Bus.readEach m.memory m.counter 3) =
      some (m.listedEntry (Isa.info m.atCounter)) := by
  rw [Bus.readEach_succ, Bus.readEach_succ, Bus.readEach_succ]
  exact Entry.decode?_cons_of_ne m.counter isDefined (Nat.le_refl 2)

private theorem successor?_of_quiet (m : Machine σ) {i : Instruction} {info : OpcodeInfo}
    (listed : info ∈ i.listed) (quiet : i.redirects = false) :
    (m.listedEntry info).successor? m = some (m.listedEntry info).behind := by
  cases i with
  | idle | branch | longBranch | longSkip | restore | selectCounter | saveContext => contradiction
  | compute op source =>
    obtain rfl := List.mem_singleton.mp listed
    cases op with
    | load | or | and | xor => cases source <;> rfl
    | add chained | subtractOperand chained | subtractAccumulator chained =>
      cases source <;> cases chained <;> rfl
  | shift direction ring =>
    obtain rfl := List.mem_singleton.mp listed
    cases direction <;> cases ring <;> rfl
  | setQ level =>
    cases level <;> obtain rfl := List.mem_singleton.mp listed <;> rfl
  | pass =>
    simp only [Instruction.listed, List.mem_cons, List.not_mem_nil, or_false] at listed
    rcases listed with rfl | rfl <;> rfl
  | _ =>
    obtain rfl := List.mem_singleton.mp listed
    rfl

private theorem register_execute_of_quiet (m : Machine σ) {i : Instruction} {info : OpcodeInfo}
    (listed : info ∈ i.listed) (names : ∀ n, i.register? = some n → n = m.atCounter.low)
    (quiet : i.redirects = false) (aside : ¬ (m.listedEntry info).AddressesCounter m) :
    ((m.fetched m.atCounter).execute i).register m.p = (m.listedEntry info).behind := by
  have kept : i.alters? ≠ some m.p := by
    intro alters
    obtain ⟨altering, operand, named⟩ := Entry.mem_altering_of_alters? listed alters
    have number : (m.listedEntry info).number = m.atCounter.low := by
      show (if info.operand = .device then _ else m.atCounter.low) = _
      rw [operand]
      rfl
    exact aside (.inl ⟨altering, number.trans (names m.p named).symm⟩)
  have apart : i.movesPointer = true → m.x ≠ m.p := fun moves same =>
    aside (.inr ⟨Entry.mem_stepping_of_movesPointer listed moves, same⟩)
  have moved := (m.fetched m.atCounter).counter_execute listed quiet kept apart
  refine moved.trans ?_
  show (m.fetched m.atCounter).register m.p + _ = m.counter + .ofNat 16 info.size
  rw [register_fetched, OpcodeInfo.size, BitVec.ofNat_add, ← BitVec.add_assoc]
  rfl

private theorem successor?_eq_register_execute (m : Machine σ) {i : Instruction} {info : OpcodeInfo}
    (listed : info ∈ i.listed) (names : ∀ n, i.register? = some n → n = m.atCounter.low)
    (completes : i ≠ .saveContext) (aside : ¬ (m.listedEntry info).AddressesCounter m) :
    (m.listedEntry info).successor? m =
      some (((m.fetched m.atCounter).execute i).register m.p) := by
  by_cases quiet : i.redirects = false
  · rw [register_execute_of_quiet m listed names quiet aside]
    exact successor?_of_quiet m listed quiet
  cases i with
  | idle =>
    obtain rfl := List.mem_singleton.mp listed
    exact congrArg some (register_retreat_fetched m _).symm
  | branch test =>
    rcases List.mem_append.mp listed with listed | listed
    · obtain ⟨name, named, rfl⟩ := List.mem_map.mp listed
      have condition := Manual.condition_of_named m test name (by simp [named])
      rw [Entry.successor?_of_target rfl condition]
      exact congrArg some (register_branch_fetched m _ test).symm
    -- A branch that is never taken is listed as a skip of the byte behind it.
    · obtain ⟨rfl, rfl⟩ : test = ⟨.always, true⟩ ∧ info = ⟨"SKP", .implied⟩ := by
        simpa using listed
      have passed := register_branch_fetched m m.atCounter ⟨.always, true⟩
      exact congrArg some passed.symm
  | longBranch test =>
    obtain ⟨name, named, rfl⟩ := List.mem_map.mp listed
    have condition := Manual.condition_of_named m test name (by simp [named])
    rw [Entry.successor?_of_target rfl condition]
    exact congrArg some (register_longBranch_fetched m _ test).symm
  | longSkip test =>
    obtain ⟨name, named, rfl⟩ := List.mem_map.mp listed
    have condition := Manual.condition_of_named m test name (by simp [named])
    rw [Entry.successor?_of_skip rfl condition]
    exact congrArg some (register_longSkip_fetched m _ test).symm
  | restore enable =>
    have apart : m.x ≠ m.p := fun same =>
      aside (.inr ⟨Entry.mem_stepping_of_movesPointer listed rfl, same⟩)
    have kept : ((m.fetched m.atCounter).restore enable).register m.p = m.counter + 1 :=
      (register_setRegister_of_ne _ _ apart).trans (register_fetched m _)
    cases enable <;> obtain rfl := List.mem_singleton.mp listed <;>
      exact congrArg some kept.symm
  | selectCounter n =>
    obtain rfl := List.mem_singleton.mp listed
    exact congrArg some (register_fetched m m.atCounter).symm
  | saveContext => contradiction
  | _ => exact absurd rfl quiet

/-- A listing tells where control goes: every instruction but the undefined one and the two that
save context is decoded and completes, and leaves the old program counter where its entry says,
unless it addresses the program counter itself. -/
theorem successor?_eq_register_step (m : Machine σ)
    (supported : m.atCounter ∉ ([0x68, 0x78, 0x79] : List Byte)) :
    ∃ entry, Entry.decode? m.counter (Bus.readEach m.memory m.counter 3) = some entry ∧
      m.step.result = .ok () ∧
      (¬ entry.AddressesCounter m → entry.successor? m = some (m.step.state.register m.p)) := by
  simp only [List.mem_cons, List.not_mem_nil, or_false, not_or] at supported
  obtain ⟨isDefined, notSave, notMark⟩ := supported
  have completes : m.instruction ≠ .saveContext := fun saves =>
    ((Instruction.ofByte_eq_saveContext_iff _).mp saves).elim notSave notMark
  have listed : Isa.info m.atCounter ∈ m.instruction.listed := info_mem_listed m.atCounter
  refine ⟨m.listedEntry (Isa.info m.atCounter), m.decode?_readEach isDefined, ?_, ?_⟩
  · rw [step_of_ne_saveContext m completes]
  · intro aside
    rw [step_of_ne_saveContext m completes]
    exact m.successor?_eq_register_execute listed (fun _ => eq_low_of_register?) completes aside

/-- A taken branch whose opcode is the last byte of a page: it goes to the page of its operand. -/
theorem successor?_eq_register_step_across_page :
    let m : Machine Bus.Flat :=
      { Machine.new (Bus.writeEach Bus.write Bus.Flat.zero 0x00FF [0x32, 0x34]) with
        p := 3, r := .fill 0x00FF }
    m.atCounter ∉ ([0x68, 0x78, 0x79] : List Byte) ∧
      (Entry.decode? 0x00FF (Bus.readEach m.memory 0x00FF 3)).map Entry.text = some "BZ $0134" ∧
      m.step.result = .ok () ∧ m.step.state.register 3 = 0x0134 := by
  intro m
  have counter : m.counter = 0x00FF := by decide +kernel
  have supported : m.atCounter ∉ ([0x68, 0x78, 0x79] : List Byte) := by decide +kernel
  have decodes : Entry.decode? 0x00FF (Bus.readEach m.memory 0x00FF 3) =
      some ⟨0x00FF, 0x32, "BZ", .shortBranch, [0x34], 2⟩ := by decide +kernel
  obtain ⟨entry, decoded, ok, goes⟩ := m.successor?_eq_register_step supported
  rw [counter, decodes] at decoded
  obtain rfl := Option.some.inj decoded
  have aside : ¬ Entry.AddressesCounter ⟨0x00FF, 0x32, "BZ", .shortBranch, [0x34], 2⟩ m := by
    simp [Entry.AddressesCounter, Entry.altering, Entry.stepping]
  have holds : Manual.condition m "BZ" = some true := by decide +kernel
  have target : Entry.target? ⟨0x00FF, 0x32, "BZ", .shortBranch, [0x34], 2⟩ = some 0x0134 := rfl
  rw [Entry.successor?_of_target target holds] at goes
  refine ⟨supported, ?_, ok, (Option.some.inj (goes aside)).symm⟩
  rw [decodes]
  decide +kernel

end Machine

end Cosmac
