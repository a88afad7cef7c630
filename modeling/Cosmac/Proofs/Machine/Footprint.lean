import Cosmac.Proofs.Machine.Alike
import Cosmac.Proofs.Machine.Inputs

/-!
What a step reads of memory. Its footprint is the opcode, the operand bytes that it needs, and the
byte behind a register that it loads through; an operand that is stepped over, and the address that
is written to, are not part of it. Main statement: machines in the same processor state whose
memories agree on the footprint of a step take the same step, and machines whose memories agree on
all that a run reads before it stores there make the same run.
-/

set_option autoImplicit false
set_option relaxedAutoImplicit false

namespace Cosmac

private theorem Outcome.Alike.imp {α σ τ : Type} {related weaker : σ → τ → Prop} {o : Outcome α σ}
    {o' : Outcome α τ} (alike : o.Alike related o')
    (weaken : related o.state o'.state → weaker o.state o'.state) : o.Alike weaker o' :=
  ⟨alike.result, weaken alike.state, alike.log, alike.events⟩

def Bus.AgreeAt (known : Word → Prop) (a b : Flat) : Prop :=
  ∀ address, known address → read a address = read b address

variable {known : Word → Prop}

private theorem Bus.AgreeAt.write {a b : Flat} (agree : AgreeAt known a b)
    (written : Word) (byte : Byte) :
    AgreeAt (fun address => known address ∨ some written = some address)
      (Bus.write a written byte) (Bus.write b written byte) := by
  intro address either
  rw [Flat.read_write, Flat.read_write]
  split
  case isTrue => rfl
  case isFalse other =>
    rcases either with before | here
    · exact agree address before
    · exact absurd (Option.some.inj here) other

namespace Machine

open Isa

variable {σ : Type} [Bus σ]

instance (m : Machine σ) (address : Word) : Decidable (m.StoresAt address) :=
  inferInstanceAs (Decidable (_ ∧ _ ∨ _ ∧ _))

/-- Whether the step from here is of an instruction whose name has a condition that holds. -/
def Takes (m : Machine σ) : Prop :=
  Manual.condition m (info m.atCounter).mnemonic = some true

instance (m : Machine σ) : Decidable m.Takes :=
  inferInstanceAs (Decidable (_ = _))

/-- The addresses of the operand bytes that the step from here needs: those of an immediate operand
and of the target of a branch that is taken. -/
def operandAddresses (m : Machine σ) : List Word :=
  match (info m.atCounter).operand with
  | .immediate => [m.counter + 1]
  | .shortBranch => if m.Takes then [m.counter + 1] else []
  | .longBranch => if m.Takes then [m.counter + 1, m.counter + 2] else []
  | _ => []

/-- The address that the step from here reads through the register in its opcode, with the registers
as the fetch leaves them. -/
def registerAddresses (m : Machine σ) : List Word :=
  if m.Executes ["LDN", "LDA"] then [(m.fetched m.atCounter).register m.atCounter.low] else []

/-- The address that the step from here reads at the data pointer, with the registers as the fetch
leaves them. -/
def pointerAddresses (m : Machine σ) : List Word :=
  if m.Executes ["LDX", "LDXA", "OR", "AND", "XOR", "ADD", "ADC", "SD", "SDB", "SM", "SMB", "OUT",
      "RET", "DIS"] then [(m.fetched m.atCounter).pointer] else []

def footprint (m : Machine σ) : List Word :=
  m.counter :: (m.operandAddresses ++ m.registerAddresses ++ m.pointerAddresses)

/-- The addresses that a row of steps reads before one of its steps stores there. -/
def exposed : List (Machine σ) → List Word
  | [] => []
  | s :: rest => s.footprint ++ (exposed rest).filter fun address => ¬s.StoresAt address

/-! ### One instruction -/

def reads (m : Machine σ) : Instruction → List Word
  | .load n | .loadAdvance n => [m.register n]
  | .popAdvance | .output _ | .restore _ | .compute _ .pointer => [m.pointer]
  | .compute _ .immediate => [m.counter]
  | .branch test => if test.holds m.toProcessor then [m.counter] else []
  | .longBranch test => if test.holds m.toProcessor then [m.counter, m.counter + 1] else []
  | _ => []

private theorem takes_of_named {m : Machine σ} {test : Test}
    (holds : test.holds m.toProcessor = true) {name : String}
    (named : name ∈ test.shortBranches ++ test.longBranches ++ test.longSkips) {kind : OperandKind}
    (entry : info m.atCounter = ⟨name, kind⟩) : m.Takes := by
  rw [Takes, entry, Manual.condition_of_named m test name named, holds]

private theorem reads_subset_footprint (m : Machine σ) :
    (m.fetched m.atCounter).reads m.instruction ⊆ m.footprint := by
  have listed : info m.atCounter ∈ m.instruction.listed := info_mem_listed m.atCounter
  have named (n : Nibble) : m.instruction.register? = some n → n = m.atCounter.low :=
    eq_low_of_register?
  have counter : (m.fetched m.atCounter).counter = m.counter + 1 := register_fetched m m.atCounter
  cases kind : m.instruction with
  | load n | loadAdvance n =>
    rw [kind] at listed named
    obtain rfl := named n rfl
    have entry := List.mem_singleton.mp listed
    simp [reads, footprint, registerAddresses, Executes, entry]
  | popAdvance | output =>
    rw [kind] at listed
    have entry := List.mem_singleton.mp listed
    simp [reads, footprint, pointerAddresses, Executes, entry]
  | restore enable =>
    rw [kind] at listed
    cases enable <;> have entry := List.mem_singleton.mp listed <;>
      simp [reads, footprint, pointerAddresses, Executes, entry]
  | compute op source =>
    rw [kind] at listed
    have entry := List.mem_singleton.mp listed
    cases source with
    | immediate => simp [reads, footprint, operandAddresses, entry, Source.operandKind, counter]
    | pointer =>
      cases op with
      | load | or | and | xor =>
        simp [reads, footprint, pointerAddresses, Executes, entry, Source.mnemonic]
      | add chained | subtractOperand chained | subtractAccumulator chained =>
        cases chained <;>
          simp [reads, footprint, pointerAddresses, Executes, entry, Source.mnemonic]
  | branch test =>
    rw [kind] at listed
    rw [reads, holds_fetched]
    split
    case isFalse => exact List.nil_subset _
    case isTrue holds =>
      rcases List.mem_append.mp listed with listed | listed
      · obtain ⟨name, member, entry⟩ := List.mem_map.mp listed
        have takes := takes_of_named holds (by simp [member]) entry.symm
        simp [footprint, operandAddresses, ← entry, takes, counter]
      -- What is listed as a skip is never taken.
      · obtain ⟨rfl, -⟩ : test = ⟨.always, true⟩ ∧ _ := by simpa using listed
        contradiction
  | longBranch test =>
    rw [kind] at listed
    rw [reads, holds_fetched]
    split
    case isFalse => exact List.nil_subset _
    case isTrue holds =>
      obtain ⟨name, member, entry⟩ := List.mem_map.mp listed
      have takes := takes_of_named holds (by simp [member]) entry.symm
      have second : m.counter + 1#16 + 1#16 = m.counter + 2#16 := BitVec.add_assoc ..
      simp [footprint, operandAddresses, ← entry, takes, counter, second]
  | _ => exact List.nil_subset _

private theorem ofByte_of_stores (b : Byte) :
    ((info b).mnemonic ∈ ["STR"] → Instruction.ofByte b = .store b.low) ∧
      ((info b).mnemonic ∈ ["STXD", "INP"] →
        Instruction.ofByte b = .pushRetreat ∨ Instruction.ofByte b = .input (b.setWidth 3)) :=
  forall_info
    (p := fun b entry =>
      (entry.mnemonic ∈ ["STR"] → Instruction.ofByte b = .store b.low) ∧
        (entry.mnemonic ∈ ["STXD", "INP"] →
          Instruction.ofByte b = .pushRetreat ∨ Instruction.ofByte b = .input (b.setWidth 3)))
    (by decide +kernel) b

private theorem written?_of_storesAt {m : Machine σ} {address : Word}
    (stores : m.StoresAt address) :
    (m.fetched m.atCounter).written? m.instruction = some address := by
  obtain ⟨named, pointed⟩ := ofByte_of_stores m.atCounter
  rcases stores with ⟨executes, rfl⟩ | ⟨executes, rfl⟩
  · rw [instruction, named executes]
    rfl
  · rcases pointed executes with push | input
    · rw [instruction, push]
      rfl
    · rw [instruction, input]
      rfl

variable {m m' : Machine Bus.Flat}

private theorem Alike.restrict {fewer : Word → Prop} (alike : m.Alike (Bus.AgreeAt known) m')
    (within : ∀ address, fewer address → known address) : m.Alike (Bus.AgreeAt fewer) m' :=
  ⟨alike.processor, fun address member => alike.memory address (within address member)⟩

private theorem Alike.execute_of_reads (alike : m.Alike (Bus.AgreeAt known) m') {i : Instruction}
    (reads : ∀ address ∈ m.reads i, known address) :
    (m.execute i).Alike (Bus.AgreeAt fun address => known address ∨ m.written? i = some address)
      (m'.execute i) := by
  obtain ⟨proc, a⟩ := m
  obtain ⟨proc', b⟩ := m'
  obtain ⟨same, memory⟩ := alike
  obtain rfl : proc = proc' := same
  have unwritten : Bus.AgreeAt (fun address => known address ∨ none = some address) a b := by
    rintro address (before | written)
    · exact memory address before
    · contradiction
  cases i with
  | store n | pushRetreat | input => exact ⟨rfl, memory.write _ _⟩
  | load n | loadAdvance n =>
    have loaded : Bus.read a (proc.r.get n) = Bus.read b (proc.r.get n) :=
      memory _ (reads _ List.mem_cons_self)
    refine ⟨?_, unwritten⟩
    simp only [Machine.execute, setD, advance, setRegister, register, Machine.read, loaded]
  | popAdvance | output | restore =>
    have pointed : Bus.read a proc.pointer = Bus.read b proc.pointer :=
      memory _ (reads _ List.mem_cons_self)
    refine ⟨?_, unwritten⟩
    simp only [Machine.execute, restore, setD, advance, setRegister, register, atPointer,
      Machine.read, pointed]
  | compute op source =>
    cases source with
    | pointer =>
      have pointed : Bus.read a proc.pointer = Bus.read b proc.pointer :=
        memory _ (reads _ List.mem_cons_self)
      refine ⟨?_, unwritten⟩
      simp only [Machine.execute, compute, setAccumulator, atPointer, Machine.read, pointed]
    | immediate =>
      have operand : Bus.read a proc.counter = Bus.read b proc.counter :=
        memory _ (reads _ List.mem_cons_self)
      refine ⟨?_, unwritten⟩
      simp only [Machine.execute, compute, setAccumulator, advance, setRegister, register,
        Machine.atCounter, Machine.read, operand]
  | branch test =>
    simp only [Machine.execute, branch, Machine.atCounter, Machine.read]
    split
    case isFalse => exact ⟨rfl, unwritten⟩
    case isTrue holds =>
      rw [Machine.reads, if_pos holds] at reads
      have operand : Bus.read a proc.counter = Bus.read b proc.counter :=
        memory _ (reads _ List.mem_cons_self)
      rw [operand]
      exact ⟨rfl, unwritten⟩
  | longBranch test =>
    simp only [Machine.execute, longBranch, Machine.atCounter, Machine.read]
    split
    case isFalse => exact ⟨rfl, unwritten⟩
    case isTrue holds =>
      rw [Machine.reads, if_pos holds] at reads
      have upper : Bus.read a proc.counter = Bus.read b proc.counter :=
        memory _ (reads _ List.mem_cons_self)
      have lower : Bus.read a (proc.counter + 1) = Bus.read b (proc.counter + 1) :=
        memory _ (reads _ (List.mem_cons_of_mem _ List.mem_cons_self))
      rw [upper, lower]
      exact ⟨rfl, unwritten⟩
  | longSkip test =>
    simp only [Machine.execute, longSkip]
    split <;> exact ⟨rfl, unwritten⟩
  | _ => exact ⟨rfl, unwritten⟩

/-! ### Steps and runs -/

private theorem Alike.completed_of_footprint (alike : m.Alike (Bus.AgreeAt known) m')
    (footprint : ∀ address ∈ m.footprint, known address) (opcode : m.atCounter = m'.atCounter) :
    m.completed.Alike (Bus.AgreeAt fun address => known address ∨ m.StoresAt address)
      m'.completed := by
  have executed := (alike.fetched m.atCounter).execute_of_reads fun address member =>
    footprint address (m.reads_subset_footprint member)
  have counted := executed.update fun proc => { proc with count := proc.count + 1 }
  unfold Machine.completed instruction
  rw [← opcode]
  exact counted.restrict fun _ => Or.imp_right written?_of_storesAt

private theorem Alike.step_of_footprint (alike : m.Alike (Bus.AgreeAt known) m')
    (footprint : ∀ address ∈ m.footprint, known address) :
    Outcome.Alike
      (Machine.Alike (Bus.AgreeAt fun address => known address ∨ m.StoresAt address))
      m.step m'.step := by
  have counter : m.counter = m'.counter :=
    congrArg (fun proc : Processor => proc.counter) alike.processor
  have opcode : m.atCounter = m'.atCounter := by
    rw [Machine.atCounter, Machine.atCounter, ← counter]
    exact alike.memory _ (footprint _ List.mem_cons_self)
  have completed := alike.completed_of_footprint footprint opcode
  exact Alike.step_of_completed alike.processor opcode completed

private theorem mem_exposed_attempts_succ {m : Machine σ} {n : Nat} {address : Word} :
    address ∈ exposed (m.attempts (n + 1)) ↔
      address ∈ m.footprint ∨
        m.step.result = .ok () ∧ address ∈ exposed (m.step.state.attempts n) ∧
          ¬m.StoresAt address := by
  cases result : m.step.result with
  | ok _ => simp [attempts_succ_of_ok result, exposed]
  | error fault => simp [attempts_succ_of_error result, exposed]

private theorem exposed_attempts_subset (m : Machine σ) {k limit : Nat} (within : k ≤ limit) :
    exposed (m.attempts k) ⊆ exposed (m.attempts limit) := by
  induction k generalizing m limit with
  | zero => exact List.nil_subset _
  | succ k ih =>
    obtain ⟨n, rfl⟩ := Nat.exists_eq_add_of_le' (Nat.le_trans k.succ_pos within)
    intro address member
    rw [mem_exposed_attempts_succ] at member ⊢
    rcases member with now | ⟨ok, later, unstored⟩
    · exact .inl now
    · exact .inr ⟨ok, ih m.step.state (Nat.le_of_succ_le_succ within) later, unstored⟩

private theorem Alike.run_of_exposed {limit : Nat} (alike : m.Alike (Bus.AgreeAt known) m')
    (agreed : ∀ address ∈ exposed (m.attempts limit), known address) :
    Outcome.Alike
      (Machine.Alike
        (Bus.AgreeAt fun address => known address ∨ ∃ s ∈ m.attempts limit, s.StoresAt address))
      (m.run limit) (m'.run limit) := by
  induction limit generalizing m m' known with
  | zero =>
    refine ⟨rfl, alike.restrict ?_, rfl, rfl⟩
    simp only [attempts, List.not_mem_nil, false_and, exists_false, or_false, imp_self,
      implies_true]
  | succ n ih =>
    have first := alike.step_of_footprint fun address now =>
      agreed address (mem_exposed_attempts_succ.mpr (.inl now))
    cases result : m.step.result with
    | ok _ =>
      have rest := ih first.state fun address later => by
        by_cases stores : m.StoresAt address
        · exact .inr stores
        · exact .inl (agreed address (mem_exposed_attempts_succ.mpr (.inr ⟨result, later, stores⟩)))
      rw [run_succ_of_ok result, run_succ_of_ok (first.result ▸ result), first.log, first.events]
      refine Outcome.Alike.after ((rest.imp fun alike => alike.restrict ?_).later 1) _ _
      simp only [attempts_succ_of_ok result, List.exists_mem_cons_iff, or_assoc, imp_self,
        implies_true]
    | error fault =>
      rw [run_succ_of_error result, run_succ_of_error (first.result ▸ result), first.log,
        first.events]
      refine ⟨rfl, first.state.restrict ?_, rfl, rfl⟩
      simp only [attempts_succ_of_error result, List.exists_mem_cons_iff, List.not_mem_nil,
        false_and, exists_false, or_false, imp_self, implies_true]

/-- A step sees no more of memory than its footprint. Machines in the same processor state whose
memories agree there answer, log and show the same, and end in the same processor state; their
memories then agree wherever they did before and where the step stored. So a run sees only what its
steps read before an earlier one stored there: where the memories agree on that, the runs of every
length up to its own are the same. -/
theorem run_sees_footprint_only {m m' : Machine Bus.Flat}
    (processor : m.toProcessor = m'.toProcessor) :
    ((∀ address ∈ m.footprint, m.read address = m'.read address) →
      Outcome.Alike
        (Machine.Alike
          (Bus.AgreeAt fun address => m.read address = m'.read address ∨ m.StoresAt address))
        m.step m'.step) ∧
    ∀ limit, (∀ address ∈ exposed (m.attempts limit), m.read address = m'.read address) →
      ∀ k ≤ limit,
        Outcome.Alike
          (Machine.Alike
            (Bus.AgreeAt fun address =>
              m.read address = m'.read address ∨ ∃ s ∈ m.attempts k, s.StoresAt address))
          (m.run k) (m'.run k) := by
  have alike : m.Alike (Bus.AgreeAt fun address => m.read address = m'.read address) m' :=
    ⟨processor, fun _ same => same⟩
  refine ⟨alike.step_of_footprint, ?_⟩
  intro limit agreed k within
  exact alike.run_of_exposed fun address member =>
    agreed address (m.exposed_attempts_subset within member)

/-- A byte that the program replaces before it gets there may differ, and so may the operand that
the branch put there steps over. -/
theorem run_sees_footprint_only_of_self_change :
    let program := Bus.writeEach Bus.write Bus.Flat.zero 0
    let start (memory : Bus.Flat) : Machine Bus.Flat :=
      { (Machine.new memory).setRegister 1 1 with d := 0x31, observed := true }
    let m := start (program [0x51, 0x00, 0x55, 0x7B])
    let m' := start (program [0x51, 0x79, 0xAA, 0x7B])
    m.toProcessor = m'.toProcessor ∧ m.footprint = [0] ∧ exposed (m.attempts 3) = [0, 3] ∧
      m'.step.state.toProcessor = m.step.state.toProcessor ∧
      (m.run 3).state.q = true ∧ (m'.run 3).result = (m.run 3).result ∧
      (m'.run 3).events = (m.run 3).events ∧
      (m'.run 3).state.toProcessor = (m.run 3).state.toProcessor ∧
      (m'.run 3).state.read 1 = (m.run 3).state.read 1 := by
  intro program start m m'
  have same (a b : Bus.Flat) : (start a).toProcessor = (start b).toProcessor := rfl
  have processor : m.toProcessor = m'.toProcessor := same _ _
  obtain ⟨step, run⟩ := run_sees_footprint_only processor
  have footprint : m.footprint = [0] := by decide +kernel
  have exposed : exposed (m.attempts 3) = [0, 3] := by decide +kernel
  have stored : ∃ s ∈ m.attempts 3, s.StoresAt 1 := by decide +kernel
  -- Through the byte itself: side by side, the two memories would be compared as a whole.
  have first : m.read 0 = m'.read 0 := calc
    m.read 0 = 0x51 := by decide +kernel
    _ = m'.read 0 := by decide +kernel
  have last : m.read 3 = m'.read 3 := calc
    m.read 3 = 0x7B := by decide +kernel
    _ = m'.read 3 := by decide +kernel
  have stepped := step (footprint ▸ List.forall_mem_singleton.mpr first)
  have ran := run 3 (exposed ▸ List.forall_mem_cons.mpr ⟨first, List.forall_mem_singleton.mpr last⟩)
    3 (Nat.le_refl 3)
  exact ⟨processor, footprint, exposed, stepped.state.processor.symm, by decide +kernel,
    ran.result.symm, ran.events.symm, ran.state.processor.symm,
    (ran.state.memory 1 (.inr stored)).symm⟩

end Machine

end Cosmac
