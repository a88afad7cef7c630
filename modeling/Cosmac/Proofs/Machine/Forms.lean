import Cosmac.Bus.Flat
import Cosmac.Proofs.Machine.Accumulator

/-!
The two forms of an operation with an operand: one finds it at the data pointer, the other, whose
opcode lies eight places above, behind the opcode. Main statement: given the same operand both leave
the same processor, except that the second has passed over one byte more; and where the program
counter is the data pointer, or the register that a load steps on, the first kind reads the byte
behind the opcode too.
-/

set_option autoImplicit false
set_option relaxedAutoImplicit false

namespace Cosmac

namespace Isa

/-- The opcodes of `LDX`, `OR`, `AND`, `XOR`, `ADD`, `SD`, `SM`, `ADC`, `SDB` and `SMB`, which find
their operand at the data pointer. -/
def pointerForms : List Byte :=
  [0xF0, 0xF1, 0xF2, 0xF3, 0xF4, 0xF5, 0xF7, 0x74, 0x75, 0x77]

private theorem exists_compute_of_mem_pointerForms {opcode : Byte} (form : opcode ∈ pointerForms) :
    ∃ op, Instruction.ofByte opcode = .compute op .pointer ∧
      Instruction.ofByte (opcode + 8) = .compute op .immediate := by
  simp only [pointerForms, List.mem_cons, List.not_mem_nil, or_false] at form
  rcases form with rfl | rfl | rfl | rfl | rfl | rfl | rfl | rfl | rfl | rfl <;>
    exact ⟨_, rfl, rfl⟩

private theorem Instruction.ofByte_loadAdvance (n : Nibble) :
    ofByte (Byte.ofNibbles 4 n) = .loadAdvance n := by
  rw [ofByte, Byte.high_ofNibbles, Byte.low_ofNibbles]
  rfl

end Isa

private theorem Processor.passed_two (proc : Processor) (acc : Accumulator) (i n i' n' : Nibble) :
    proc.passed 2 1 acc i' n' =
      { proc.passed 1 1 acc i n with
        r := (proc.passed 1 1 acc i n).r.set proc.p ((proc.passed 1 1 acc i n).r.get proc.p + 1)
        i := i'
        n := n' } := by
  have counter : proc.counter + 1#16 + 1 = proc.counter + 2#16 := BitVec.add_assoc ..
  simp only [passed, Bank.get_set_self, Bank.set_set, counter]

namespace Machine

open Isa

variable {σ τ : Type} [Bus σ] [Bus τ]

/-- The forms of an operation agree. Machines with the same processor, one at an operation with the
byte at the data pointer and the other at its form with the same byte behind the opcode, both
complete and leave the same processor, except that the counter of the second is one place further
and that each latches its own opcode; memory is as it was. Where the program counter is the data
pointer, the byte there after the fetch is the one behind the opcode. `LDXA` on such a machine, and
`LDA` through the program counter on any machine, do what `LDI` does. -/
theorem step_forms_agree :
    (∀ {m : Machine σ} {m' : Machine τ}, m.toProcessor = m'.toProcessor →
      m.atCounter ∈ pointerForms → m'.atCounter = m.atCounter + 8 →
      (m.fetched m.atCounter).atPointer = m'.read (m'.counter + 1) →
        m.step.result = .ok () ∧ m'.step.result = .ok () ∧
        m'.step.state.toProcessor =
          { m.step.state.toProcessor with
            r := m.step.state.r.set m.p (m.step.state.register m.p + 1)
            i := m'.atCounter.high
            n := m'.atCounter.low } ∧
        m.step.state.i = m.atCounter.high ∧ m.step.state.n = m.atCounter.low ∧
        m.step.state.memory = m.memory ∧ m'.step.state.memory = m'.memory) ∧
    (∀ m : Machine σ, m.x = m.p →
      (m.fetched m.atCounter).atPointer = m.read (m.counter + 1)) ∧
    (∀ {m : Machine σ} {m' : Machine τ}, m.toProcessor = m'.toProcessor →
      m.atCounter = 0x72 ∧ m.x = m.p ∨ m.atCounter = .ofNibbles 4 m.p →
      m'.atCounter = 0xF8 → m.read (m.counter + 1) = m'.read (m'.counter + 1) →
        m.step.result = .ok () ∧ m'.step.result = .ok () ∧
        m.step.state.d = m.read (m.counter + 1) ∧
        m.step.state.register m.p = m.counter + 2 ∧
        m'.step.state.toProcessor =
          { m.step.state.toProcessor with i := 0xF, n := 0x8 } ∧
        m.step.state.memory = m.memory ∧ m'.step.state.memory = m'.memory) := by
  refine ⟨?forms, fun m => atPointer_fetched_of_inline, ?loads⟩
  case forms =>
    intro m m' processor form inline operand
    obtain ⟨op, pointed, inlined⟩ := exists_compute_of_mem_pointerForms form
    rw [← inline] at inlined
    obtain ⟨ok, state⟩ := step_of_compute_pointer pointed
    obtain ⟨ok', state'⟩ := step_of_compute_immediate inlined
    rw [operand] at state
    rw [state, state']
    refine ⟨ok, ok', ?_, rfl, rfl, rfl, rfl⟩
    show m'.toProcessor.passed 2 1 (op.apply m'.toProcessor.accumulator _) _ _ = _
    rw [← processor]
    exact Processor.passed_two ..
  case loads =>
    intro m m' processor loads inline operand
    have decoded : m.instruction = .loadAdvance m.p ∨ m.instruction = .popAdvance ∧ m.x = m.p := by
      rcases loads with ⟨pops, same⟩ | named
      · refine .inr ⟨?_, same⟩
        rw [instruction, pops]
        rfl
      · refine .inl ?_
        rw [instruction, named]
        exact Instruction.ofByte_loadAdvance m.p
    have decoded' : m'.instruction = .compute .load .immediate := by
      rw [instruction, inline]
      rfl
    obtain ⟨ok, state⟩ := step_of_inline_load decoded
    obtain ⟨ok', state'⟩ := step_of_compute_immediate decoded'
    rw [inline, ← operand] at state'
    rw [state, state']
    refine ⟨ok, ok', rfl, m.counter_passed .., ?_, rfl, rfl⟩
    show m'.toProcessor.passed 2 1 (Alu.Operation.apply .load m'.toProcessor.accumulator _) _ _ = _
    rw [← processor]
    rfl

/-- `ADC` through `R(2)` beside `ADCI` with the same operand; `LDXA` with the program counter as
data pointer, and `LDA` that names it, beside `LDI`. -/
theorem step_forms_agree_on_carry :
    let start (x : Nibble) (bytes : List Byte) : Machine Bus.Flat :=
      { Machine.new (Bus.writeEach Bus.write Bus.Flat.zero 0 bytes) with
        d := 0x80, df := true, x := x, r := (Bank.fill 0).set 2 3 }
    let adc := (start 2 [0x74, 0x00, 0x00, 0x90]).step.state
    let adci := (start 2 [0x7C, 0x90]).step.state
    let ldxa := (start 0 [0x72, 0x5E]).step.state
    let lda := (start 2 [0x40, 0x5E]).step.state
    (adc.d = 0x11 ∧ adci.d = adc.d ∧ adci.df = adc.df ∧
      adci.r = adc.r.set 0 (adc.r.get 0 + 1)) ∧
      (ldxa.d = 0x5E ∧ (start 0 [0xF8, 0x5E]).step.state.r = ldxa.r) ∧
      lda.register 0 = 2 ∧ (start 2 [0xF8, 0x5E]).step.state.d = lda.d := by
  intro start adc adci ldxa lda
  have processor (x : Nibble) (bytes more : List Byte) :
      (start x bytes).toProcessor = (start x more).toProcessor := rfl
  obtain ⟨forms, -, loads⟩ := @step_forms_agree Bus.Flat Bus.Flat _ _
  obtain ⟨-, -, added, -⟩ :=
    forms (processor 2 [0x74, 0x00, 0x00, 0x90] [0x7C, 0x90]) (by decide +kernel)
      (by decide +kernel) (by decide +kernel)
  have pops : (start 0 [0x72, 0x5E]).atCounter = 0x72 ∧ (start 0 [0x72, 0x5E]).x = 0 := by
    decide +kernel
  have names : (start 2 [0x40, 0x5E]).atCounter = .ofNibbles 4 0 := by decide +kernel
  obtain ⟨-, -, popped, -, ldi, -⟩ :=
    loads (processor 0 [0x72, 0x5E] [0xF8, 0x5E]) (.inl pops) (by decide +kernel)
      (by decide +kernel)
  obtain ⟨-, -, -, counter, ldi', -⟩ :=
    loads (processor 2 [0x40, 0x5E] [0xF8, 0x5E]) (.inr names) (by decide +kernel)
      (by decide +kernel)
  refine ⟨⟨by decide +kernel, congrArg (·.d) added, congrArg (·.df) added, congrArg (·.r) added⟩,
    ⟨popped.trans (by decide +kernel), congrArg (·.r) ldi⟩, counter.trans (by decide +kernel),
    congrArg (·.d) ldi'⟩

end Machine

end Cosmac
