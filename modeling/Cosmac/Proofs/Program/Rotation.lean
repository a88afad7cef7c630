import Cosmac.Bus.Folded
import Cosmac.Proofs.Alu.Shift
import Cosmac.Proofs.Machine.Accumulator
import Cosmac.Proofs.Machine.Steps

/-!
Programs of ring shifts. `SHRC` and `SHLC` turn `DF` and `D` by one place as one word and touch
nothing else, so that what a program of them does depends on how many there are of each and not on
their order. Main statement: such a program of any length completes and leaves the nine bits turned
to the left by the number of shifts to the left less the number of shifts to the right.
-/

set_option autoImplicit false
set_option relaxedAutoImplicit false

namespace Cosmac.Machine

open Alu Isa

variable {σ : Type} [Bus σ]

private theorem exists_ring_shift {opcode : Byte} (shifts : opcode = 0x76 ∨ opcode = 0x7E)
    (rest : List Byte) :
    ∃ direction, Instruction.ofByte opcode = .shift direction true ∧
      direction.places + (rest.count 0x7E + 8 * rest.count 0x76) =
        (opcode :: rest).count 0x7E + 8 * (opcode :: rest).count 0x76 := by
  rcases shifts with rfl | rfl
  · refine ⟨.right, rfl, ?_⟩
    rw [List.count_cons_self, List.count_cons_of_ne (by decide), Direction.places]
    omega
  · refine ⟨.left, rfl, ?_⟩
    rw [List.count_cons_self, List.count_cons_of_ne (by decide), Direction.places]
    omega

private theorem runs_ring_shifts {m : Machine σ} {code : List Byte}
    (shifts : ∀ opcode ∈ code, opcode = 0x76 ∨ opcode = 0x7E)
    (holds : Bus.readEach m.memory m.counter code.length = code) :
    ∃ acc i n, m.Runs code.length (m.passed code.length code.length acc i n) ∧
      acc.word = m.accumulator.word.rotateLeft (code.count 0x7E + 8 * code.count 0x76) := by
  -- On the code: what is left of it is ahead after each shift, for none writes to memory.
  induction code generalizing m with
  | nil =>
    refine ⟨m.accumulator, m.i, m.n, ?_, (rotateLeft_zero _).symm⟩
    rw [List.length_nil, passed_zero]
    exact .refl m
  | cons opcode rest ih =>
    rw [List.length_cons, Bus.readEach_succ] at holds
    obtain ⟨head, tail⟩ := List.cons.inj holds
    obtain ⟨first, further⟩ := List.forall_mem_cons.mp shifts
    obtain ⟨direction, decoded, places⟩ := exists_ring_shift first rest
    have shift : m.instruction = .shift direction true := by
      rw [← decoded, ← head]
      rfl
    obtain ⟨ok, state⟩ := step_of_shift shift
    have step := Runs.step ok
    rw [state] at step
    have ahead : Bus.readEach m.step.state.memory m.step.state.counter rest.length = rest := by
      rw [state, counter_passed]
      exact tail
    rw [state] at ahead
    obtain ⟨acc, i, n, runs, word⟩ := ih further ahead
    rw [passed_passed] at runs
    refine ⟨acc, i, n, ?_, ?_⟩
    · rw [List.length_cons, Nat.add_comm]
      exact step.trans runs
    · have turned : (m.passed 1 1 (Alu.shift direction true m.accumulator) m.atCounter.high
          m.atCounter.low).accumulator.word =
          m.accumulator.word.rotateLeft direction.places := word_shift_ring direction _
      rw [word, turned, rotateLeft_rotateLeft, places]

/-- Ring shifts form a group of rotations. A program of them, in any order and of any length,
completes and leaves `DF` and `D` as one word turned to the left by the number of its `SHLC` less
the number of its `SHRC`, modulo nine. The counter ends behind the program, and besides the digits
of the last opcode and the count nothing else is changed. -/
theorem run_rotates {m : Machine σ} {code : List Byte}
    (shifts : ∀ opcode ∈ code, opcode = 0x76 ∨ opcode = 0x7E)
    (holds : Bus.readEach m.memory m.counter code.length = code) :
    let outcome := m.run code.length
    outcome.result = .ok code.length ∧
      outcome.state.accumulator.word =
        m.accumulator.word.rotateLeft (((code.count 0x7E : Int) - code.count 0x76) % 9).toNat ∧
      outcome.state =
        { m with
          d := outcome.state.d
          df := outcome.state.df
          r := m.r.set m.p (m.counter + .ofNat 16 code.length)
          i := outcome.state.i
          n := outcome.state.n
          count := m.count + .ofNat 64 code.length } := by
  intro outcome
  obtain ⟨acc, i, n, runs, word⟩ := runs_ring_shifts shifts holds
  have state : outcome.state = m.passed code.length code.length acc i n := runs.state
  have places : (((code.count 0x7E : Int) - code.count 0x76) % 9).toNat =
      (code.count 0x7E + 8 * code.count 0x76) % 9 := by omega
  rw [state, places, BitVec.rotateLeft_mod_eq_rotateLeft]
  exact ⟨runs.result, word, rfl⟩

/-- Two shifts to the left and one to the right around the last address, in folded memory of four
bytes. -/
theorem run_rotates_around_end :
    let code : List Byte := [0x7E, 0x76, 0x7E]
    let memory : Bus.Folded := ⟨#[0x7E, 0x00, 0x7E, 0x76], by decide⟩
    let m := ((Machine.new memory).setRegister 0 0xFFFE).setD 0x81
    let outcome := m.run 3
    Bus.readEach m.memory m.counter 3 = code ∧
      outcome.result = .ok 3 ∧ outcome.state.accumulator.word = 0b100000010 ∧
      outcome.state.counter = 1 ∧ outcome.state.count = 3 := by
  intro code memory m outcome
  have shifts : ∀ opcode ∈ code, opcode = 0x76 ∨ opcode = 0x7E := by decide
  have holds : Bus.readEach m.memory m.counter code.length = code := by decide +kernel
  have word : m.accumulator.word = 0b010000001 := by decide
  obtain ⟨result, turned, state⟩ := run_rotates shifts holds
  rw [word] at turned
  refine ⟨holds, result, turned.trans (by decide), ?_, congrArg (·.count) state⟩
  have arrived : m.counter + .ofNat 16 code.length = 1 := by decide +kernel
  exact (congrArg (·.counter) state).trans ((m.r.get_set_self m.p _).trans arrived)

end Cosmac.Machine
