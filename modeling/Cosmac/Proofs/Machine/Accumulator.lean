import Cosmac.Proofs.Machine.Fetch
import Cosmac.Proofs.Machine.Run

/-!
Instructions that work on the accumulator only. Beside it they move the program counter past their
bytes, latch their digits and are counted. Main statements: an operation with an operand, wherever
it finds it, and a shift do no more than that; neither does a load through the program counter,
which passes over the byte that it loads.
-/

set_option autoImplicit false
set_option relaxedAutoImplicit false

namespace Cosmac

open Isa

/-- The processor behind `size` bytes of code, so many instructions of which have completed, with
the accumulator and the digits that they leave. -/
def Processor.passed (proc : Processor) (size steps : Nat) (acc : Accumulator) (i n : Nibble) :
    Processor :=
  { proc with
    d := acc.d
    df := acc.df
    r := proc.r.set proc.p (proc.counter + .ofNat 16 size)
    i := i
    n := n
    count := proc.count + .ofNat 64 steps }

namespace Machine

variable {σ : Type}

def passed (m : Machine σ) (size steps : Nat) (acc : Accumulator) (i n : Nibble) : Machine σ :=
  { m with toProcessor := m.toProcessor.passed size steps acc i n }

theorem counter_passed (m : Machine σ) (size steps : Nat) (acc : Accumulator) (i n : Nibble) :
    (m.passed size steps acc i n).counter = m.counter + .ofNat 16 size :=
  m.r.get_set_self m.p _

theorem passed_zero (m : Machine σ) : m.passed 0 0 m.accumulator m.i m.n = m := by
  have counter : m.counter + .ofNat 16 0 = m.counter := BitVec.add_zero _
  have stays : m.r.set m.p m.counter = m.r := m.r.set_get m.p
  have count : m.count + .ofNat 64 0 = m.count := BitVec.add_zero _
  rw [passed, Processor.passed, counter, stays, count]
  rfl

theorem passed_passed (m : Machine σ) (size steps further more : Nat) (acc acc' : Accumulator)
    (i n i' n' : Nibble) :
    (m.passed size steps acc i n).passed further more acc' i' n' =
      m.passed (size + further) (steps + more) acc' i' n' := by
  have counter := m.counter_passed size steps acc i n
  rw [passed, Processor.passed, counter]
  simp only [passed, Processor.passed, Bank.set_set, BitVec.ofNat_add, BitVec.add_assoc]

private theorem advance_fetched (m : Machine σ) (opcode : Byte) :
    (m.fetched opcode).advance m.p 1 =
      { m with r := m.r.set m.p (m.counter + 2), i := opcode.high, n := opcode.low } := by
  have counter : m.counter + 1 + 1 = m.counter + 2 := BitVec.add_assoc ..
  rw [advance, register_fetched, counter]
  simp only [setRegister, fetched, advance, Bank.set_set]

variable [Bus σ] {m : Machine σ}

theorem step_of_shift {direction : Alu.Direction} {ring : Bool}
    (shifts : m.instruction = .shift direction ring) :
    m.step.result = .ok () ∧
      m.step.state = m.passed 1 1 (Alu.shift direction ring m.accumulator) m.atCounter.high
        m.atCounter.low := by
  rw [step_of_ne_saveContext m (by rw [shifts]; exact nofun), completed, shifts]
  exact ⟨rfl, rfl⟩

theorem step_of_compute_pointer {op : Alu.Operation}
    (computes : m.instruction = .compute op .pointer) :
    m.step.result = .ok () ∧
      m.step.state = m.passed 1 1 (op.apply m.accumulator (m.fetched m.atCounter).atPointer)
        m.atCounter.high m.atCounter.low := by
  rw [step_of_ne_saveContext m (by rw [computes]; exact nofun), completed, computes]
  exact ⟨rfl, rfl⟩

theorem step_of_compute_immediate {op : Alu.Operation}
    (computes : m.instruction = .compute op .immediate) :
    m.step.result = .ok () ∧
      m.step.state = m.passed 2 1 (op.apply m.accumulator (m.read (m.counter + 1)))
        m.atCounter.high m.atCounter.low := by
  have executed : (m.fetched m.atCounter).execute (.compute op .immediate) =
      ((m.fetched m.atCounter).advance m.p 1).setAccumulator
        (op.apply m.accumulator (m.fetched m.atCounter).atCounter) := rfl
  rw [atCounter_fetched, advance_fetched] at executed
  rw [step_of_ne_saveContext m (by rw [computes]; exact nofun), completed, computes, executed]
  exact ⟨rfl, rfl⟩

/-- So does a load that steps on the register it loads through, where this is the program
counter. -/
theorem step_of_inline_load
    (loads : m.instruction = .loadAdvance m.p ∨ m.instruction = .popAdvance ∧ m.x = m.p) :
    m.step.result = .ok () ∧
      m.step.state = m.passed 2 1 ⟨m.read (m.counter + 1), m.df⟩ m.atCounter.high
        m.atCounter.low := by
  have executed : (m.fetched m.atCounter).execute m.instruction =
      ((m.fetched m.atCounter).advance m.p 1).setD (m.read (m.counter + 1)) := by
    rcases loads with named | ⟨pops, inline⟩
    · rw [named, ← register_fetched m m.atCounter]
      rfl
    · rw [pops, ← atPointer_fetched_of_inline inline, ← inline]
      rfl
  have completes : m.instruction ≠ .saveContext := by
    rcases loads with named | ⟨pops, -⟩
    · rw [named]
      exact nofun
    · rw [pops]
      exact nofun
  rw [advance_fetched] at executed
  rw [step_of_ne_saveContext m completes, completed, executed]
  exact ⟨rfl, rfl⟩

end Machine

end Cosmac
