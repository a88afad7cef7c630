import Cosmac.Machine.Execute

/-!
One step fetches the opcode at the program counter, moves the counter past it, latches the two
digits and executes. A run repeats steps and ends early with the first refusal. Main statements:
a step is refused exactly when the instruction saves context; a run of no steps does nothing, and
a run of one more step is a step and the rest of the run.
-/

set_option autoImplicit false
set_option relaxedAutoImplicit false

namespace Cosmac.Machine

open Isa

variable {σ : Type}

/-- The machine after an opcode was fetched: the counter stands behind it, and its digits are
latched. -/
def fetched (m : Machine σ) (opcode : Byte) : Machine σ :=
  { m.advance m.p 1 with i := opcode.high, n := opcode.low }

private theorem counter_fetched_sub_one (m : Machine σ) (opcode : Byte) :
    (m.fetched opcode).counter - 1 = m.counter := by
  have counter : (m.fetched opcode).counter = m.counter + 1 := m.r.get_set_self m.p _
  rw [counter, BitVec.add_sub_cancel]

variable [Bus σ]

/-- The record of a byte that an instruction moved over the bus, where it left one there. -/
def transfers (instruction : Instruction) (after : Machine σ) : List Record :=
  match instruction with
  | .output device => [.sent device after.bus]
  | .input device => [.received device after.bus]
  | _ => []

def notice (address : Word) (opcode : Byte) (after : Machine σ) : List Event :=
  if after.observed then [⟨address, opcode, after.toRegisters, after.bus⟩] else []

/-- Executes the instruction at the program counter. Saving context is refused after the fetch, and
the refusal is reported for the place before the counter; every other instruction completes, is
counted and shown to the observer. -/
def step (m : Machine σ) : Outcome Unit (Machine σ) :=
  let address := m.counter
  let opcode := m.atCounter
  let instruction := Instruction.ofByte opcode
  if instruction = .saveContext then
    let refused := m.fetched opcode
    let mnemonic := (Isa.info opcode).mnemonic
    { result := .error (.unsupported opcode mnemonic)
      state := refused
      log := [.fetched address opcode, .refused (refused.counter - 1) mnemonic] }
  else
    let executed := (m.fetched opcode).execute instruction
    let after := { executed with count := executed.count + 1 }
    { result := .ok ()
      state := after
      log := .fetched address opcode :: transfers instruction after
      events := notice address opcode after }

def instruction (m : Machine σ) : Instruction := Instruction.ofByte m.atCounter

theorem step_of_saveContext (m : Machine σ) (h : m.instruction = .saveContext) :
    m.step =
      { result := .error (.unsupported m.atCounter (Isa.info m.atCounter).mnemonic)
        state := m.fetched m.atCounter
        log := [.fetched m.counter m.atCounter,
          .refused m.counter (Isa.info m.atCounter).mnemonic] } := by
  simp only [step, ← instruction.eq_def, h, if_true, counter_fetched_sub_one]

def completed (m : Machine σ) : Machine σ :=
  let executed := (m.fetched m.atCounter).execute m.instruction
  { executed with count := executed.count + 1 }

theorem step_of_ne_saveContext (m : Machine σ) (h : m.instruction ≠ .saveContext) :
    m.step =
      { result := .ok ()
        state := m.completed
        log := .fetched m.counter m.atCounter :: transfers m.instruction m.completed
        events := notice m.counter m.atCounter m.completed } := by
  simp only [step, completed, ← instruction.eq_def, h, if_false]

/-- Repeats steps: `remaining` are still to do, `completed` are done and have left `log` and
`events`. -/
def runFrom (remaining completed : Nat) (m : Machine σ) (log : Array Record)
    (events : Array Event) : Outcome Nat (Machine σ) :=
  match remaining with
  | 0 =>
    { result := .ok completed, state := m, log := log.toList, events := events.toList }
  | remaining + 1 =>
    let stepped := m.step
    let log := log ++ stepped.log
    let events := events ++ stepped.events
    match stepped.result with
    | .ok () => runFrom remaining (completed + 1) stepped.state log events
    | .error fault =>
      { result := .error fault
        state := stepped.state
        log := (log.push (.stopped completed fault)).toList
        events := events.toList }

/-- Executes `limit` instructions and answers their number, unless one is refused before. -/
def run (m : Machine σ) (limit : Nat) : Outcome Nat (Machine σ) :=
  runFrom limit 0 m #[] #[]

private theorem runFrom_eq_after (remaining completed : Nat) (m : Machine σ) (log : Array Record)
    (events : Array Event) :
    runFrom remaining completed m log events =
      (runFrom remaining completed m #[] #[]).after log.toList events.toList := by
  induction remaining generalizing completed m log events with
  | zero => simp [runFrom, Outcome.after]
  | succ remaining ih =>
    simp only [runFrom]
    cases m.step.result with
    | ok _ =>
      simp only
      rw [ih, ih _ _ (#[] ++ m.step.log), Outcome.after_after]
      simp
    | error fault => simp [Outcome.after]

theorem runFrom_succ (remaining completed : Nat) (m : Machine σ) :
    runFrom (remaining + 1) completed m #[] #[] =
      match m.step.result with
      | .ok () =>
        (runFrom remaining (completed + 1) m.step.state #[] #[]).after m.step.log m.step.events
      | .error fault =>
        { result := .error fault
          state := m.step.state
          log := m.step.log ++ [.stopped completed fault]
          events := m.step.events } := by
  rw [runFrom]
  cases m.step.result with
  | ok _ =>
    simp only
    rw [runFrom_eq_after]
    simp
  | error fault => simp

@[simp] theorem run_zero (m : Machine σ) : m.run 0 = .done 0 m := rfl

end Cosmac.Machine
