import Cosmac.Bus.Folded
import Cosmac.Proofs.Machine.Inputs

/-!
The log of a run, read beside its execution. Each step that a run attempts has lines of its own,
told by the opcode at the counter and by what the step leaves. Main statement: the log of a run
holds the lines of its steps in their order, and one more if the run was stopped; without the step
that stopped it they name the same opcodes at the same addresses as the observer's events.
-/

set_option autoImplicit false
set_option relaxedAutoImplicit false

namespace Cosmac

open Text Isa

namespace Record

def line (record : Record) : Level × String := (record.level, record.text)

def fetch? : Record → Option (Word × Byte)
  | .fetched address opcode => some (address, opcode)
  | _ => none

end Record

namespace Machine

variable {σ : Type} [Bus σ]

/-- The line of the byte that the step from here moves between memory and a device. -/
def transferLines (m : Machine σ) : List (Level × String) :=
  if 0x61 ≤ m.atCounter ∧ m.atCounter ≤ 0x67 then
    [(.trace, s!"OUT {m.atCounter.toNat % 8}: bus=0x{Hex.byte m.step.state.bus}")]
  else if 0x69 ≤ m.atCounter ∧ m.atCounter ≤ 0x6F then
    [(.trace, s!"INP {m.atCounter.toNat % 8}: bus=0x{Hex.byte m.step.state.d}")]
  else []

/-- The lines of the step from here: what is fetched from where, the byte that is moved, and the
refusal if it comes to that. -/
def stepLines (m : Machine σ) : List (Level × String) :=
  let name := (info m.atCounter).mnemonic
  let refusal := match m.step.result with
    | .ok _ => []
    | .error _ => [(.warn, s!"unsupported instruction {name} at 0x{Hex.word m.counter}")]
  (.trace, s!"{Hex.word m.counter}: {Hex.byte m.atCounter} {name}") :: m.transferLines ++ refusal

/-! ### One step -/

private theorem ofByte_of_neither : ∀ b : Byte, ¬(0x61 ≤ b ∧ b ≤ 0x67) → ¬(0x69 ≤ b ∧ b ≤ 0x6F) →
    (Instruction.ofByte b).sends = false ∧ (Instruction.ofByte b).receives = false := by
  decide +kernel

private theorem step_of_receives {m : Machine σ} (receives : m.instruction.receives = true) :
    m.step.state.bus = m.bus ∧ m.step.state.d = m.bus ∧
      m.step.state.memory = Bus.write m.memory (m.fetched m.atCounter).pointer m.bus := by
  obtain ⟨device, input⟩ := Instruction.exists_eq_input_of_receives receives
  have completes : m.instruction ≠ .saveContext := by
    rw [input]
    exact Instruction.noConfusion
  rw [step_of_ne_saveContext m completes]
  unfold completed
  rw [input]
  exact ⟨rfl, rfl, rfl⟩

private theorem bus_step_of_sends {m : Machine σ} (sends : m.instruction.sends = true) :
    m.step.state.bus = (m.fetched m.atCounter).atPointer := by
  obtain ⟨device, output⟩ := Instruction.exists_eq_output_of_sends sends
  have completes : m.instruction ≠ .saveContext := by
    rw [output]
    exact Instruction.noConfusion
  rw [step_of_ne_saveContext m completes]
  unfold completed
  rw [output]
  rfl

private theorem map_line_transfers (m : Machine σ) :
    (transfers m.instruction m.step.state).map Record.line = m.transferLines := by
  have device : (m.atCounter.setWidth 3).toNat = m.atCounter.toNat % 8 := BitVec.toNat_setWidth ..
  unfold transferLines
  split
  case isTrue sends =>
    have output : m.instruction = .output (m.atCounter.setWidth 3) := ofByte_of_output _ sends
    rw [output, ← device]
    rfl
  case isFalse keeps =>
    split
    case isTrue receives =>
      have input : m.instruction = .input (m.atCounter.setWidth 3) := ofByte_of_input _ receives
      obtain ⟨bus, d, -⟩ := step_of_receives (m := m) (by rw [input]; rfl)
      rw [input, ← device, d, ← bus]
      rfl
    case isFalse ignores =>
      obtain ⟨silent, deaf⟩ := ofByte_of_neither m.atCounter keeps ignores
      cases kind : m.instruction with
      | output | input =>
        rw [← instruction.eq_def, kind] at silent deaf
        contradiction
      | _ => rfl

private theorem map_line_log_step (m : Machine σ) : m.step.log.map Record.line = m.stepLines := by
  have moved := m.map_line_transfers
  unfold stepLines
  by_cases saves : m.instruction = .saveContext
  · rw [saves] at moved
    rw [step_of_saveContext m saves, ← moved]
    rfl
  · rw [step_of_ne_saveContext m saves] at moved ⊢
    rw [List.map_cons, moved]
    exact (List.append_nil _).symm

/-! ### Runs -/

def stops (completed : Nat) : Except Fault Nat → List Record
  | .ok _ => []
  | .error fault => [.stopped completed fault]

private theorem map_later_stops (completed : Nat) (result : Except Fault Nat) :
    (stops completed result).map (.later 1) = stops (1 + completed) (result.map (1 + ·)) := by
  cases result <;> rfl

theorem log_run (m : Machine σ) (limit : Nat) :
    (m.run limit).log =
      (m.attempts limit).flatMap (·.step.log) ++
        stops (completing (m.attempts limit)).length (m.run limit).result := by
  induction limit generalizing m with
  | zero => rfl
  | succ n ih =>
    cases result : m.step.result with
    | ok _ =>
      have logs (s : Machine σ) : List.map (.later 1) s.step.log = s.step.log :=
        map_later_log_step s 1
      rw [run_succ_of_ok result, attempts_succ_of_ok result, ← List.singleton_append,
        completing_append, completing_singleton_of_ok result]
      show m.step.log ++ (m.step.state.run n).log.map (.later 1) = _
      rw [ih, List.map_append, map_later_stops, List.map_flatMap]
      simp only [logs, List.flatMap_append, List.flatMap_singleton, List.append_assoc,
        List.length_append, List.length_singleton]
      rfl
    | error fault =>
      rw [run_succ_of_error result, attempts_succ_of_error result,
        completing_singleton_of_error result, List.flatMap_singleton]
      rfl

private theorem completing_attempts (m : Machine σ) (limit : Nat) :
    completing (m.attempts limit) =
      match (m.run limit).result with
      | .ok _ => m.attempts limit
      | .error _ => (m.attempts limit).dropLast := by
  induction limit generalizing m with
  | zero => rfl
  | succ n ih =>
    cases result : m.step.result with
    | ok _ =>
      rw [attempts_succ_of_ok result, run_succ_of_ok result, ← List.singleton_append,
        completing_append, completing_singleton_of_ok result, ih]
      show _ = match Except.map (1 + ·) (m.step.state.run n).result with
        | .ok _ => _
        | .error _ => _
      cases rest : (m.step.state.run n).result with
      | ok done => rfl
      | error fault =>
        have more : m.step.state.attempts n ≠ [] := by
          cases n with
          | zero => contradiction
          | succ k => exact List.cons_ne_nil _ _
        exact (List.dropLast_append_of_ne_nil more).symm
    | error fault =>
      rw [attempts_succ_of_error result, run_succ_of_error result,
        completing_singleton_of_error result]
      rfl

private theorem filterMap_fetch?_log_step (m : Machine σ) :
    m.step.log.filterMap Record.fetch? = [(m.counter, m.atCounter)] := by
  by_cases saves : m.instruction = .saveContext
  · rw [step_of_saveContext m saves]
    rfl
  · rw [step_of_ne_saveContext m saves]
    cases m.instruction <;> rfl

private theorem filterMap_fetch?_log_run (m : Machine σ) (limit : Nat) :
    (m.run limit).log.filterMap Record.fetch? =
      (m.attempts limit).map fun s => (s.counter, s.atCounter) := by
  have last (completed : Nat) (result : Except Fault Nat) :
      (stops completed result).filterMap Record.fetch? = [] := by
    cases result <;> rfl
  rw [log_run, List.filterMap_append, last, List.append_nil, List.filterMap_flatMap]
  simp only [filterMap_fetch?_log_step]
  exact List.map_eq_flatMap.symm

private theorem map_events_run_of_observed {m : Machine σ} (watched : m.observed = true)
    (limit : Nat) :
    (m.run limit).events.map (fun event => (event.address, event.opcode)) =
      (completing (m.attempts limit)).map fun s => (s.counter, s.atCounter) := by
  rw [events_run_of_observed watched, List.map_map]
  rfl

/-- The log of a run and its execution agree. The log holds the lines of the steps that the run
attempts, one after the other, and if one of them is refused, at the end how many were completed
and why the run stopped. The byte told of an `INP` is the one in `D` and in memory. The fetches in
the log, without that of a refused step, are the ones that an observer is told of. -/
theorem run_log_eq_steps (m : Machine σ) (limit : Nat) :
    let outcome := m.run limit
    let steps := m.attempts limit
    let fetches := outcome.log.filterMap Record.fetch?
    (outcome.log.map Record.line =
      steps.flatMap stepLines ++
        match outcome.result with
        | .ok _ => []
        | .error fault =>
          let completed := (completing steps).length
          [(.debug, s!"run stopped after {completed} instructions: {fault.message}")]) ∧
      (∀ s ∈ steps, s.Executes ["INP"] →
        s.step.state.d = s.bus ∧
          s.step.state.memory = Bus.write s.memory (s.fetched s.atCounter).pointer s.bus) ∧
      (∀ s ∈ steps, s.Executes ["OUT"] →
        s.step.state.bus = (s.fetched s.atCounter).atPointer) ∧
      (m.observed = true →
        outcome.events.map (fun event => (event.address, event.opcode)) =
          match outcome.result with
          | .ok _ => fetches
          | .error _ => fetches.dropLast) := by
  intro outcome steps fetches
  refine ⟨?lines, ?taken, ?sent, ?events⟩
  case lines =>
    show (m.run limit).log.map Record.line = _
    rw [log_run, List.map_append, List.map_flatMap]
    simp only [map_line_log_step]
    congr 1
    cases outcome.result <;> rfl
  case taken =>
    intro s _ receives
    exact (step_of_receives ((Instruction.receives_ofByte_iff s.atCounter).mpr receives)).2
  case sent =>
    intro s _ sends
    exact bus_step_of_sends ((Instruction.sends_ofByte_iff s.atCounter).mpr sends)
  case events =>
    intro watched
    have listed : fetches = steps.map fun s => (s.counter, s.atCounter) :=
      filterMap_fetch?_log_run m limit
    rw [map_events_run_of_observed watched, completing_attempts, listed]
    cases outcome.result with
    | ok done => rfl
    | error fault => exact List.map_dropLast ..

/-- A byte sent from the last address, and a refusal after the counter has wrapped around. -/
theorem run_log_eq_steps_of_wrap :
    let program := Bus.writeEach Bus.write (Bus.Folded.zero 16) 0xFFFE [0x61, 0xC3, 0x79]
    let m := { (Machine.new program).setCounter 0xFFFE with observed := true }
    let outcome := m.run 5
    outcome.log.map Record.line =
        [(.trace, "FFFE: 61 OUT"), (.trace, "OUT 1: bus=0xC3"), (.trace, "0000: 79 MARK"),
          (.warn, "unsupported instruction MARK at 0x0000"),
          (.debug, "run stopped after 1 instructions: instruction MARK (0x79) is not supported")] ∧
      (∃ s ∈ m.attempts 5, s.Executes ["OUT"] ∧
        s.step.state.bus = (s.fetched s.atCounter).atPointer) ∧
      outcome.events.map (fun event => (event.address, event.opcode)) = [(0xFFFE, 0x61)] := by
  intro program m outcome
  obtain ⟨-, -, sent, events⟩ := run_log_eq_steps m 5
  have log : outcome.log =
      [.fetched 0xFFFE 0x61, .sent 1 0xC3, .fetched 0 0x79, .refused 0 "MARK",
        .stopped 1 (.unsupported 0x79 "MARK")] := by
    decide +kernel
  have first : m ∈ m.attempts 5 := List.mem_cons_self
  have sends : m.Executes ["OUT"] := by decide +kernel
  have watched : m.observed = true := rfl
  have refused : outcome.result = .error (.unsupported 0x79 "MARK") := by decide +kernel
  refine ⟨?_, ⟨m, first, sends, sent m first sends⟩, ?_⟩
  · rw [log]
    decide +kernel
  · rw [events watched, log, refused]
    rfl

end Machine

end Cosmac
