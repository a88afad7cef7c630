import Cosmac.Machine.Step

/-!
A run is its first step followed by a run of the machine that this step leaves, with the steps
counted on. Main statements: one equation for a run whose first step completes and one for a run
whose first step is refused; between them they give every result, state, record and event. What
every attempted step keeps, the run keeps.
-/

set_option autoImplicit false
set_option relaxedAutoImplicit false

namespace Cosmac

/-- A record as it reads when some instructions were completed before. -/
def Record.later (before : Nat) : Record → Record
  | .stopped completed fault => .stopped (before + completed) fault
  | record => record

theorem Record.later_later (before earlier : Nat) (record : Record) :
    (record.later before).later earlier = record.later (earlier + before) := by
  cases record <;> simp [later, Nat.add_assoc]

namespace Outcome

variable {σ : Type}

def later (before : Nat) (outcome : Outcome Nat σ) : Outcome Nat σ :=
  { outcome with
    result := outcome.result.map (before + ·)
    log := outcome.log.map (.later before) }

theorem later_later (before earlier : Nat) (outcome : Outcome Nat σ) :
    (outcome.later before).later earlier = outcome.later (earlier + before) := by
  cases outcome with | mk result state log events =>
  cases result <;>
    simp [later, Except.map, Function.comp_def, Record.later_later, Nat.add_assoc]

theorem later_after (before : Nat) (log : List Record) (events : List Event)
    (outcome : Outcome Nat σ) :
    (outcome.after log events).later before =
      (outcome.later before).after (log.map (.later before)) events := by
  simp only [later, after, List.map_append]

end Outcome

namespace Machine

open Isa

variable {σ : Type} [Bus σ]

/-- The machine before each step that a run of so many steps attempts. -/
def attempts (m : Machine σ) : Nat → List (Machine σ)
  | 0 => []
  | n + 1 =>
    m :: match m.step.result with
      | .ok () => m.step.state.attempts n
      | .error _ => []

theorem attempts_succ_of_ok {m : Machine σ} (ok : m.step.result = .ok ()) (n : Nat) :
    m.attempts (n + 1) = m :: m.step.state.attempts n := by
  rw [attempts, ok]

theorem attempts_succ_of_error {m : Machine σ} {fault : Fault}
    (error : m.step.result = .error fault) (n : Nat) : m.attempts (n + 1) = [m] := by
  rw [attempts, error]

theorem attempts_one (m : Machine σ) : m.attempts 1 = [m] := by
  cases result : m.step.result with
  | ok _ => exact attempts_succ_of_ok result 0
  | error fault => exact attempts_succ_of_error result 0

theorem map_later_log_step (m : Machine σ) (before : Nat) :
    m.step.log.map (.later before) = m.step.log := by
  by_cases refused : m.instruction = .saveContext
  · rw [step_of_saveContext m refused]
    rfl
  · rw [step_of_ne_saveContext m refused]
    cases m.instruction <;> rfl

private theorem runFrom_eq_later (remaining completed : Nat) (m : Machine σ) :
    runFrom remaining completed m #[] #[] = (m.run remaining).later completed := by
  unfold run
  induction remaining generalizing completed m with
  | zero => rfl
  | succ remaining ih =>
    rw [runFrom_succ, runFrom_succ]
    cases result : m.step.result with
    | ok _ =>
      simp only
      rw [ih (completed + 1), ih (0 + 1), Outcome.later_after, Outcome.later_later,
        map_later_log_step]
    | error fault =>
      simp only [Outcome.later, List.map_append, map_later_log_step]
      rfl

theorem run_succ_of_ok {m : Machine σ} (ok : m.step.result = .ok ()) (n : Nat) :
    m.run (n + 1) = ((m.step.state.run n).later 1).after m.step.log m.step.events := by
  rw [run, runFrom_succ, ok]
  simp only
  rw [runFrom_eq_later]

theorem run_succ_of_error {m : Machine σ} {fault : Fault} (error : m.step.result = .error fault)
    (n : Nat) :
    m.run (n + 1) =
      { result := .error fault
        state := m.step.state
        log := m.step.log ++ [.stopped 0 fault]
        events := m.step.events } := by
  rw [run, runFrom_succ, error]

/-- What every attempted step keeps holds before each of them and after the run. -/
theorem forall_attempts_of_step (kept : Machine σ → Prop) {m : Machine σ} {limit : Nat}
    (start : kept m) (step : ∀ s ∈ m.attempts limit, kept s → kept s.step.state) :
    (∀ s ∈ m.attempts limit, kept s) ∧ kept (m.run limit).state := by
  induction limit generalizing m with
  | zero => exact ⟨fun s none => absurd none List.not_mem_nil, start⟩
  | succ n ih =>
    have next : kept m.step.state := step m List.mem_cons_self start
    cases result : m.step.result with
    | ok _ =>
      rw [attempts_succ_of_ok result] at step ⊢
      rw [run_succ_of_ok result]
      obtain ⟨before, after⟩ := ih next fun s member => step s (List.mem_cons_of_mem m member)
      exact ⟨List.forall_mem_cons.mpr ⟨start, before⟩, after⟩
    | error fault =>
      rw [attempts_succ_of_error result, run_succ_of_error result]
      exact ⟨List.forall_mem_singleton.mpr start, next⟩

theorem state_run_of_getLast? {m last : Machine σ} {limit : Nat}
    (ends : (m.attempts limit).getLast? = some last) : (m.run limit).state = last.step.state := by
  induction limit generalizing m with
  | zero => contradiction
  | succ n ih =>
    cases result : m.step.result with
    | ok _ =>
      rw [attempts_succ_of_ok result] at ends
      rw [run_succ_of_ok result]
      cases n with
      | zero =>
        obtain rfl : m = last := Option.some.inj ends
        rfl
      | succ n =>
        rw [List.getLast?_cons_of_ne_nil (by simp [attempts])] at ends
        exact ih ends
    | error fault =>
      rw [attempts_succ_of_error result] at ends
      obtain rfl : m = last := Option.some.inj ends
      rw [run_succ_of_error result]

end Machine

end Cosmac
