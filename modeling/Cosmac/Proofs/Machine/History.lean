import Cosmac.Proofs.Machine.Latent
import Cosmac.Proofs.Machine.Session
import Cosmac.Proofs.Machine.Steps
import Mathlib.Data.List.Chain

/-!
What count and observer tell of the steps that were taken. A session is seen as the row of steps
that its commands attempt, each given by the machine before it. Main statement: the count is the
number of steps that completed, and an observer is told of every one of them that completes while
it is installed, of no other step, in their order, and with the state on either side of the step.
-/

set_option autoImplicit false
set_option relaxedAutoImplicit false

namespace Cosmac.Machine

variable {σ : Type} [Bus σ]

def attempted (m : Machine σ) : Command → List (Machine σ)
  | .step => m.attempts 1
  | .run limit => m.attempts limit
  | _ => []

def attemptedIn (m : Machine σ) : List Command → List (Machine σ)
  | [] => []
  | command :: rest => m.attempted command ++ (m.perform command).state.attemptedIn rest

def afterSession (m : Machine σ) : List Command → Machine σ
  | [] => m
  | command :: rest => (m.perform command).state.afterSession rest

def completing (steps : List (Machine σ)) : List (Machine σ) :=
  steps.filter fun m => m.step.result = .ok ()

/-- The event of a step: the opcode and its address as they are before, the registers and the bus
as they are after. -/
def event (m : Machine σ) : Event where
  address := m.counter
  opcode := m.atCounter
  registers := m.step.state.toRegisters
  bus := m.step.state.bus

/-- The events of the steps that complete before the eyes of an observer. -/
def shown (steps : List (Machine σ)) : List Event :=
  ((completing steps).filter (·.observed)).map event

@[simp] theorem completing_append (steps more : List (Machine σ)) :
    completing (steps ++ more) = completing steps ++ completing more :=
  List.filter_append ..

@[simp] theorem shown_append (steps more : List (Machine σ)) :
    shown (steps ++ more) = shown steps ++ shown more := by
  simp only [shown, completing_append, List.filter_append, List.map_append]

/-! ### One step -/

theorem completing_singleton_of_ok {m : Machine σ} (ok : m.step.result = .ok ()) :
    completing [m] = [m] := by
  simp [completing, ok]

theorem completing_singleton_of_error {m : Machine σ} {fault : Fault}
    (error : m.step.result = .error fault) : completing [m] = [] := by
  simp [completing, error]

theorem latent_step_of_ok {m : Machine σ} (ok : m.step.result = .ok ()) :
    m.step.state.latent =
      { m.latent with n := m.atCounter.low, i := m.atCounter.high, count := m.count + 1 } := by
  let executed := (m.fetched m.atCounter).execute m.instruction
  have kept : executed.latent = (m.fetched m.atCounter).latent := latent_execute _ _
  rw [step_of_ok ok]
  show { executed.latent with count := executed.latent.count + 1 } = _
  rw [kept]
  rfl

private theorem shown_singleton {m : Machine σ} (ok : m.step.result = .ok ())
    (watched : m.observed = true) :
    shown [m] = [m.event] := by
  rw [shown, completing_singleton_of_ok ok, List.filter_singleton, watched]
  rfl

theorem count_step (m : Machine σ) :
    m.step.state.count = m.count + .ofNat 64 (completing [m]).length := by
  cases result : m.step.result with
  | ok _ =>
    rw [count_step_of_ok result, completing_singleton_of_ok result]
    rfl
  | error fault =>
    rw [(count_step_of_error result).1, completing_singleton_of_error result]
    exact (BitVec.add_zero _).symm

theorem events_step (m : Machine σ) : m.step.events = shown [m] := by
  cases result : m.step.result with
  | ok _ =>
    have stays : m.step.state.observed = m.observed :=
      congrArg Latent.observed (latent_step_of_ok result)
    have noticed : m.step.events = notice m.counter m.atCounter m.step.state := by
      rw [step_of_ok result]
    rw [noticed, notice, stays, shown, completing_singleton_of_ok result]
    cases watched : m.observed <;> simp [watched, event]
  | error fault =>
    rw [(count_step_of_error result).2, shown, completing_singleton_of_error result]
    rfl

/-! ### Runs -/

theorem count_run (m : Machine σ) (limit : Nat) :
    (m.run limit).state.count = m.count + .ofNat 64 (completing (m.attempts limit)).length := by
  induction limit generalizing m with
  | zero => exact (BitVec.add_zero _).symm
  | succ n ih =>
    cases result : m.step.result with
    | ok _ =>
      rw [run_succ_of_ok result, attempts_succ_of_ok result, ← List.singleton_append,
        completing_append, List.length_append, BitVec.ofNat_add, ← BitVec.add_assoc, ← count_step]
      exact ih m.step.state
    | error fault =>
      rw [run_succ_of_error result, attempts_succ_of_error result]
      exact count_step m

theorem events_run (m : Machine σ) (limit : Nat) :
    (m.run limit).events = shown (m.attempts limit) := by
  induction limit generalizing m with
  | zero => rfl
  | succ n ih =>
    cases result : m.step.result with
    | ok _ =>
      rw [run_succ_of_ok result, attempts_succ_of_ok result, ← List.singleton_append, shown_append,
        ← events_step, ← ih]
      rfl
    | error fault =>
      rw [run_succ_of_error result, attempts_succ_of_error result, ← events_step]

private theorem observed_step (m : Machine σ) : m.step.state.observed = m.observed := by
  by_cases saves : m.instruction = .saveContext
  · rw [step_of_saveContext m saves]
    rfl
  · rw [step_of_ne_saveContext m saves]
    exact observed_execute _ _

theorem observed_run (m : Machine σ) (limit : Nat) :
    (∀ s ∈ m.attempts limit, s.observed = m.observed) ∧
      (m.run limit).state.observed = m.observed :=
  forall_attempts_of_step (fun s => s.observed = m.observed) rfl fun s _ listens =>
    s.observed_step.trans listens

theorem events_run_of_observed {m : Machine σ} (watched : m.observed = true) (limit : Nat) :
    (m.run limit).events = (completing (m.attempts limit)).map event := by
  have all : (completing (m.attempts limit)).filter (·.observed) =
      completing (m.attempts limit) := by
    refine List.filter_eq_self.mpr fun s member => ?_
    rw [(m.observed_run limit).1 s (List.mem_of_mem_filter member), watched]
  rw [events_run, shown, all]

private theorem events_run_of_unobserved {m : Machine σ} (absent : m.observed = false)
    (limit : Nat) :
    (m.run limit).events = [] := by
  have none : (completing (m.attempts limit)).filter (·.observed) = [] := by
    refine List.filter_eq_nil_iff.mpr fun s member => ?_
    rw [(m.observed_run limit).1 s (List.mem_of_mem_filter member), absent]
    exact Bool.false_ne_true
  rw [events_run, shown, none, List.map_nil]

private theorem address_of_head?_events {m : Machine σ} {limit : Nat} {first : Event}
    (head : first ∈ (m.run limit).events.head?) : first.address = m.counter := by
  cases watched : m.observed with
  | false =>
    rw [events_run_of_unobserved watched] at head
    contradiction
  | true =>
    cases limit with
    | zero => contradiction
    | succ n =>
      rw [events_run] at head
      cases result : m.step.result with
      | ok _ =>
        rw [attempts_succ_of_ok result, ← List.singleton_append, shown_append,
          shown_singleton result watched] at head
        obtain rfl : m.event = first := Option.some.inj head
        rfl
      | error fault =>
        rw [attempts_succ_of_error result, shown, completing_singleton_of_error result] at head
        contradiction

private theorem isChain_events_run (m : Machine σ) (limit : Nat) :
    (m.run limit).events.IsChain fun e next => next.address = e.registers.counter := by
  induction limit generalizing m with
  | zero => exact .nil
  | succ n ih =>
    cases watched : m.observed with
    | false =>
      rw [events_run_of_unobserved watched]
      exact .nil
    | true =>
      cases result : m.step.result with
      | ok _ =>
        rw [run_succ_of_ok result]
        show (m.step.events ++ (m.step.state.run n).events).IsChain _
        rw [events_step, shown_singleton result watched, List.singleton_append]
        exact List.isChain_cons.mpr ⟨fun next head => address_of_head?_events head, ih _⟩
      | error fault =>
        rw [run_succ_of_error result, events_step, shown, completing_singleton_of_error result]
        exact .nil

/-! ### Sessions -/

private theorem count_perform (m : Machine σ) (command : Command) :
    (m.perform command).state.count =
      m.count + .ofNat 64 (completing (m.attempted command)).length := by
  cases command with
  | step =>
    rw [attempted, attempts_one]
    exact count_step m
  | run limit => exact count_run m limit
  | _ => exact (BitVec.add_zero _).symm

private theorem events_perform (m : Machine σ) (command : Command) :
    (m.perform command).events = shown (m.attempted command) := by
  cases command with
  | step =>
    rw [attempted, attempts_one]
    exact events_step m
  | run limit => exact events_run m limit
  | _ => rfl

private theorem count_afterSession (m : Machine σ) (commands : List Command) :
    (m.afterSession commands).count =
      m.count + .ofNat 64 (completing (m.attemptedIn commands)).length := by
  induction commands generalizing m with
  | nil => exact (BitVec.add_zero _).symm
  | cons command rest ih =>
    rw [afterSession, ih, count_perform, attemptedIn, completing_append, List.length_append,
      BitVec.ofNat_add, BitVec.add_assoc]

private theorem events_session (m : Machine σ) (commands : List Command) :
    (m.session commands).flatMap (·.events) = shown (m.attemptedIn commands) := by
  induction commands generalizing m with
  | nil => rfl
  | cons command rest ih =>
    rw [session, List.flatMap_cons, ih, events_perform, attemptedIn, shown_append]

/-- Count and observer tell the history of a session. The count is the number of steps completed so
far; the observer is told, in order, of each step that completed while it was installed, with the
opcode and its address from before the step and the registers and bus from after it; the digits in
those registers are the opcode's, and within a run each opcode lies where the counter was left. -/
theorem session_history (memory : σ) (commands : List Command) :
    let m := Machine.new memory
    let completed := (m.attemptedIn commands).filter fun s => s.step.result = .ok ()
    (m.afterSession commands).count = .ofNat 64 completed.length ∧
      (m.session commands).flatMap (·.events) =
        ((completed.filter (·.observed)).map fun s =>
          { address := s.counter
            opcode := s.read s.counter
            registers := s.step.state.toRegisters
            bus := s.step.state.bus }) ∧
      (∀ s ∈ completed, s.step.state.i = (s.read s.counter).high ∧
        s.step.state.n = (s.read s.counter).low) ∧
      ∀ (s : Machine σ) (limit : Nat),
        (s.run limit).events.IsChain fun e next => next.address = e.registers.r.get e.registers.p := by
  intro m completed
  refine ⟨?count, events_session m commands, ?digits, isChain_events_run⟩
  case count =>
    rw [count_afterSession]
    exact BitVec.zero_add _
  case digits =>
    intro s member
    have latched := latent_step_of_ok (of_decide_eq_true (List.mem_filter.mp member).2)
    exact ⟨congrArg Latent.i latched, congrArg Latent.n latched⟩

/-- An observer that comes after the first step, sees two, and is told nothing of a refusal. -/
theorem session_history_of_late_observer :
    let memory := Bus.writeEach Bus.write Bus.Flat.zero 0 [0x7B, 0x11, 0xD1, 0x78]
    let m := Machine.new memory
    let commands : List Command :=
      [.setRegister 1 2, .step, .observe true, .run 2, .setCounter 3, .step, .observe false,
        .reset, .step]
    (m.afterSession commands).count = 4 ∧
      ((m.session commands).flatMap (·.events)).map (fun e => (e.address, e.opcode)) =
        [(1, 0x11), (2, 0xD1)] ∧
      m.step.result = .ok () ∧ m.step.state.i = 7 := by
  intro memory m commands
  obtain ⟨count, events, -, -⟩ := session_history memory commands
  obtain ⟨-, -, digits, -⟩ := session_history memory [.step]
  have four : (completing (m.attemptedIn commands)).length = 4 := by decide +kernel
  have opcode : m.read m.counter = 0x7B := by decide +kernel
  have completes : m.step.result = .ok () := by decide +kernel
  have attempted : m ∈ completing (m.attemptedIn [.step]) := by
    rw [attemptedIn, Machine.attempted, attempts_one, completing_append,
      completing_singleton_of_ok completes]
    exact List.mem_cons_self
  refine ⟨count.trans (congrArg (BitVec.ofNat 64) four), ?_, completes, ?_⟩
  · rw [events]
    decide +kernel
  · rw [(digits m attempted).1, opcode]
    rfl

end Cosmac.Machine
