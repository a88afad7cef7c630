import Cosmac.Proofs.Machine.Frame
import Cosmac.Proofs.Machine.Run

/-!
A run is a row of single steps. It goes on while steps complete, and the first step that is refused
ends it with that step's fault, after the fetch and before anything is counted or shown. Main
statement: result, state, count and events of a run are those of its steps, and a run that is
continued is one longer run.
-/

set_option autoImplicit false
set_option relaxedAutoImplicit false

namespace Cosmac

private theorem Outcome.later_zero {σ : Type} (outcome : Outcome Nat σ) :
    outcome.later 0 = outcome := by
  have record : Record.later 0 = id := by
    funext record
    cases record <;> simp [Record.later]
  cases outcome with | mk result state log events =>
  cases result <;> simp [later, Except.map, record]

namespace Machine

open Isa

variable {σ : Type} [Bus σ]

/-- The machine after so many single steps, whether these complete or are refused. -/
def stepped (m : Machine σ) : Nat → Machine σ
  | 0 => m
  | n + 1 => m.step.state.stepped n

theorem result_step (m : Machine σ) :
    m.step.result =
      if m.atCounter = 0x78 ∨ m.atCounter = 0x79 then
        .error (.unsupported m.atCounter (Isa.info m.atCounter).mnemonic)
      else .ok () := by
  have refused := Instruction.ofByte_eq_saveContext_iff m.atCounter
  by_cases saves : m.instruction = .saveContext
  · rw [step_of_saveContext m saves, if_pos (refused.mp saves)]
  · rw [step_of_ne_saveContext m saves, if_neg fun opcode => saves (refused.mpr opcode)]

theorem state_step_of_refused {m : Machine σ} (refused : m.atCounter = 0x78 ∨ m.atCounter = 0x79) :
    m.step.state =
        { m with
          r := m.r.set m.p (m.counter + 1)
          i := m.atCounter.high
          n := m.atCounter.low } ∧
      m.step.events = [] := by
  rw [step_of_saveContext m ((Instruction.ofByte_eq_saveContext_iff _).mpr refused)]
  exact ⟨rfl, rfl⟩

theorem step_of_ok {m : Machine σ} (ok : m.step.result = .ok ()) :
    m.step =
      { result := .ok ()
        state := m.completed
        log := .fetched m.counter m.atCounter :: transfers m.instruction m.completed
        events := notice m.counter m.atCounter m.completed } := by
  refine step_of_ne_saveContext m fun saves => ?_
  rw [step_of_saveContext m saves] at ok
  contradiction

theorem count_step_of_ok {m : Machine σ} (ok : m.step.result = .ok ()) :
    m.step.state.count = m.count + 1 := by
  rw [step_of_ok ok]
  exact congrArg (· + 1) (count_execute _ _)

theorem count_step_of_error {m : Machine σ} {fault : Fault} (error : m.step.result = .error fault) :
    m.step.state.count = m.count ∧ m.step.events = [] := by
  by_cases refused : m.atCounter = 0x78 ∨ m.atCounter = 0x79
  · obtain ⟨state, events⟩ := state_step_of_refused refused
    rw [state]
    exact ⟨rfl, events⟩
  · rw [result_step, if_neg refused] at error
    contradiction

/-- What comes of a run of at most `limit` steps from `m` on, `k` of which complete: these are
counted and shown, and the run ends with them, or with the step that is refused after them. -/
structure Accounts (m : Machine σ) (limit k : Nat) (outcome : Outcome Nat (Machine σ)) : Prop where
  within : k ≤ limit
  complete : ∀ i < k, (m.stepped i).step.result = .ok ()
  count : outcome.state.count = m.count + .ofNat 64 k
  events : outcome.events = (List.range k).flatMap fun i => (m.stepped i).step.events
  ends :
    (k = limit ∧ outcome.result = .ok limit ∧ outcome.state = m.stepped limit) ∨
      (k < limit ∧ ∃ fault, (m.stepped k).step.result = .error fault ∧
        outcome.result = .error fault ∧ outcome.state = m.stepped (k + 1))

private theorem Accounts.of_error {m : Machine σ} {fault : Fault}
    (error : m.step.result = .error fault) (n : Nat) : m.Accounts (n + 1) 0 (m.run (n + 1)) := by
  obtain ⟨count, events⟩ := count_step_of_error error
  rw [run_succ_of_error error]
  exact
    { within := Nat.zero_le _
      complete := fun i below => absurd below (Nat.not_lt_zero i)
      count := count.trans (BitVec.add_zero _).symm
      events := events
      ends := .inr ⟨Nat.succ_pos n, fault, error, rfl, rfl⟩ }

private theorem Accounts.succ_of_ok {m : Machine σ} (ok : m.step.result = .ok ()) {n k : Nat}
    (rest : m.step.state.Accounts n k (m.step.state.run n)) :
    m.Accounts (n + 1) (k + 1) (m.run (n + 1)) := by
  rw [run_succ_of_ok ok]
  refine
    { within := Nat.succ_le_succ rest.within
      complete := ?complete
      count := ?count
      events := ?events
      ends := ?ends }
  case complete =>
    intro i below
    cases i with
    | zero => exact ok
    | succ i => exact rest.complete i (Nat.lt_of_succ_lt_succ below)
  case count =>
    refine rest.count.trans ?_
    rw [count_step_of_ok ok, Nat.add_comm, BitVec.ofNat_add, BitVec.add_assoc]
    rfl
  case events =>
    rw [List.range_succ_eq_map, List.flatMap_cons, List.flatMap_map]
    exact congrArg (m.step.events ++ ·) rest.events
  case ends =>
    rcases rest.ends with ⟨all, result, state⟩ | ⟨early, fault, refused, result, state⟩
    · refine .inl ⟨congrArg (· + 1) all, ?_, state⟩
      show Except.map (1 + ·) (m.step.state.run n).result = _
      rw [result, Nat.add_comm]
      rfl
    · refine .inr ⟨Nat.succ_lt_succ early, fault, refused, ?_, state⟩
      show Except.map (1 + ·) (m.step.state.run n).result = _
      rw [result]
      rfl

theorem exists_accounts (m : Machine σ) (limit : Nat) :
    ∃ k, m.Accounts limit k (m.run limit) := by
  induction limit generalizing m with
  | zero =>
    refine ⟨0, Nat.le_refl 0, ?_, ?_, rfl, .inl ⟨rfl, rfl, rfl⟩⟩
    · exact fun i below => absurd below (Nat.not_lt_zero i)
    · exact (BitVec.add_zero _).symm
  | succ n ih =>
    cases result : m.step.result with
    | error fault => exact ⟨0, .of_error result n⟩
    | ok done =>
      obtain ⟨k, rest⟩ := ih m.step.state
      exact ⟨k + 1, rest.succ_of_ok result⟩

theorem run_add_of_error {m : Machine σ} {limit : Nat} {fault : Fault}
    (error : (m.run limit).result = .error fault) (more : Nat) :
    m.run (limit + more) = m.run limit := by
  induction limit generalizing m fault with
  | zero => contradiction
  | succ n ih =>
    rw [Nat.succ_add]
    cases result : m.step.result with
    | error _ => rw [run_succ_of_error result, run_succ_of_error result]
    | ok done =>
      rw [run_succ_of_ok result] at error ⊢
      rw [run_succ_of_ok result]
      cases rest : (m.step.state.run n).result with
      | ok _ =>
        simp only [Outcome.after, Outcome.later, rest] at error
        contradiction
      | error _ => rw [ih rest]

theorem run_add_of_ok {m : Machine σ} {limit done : Nat} (ok : (m.run limit).result = .ok done)
    (more : Nat) :
    m.run (limit + more) =
      (((m.run limit).state.run more).later limit).after
        (m.run limit).log (m.run limit).events := by
  induction limit generalizing m done with
  | zero =>
    rw [run_zero, Nat.zero_add, Outcome.later_zero]
    exact (Outcome.after_nil _).symm
  | succ n ih =>
    rw [Nat.succ_add]
    cases result : m.step.result with
    | error _ =>
      rw [run_succ_of_error result] at ok
      contradiction
    | ok _ =>
      rw [run_succ_of_ok result] at ok
      rw [run_succ_of_ok result, run_succ_of_ok result]
      cases rest : (m.step.state.run n).result with
      | error _ =>
        simp only [Outcome.after, Outcome.later, rest] at ok
        contradiction
      | ok _ =>
        rw [ih rest, Outcome.later_after, Outcome.later_later, Outcome.after_after, Nat.add_comm 1]
        rfl

/-- So many steps complete and lead from one machine to another. -/
structure Runs (m : Machine σ) (steps : Nat) (m' : Machine σ) : Prop where
  result : (m.run steps).result = .ok steps
  state : (m.run steps).state = m'

theorem Runs.refl (m : Machine σ) : m.Runs 0 m := ⟨rfl, rfl⟩

theorem Runs.step {m : Machine σ} (ok : m.step.result = .ok ()) : m.Runs 1 m.step.state := by
  constructor <;> rw [run_succ_of_ok ok] <;> rfl

theorem Runs.of_ok {m : Machine σ} {limit done : Nat} (ok : (m.run limit).result = .ok done) :
    m.Runs limit (m.run limit).state := by
  obtain ⟨k, accounts⟩ := m.exists_accounts limit
  rcases accounts.ends with ⟨-, result, -⟩ | ⟨-, fault, -, result, -⟩
  · exact ⟨result, rfl⟩
  · rw [result] at ok
    contradiction

theorem Runs.trans {m m' m'' : Machine σ} {steps more : Nat} (first : m.Runs steps m')
    (second : m'.Runs more m'') : m.Runs (steps + more) m'' := by
  obtain ⟨ok, rfl⟩ := first
  obtain ⟨result, rfl⟩ := second
  constructor <;> rw [run_add_of_ok ok]
  · show Except.map (steps + ·) ((m.run steps).state.run more).result = _
    rw [result]
    rfl
  · rfl

/-- A run is its steps. A step is refused at `SAV` and `MARK` only, with the opcode and its name,
and then leaves nothing but the fetch behind. A run takes steps until one is refused or `limit` of
them are done; and a run that completed and is run on is one run, while one that was refused does
not get further with more steps to go. -/
theorem run_eq_steps (m : Machine σ) (limit more : Nat) :
    (m.step.result =
      if m.atCounter = 0x78 ∨ m.atCounter = 0x79 then
        .error (.unsupported m.atCounter (Isa.info m.atCounter).mnemonic)
      else .ok ()) ∧
    (m.atCounter = 0x78 ∨ m.atCounter = 0x79 →
      m.step.state =
          { m with
            r := m.r.set m.p (m.counter + 1)
            i := m.atCounter.high
            n := m.atCounter.low } ∧
        m.step.events = []) ∧
    (∃ k, m.Accounts limit k (m.run limit)) ∧
    (∀ done, (m.run limit).result = .ok done →
      (m.run (limit + more)).state = ((m.run limit).state.run more).state ∧
        (m.run (limit + more)).events =
          (m.run limit).events ++ ((m.run limit).state.run more).events ∧
        (m.run (limit + more)).result = ((m.run limit).state.run more).result.map (limit + ·)) ∧
    (∀ fault, (m.run limit).result = .error fault → m.run (limit + more) = m.run limit) := by
  refine ⟨m.result_step, state_step_of_refused, m.exists_accounts limit, ?_, ?_⟩
  · intro done ok
    rw [run_add_of_ok ok]
    exact ⟨rfl, rfl, rfl⟩
  · intro fault error
    exact run_add_of_error error more

/-- Steps register 1 on and meets the opcode `MARK`. -/
theorem run_eq_steps_of_mark :
    let m : Machine Bus.Flat :=
      Machine.new (Bus.writeEach Bus.write Bus.Flat.zero 0 [0x11, 0x79])
    m.step.state.atCounter = 0x79 ∧ m.step.state.step.events = [] ∧
      (m.run 1).result = .ok 1 ∧ (m.run (1 + 4)).state = ((m.run 1).state.run 4).state ∧
      (m.run 3).result = .error (.unsupported 0x79 "MARK") ∧ m.run (3 + 4) = m.run 3 := by
  intro m
  have first : m.atCounter = 0x11 := by decide +kernel
  have marked : m.step.state.atCounter = 0x79 := by decide +kernel
  have name : (Isa.info 0x79).mnemonic = "MARK" := by decide +kernel
  have completes : m.step.result = .ok () := by
    rw [result_step, first]
    rfl
  have refuses : m.step.state.step.result = .error (.unsupported 0x79 "MARK") := by
    rw [result_step, marked, name]
    rfl
  have ok : (m.run 1).result = .ok 1 := by
    rw [run_succ_of_ok completes]
    rfl
  have error : (m.run 3).result = .error (.unsupported 0x79 "MARK") := by
    rw [run_succ_of_ok completes, run_succ_of_error refuses]
    rfl
  obtain ⟨-, fetched, -, -, -⟩ := run_eq_steps m.step.state 0 0
  obtain ⟨-, -, -, further, -⟩ := run_eq_steps m 1 4
  obtain ⟨-, -, -, -, stuck⟩ := run_eq_steps m 3 4
  exact ⟨marked, (fetched (.inr marked)).2, ok, (further 1 ok).1, error, stuck _ error⟩

end Machine

end Cosmac
