import Cosmac.Proofs.Machine.History

/-!
Execution does not look at what the processor merely keeps: `B` and `T`, the digits of the last
opcode, the count, and whether an observer listens. Main statement: machines that differ in these
alone go the same way for any number of steps, with the same result, log and memory.
-/

set_option autoImplicit false
set_option relaxedAutoImplicit false

namespace Cosmac.Machine

variable {σ : Type}

/-- Machines that agree in all that is not latent. -/
structure Agrees (m m' : Machine σ) : Prop where
  d : m.d = m'.d
  df : m.df = m'.df
  r : m.r = m'.r
  p : m.p = m'.p
  x : m.x = m'.x
  ie : m.ie = m'.ie
  q : m.q = m'.q
  ef : m.ef = m'.ef
  bus : m.bus = m'.bus
  memory : m.memory = m'.memory

private theorem agrees_withLatent (m : Machine σ) (latent : Latent) :
    m.Agrees (m.withLatent latent) :=
  ⟨rfl, rfl, rfl, rfl, rfl, rfl, rfl, rfl, rfl, rfl⟩

variable {m m' : Machine σ}

private theorem Agrees.eq_withLatent (agrees : m.Agrees m') : m' = m.withLatent m'.latent := by
  obtain ⟨d, df, r, p, x, ie, q, ef, bus, memory⟩ := agrees
  obtain ⟨⟨⟨⟩⟩⟩ := m
  obtain ⟨⟨⟨⟩⟩⟩ := m'
  subst d df r p x ie q ef bus memory
  rfl

variable [Bus σ]

/-! ### One step -/

private theorem Agrees.atCounter (agrees : m.Agrees m') : m'.atCounter = m.atCounter := by
  rw [agrees.eq_withLatent]
  rfl

private theorem latent_step (m : Machine σ) :
    m.step.state.latent =
      { m.latent with
        n := m.atCounter.low
        i := m.atCounter.high
        count := m.step.state.count } := by
  by_cases saves : m.instruction = .saveContext
  · rw [step_of_saveContext m saves]
    rfl
  · have ok : m.step.result = .ok () := by rw [step_of_ne_saveContext m saves]
    rw [latent_step_of_ok ok, count_step_of_ok ok]

private theorem completed_withLatent (m : Machine σ) (latent : Latent) :
    (m.withLatent latent).completed =
      m.completed.withLatent
        { latent with n := m.atCounter.low, i := m.atCounter.high, count := latent.count + 1 } := by
  let digits : Latent := { latent with n := m.atCounter.low, i := m.atCounter.high }
  have executed := execute_withLatent (m.fetched m.atCounter) digits m.instruction
  exact congrArg (fun after : Machine σ => { after with count := after.count + 1 }) executed

theorem Agrees.step (agrees : m.Agrees m') :
    m.step.result = m'.step.result ∧ m.step.log = m'.step.log ∧
      m.step.state.Agrees m'.step.state := by
  have same := agrees.eq_withLatent
  generalize m'.latent = latent at same
  subst same
  by_cases saves : m.instruction = .saveContext
  · rw [step_of_saveContext m saves, step_of_saveContext (m.withLatent latent) saves]
    let digits : Latent := { latent with n := m.atCounter.low, i := m.atCounter.high }
    exact ⟨rfl, rfl, agrees_withLatent (m.fetched m.atCounter) digits⟩
  · rw [step_of_ne_saveContext m saves, step_of_ne_saveContext (m.withLatent latent) saves,
      completed_withLatent]
    refine ⟨rfl, ?_, agrees_withLatent m.completed _⟩
    show _ :: transfers m.instruction _ = _ :: transfers m.instruction _
    cases m.instruction <;> rfl

private theorem Agrees.digits_step (agrees : m.Agrees m') :
    m.step.state.i = m'.step.state.i ∧ m.step.state.n = m'.step.state.n := by
  have high : m'.step.state.i = m'.atCounter.high := congrArg Latent.i (latent_step m')
  have low : m'.step.state.n = m'.atCounter.low := congrArg Latent.n (latent_step m')
  rw [high, low, agrees.atCounter]
  exact ⟨congrArg Latent.i (latent_step m), congrArg Latent.n (latent_step m)⟩

/-! ### Runs -/

private theorem holding_run (m : Machine σ) (limit : Nat) :
    (m.run limit).state.b = m.b ∧ (m.run limit).state.t = m.t := by
  induction limit generalizing m with
  | zero => exact ⟨rfl, rfl⟩
  | succ n ih =>
    have b : m.step.state.b = m.b := congrArg Latent.b (latent_step m)
    have t : m.step.state.t = m.t := congrArg Latent.t (latent_step m)
    cases result : m.step.result with
    | ok _ =>
      rw [run_succ_of_ok result]
      obtain ⟨later_b, later_t⟩ := ih m.step.state
      exact ⟨later_b.trans b, later_t.trans t⟩
    | error fault =>
      rw [run_succ_of_error result]
      exact ⟨b, t⟩

structure Parallel (m m' : Machine σ) (limit : Nat) : Prop where
  result : (m.run limit).result = (m'.run limit).result
  log : (m.run limit).log = (m'.run limit).log
  state : (m.run limit).state.Agrees (m'.run limit).state
  completed : (completing (m.attempts limit)).length = (completing (m'.attempts limit)).length
  digits : 0 < limit →
    (m.run limit).state.i = (m'.run limit).state.i ∧ (m.run limit).state.n = (m'.run limit).state.n

private theorem Agrees.parallel_succ_of_ok (agrees : m.Agrees m') (ok : m.step.result = .ok ())
    {n : Nat} (rest : m.step.state.Parallel m'.step.state n) : m.Parallel m' (n + 1) := by
  obtain ⟨result, log, -⟩ := agrees.step
  have ok' : m'.step.result = .ok () := result ▸ ok
  have first : (completing [m]).length = (completing [m']).length := by
    rw [completing_singleton_of_ok ok, completing_singleton_of_ok ok']
    rfl
  constructor
  case completed =>
    rw [attempts_succ_of_ok ok, attempts_succ_of_ok ok', ← List.singleton_append,
      ← List.singleton_append (x := m'), completing_append, completing_append, List.length_append,
      List.length_append, first, rest.completed]
  all_goals rw [run_succ_of_ok ok, run_succ_of_ok ok']
  case result => exact congrArg (Except.map (1 + ·)) rest.result
  case log =>
    show m.step.log ++ List.map _ (m.step.state.run n).log = _
    rw [log, rest.log]
    rfl
  case state => exact rest.state
  case digits =>
    intro _
    cases n with
    | zero => exact agrees.digits_step
    | succ k => exact rest.digits (Nat.succ_pos k)

private theorem Agrees.parallel (agrees : m.Agrees m') (limit : Nat) : m.Parallel m' limit := by
  induction limit generalizing m m' with
  | zero => exact ⟨rfl, rfl, agrees, rfl, fun none => absurd none (Nat.lt_irrefl 0)⟩
  | succ n ih =>
    obtain ⟨answers, log, state⟩ := agrees.step
    cases result : m.step.result with
    | ok _ => exact agrees.parallel_succ_of_ok result (ih state)
    | error fault =>
      have result' : m'.step.result = .error fault := answers ▸ result
      constructor
      case completed =>
        rw [attempts_succ_of_error result, attempts_succ_of_error result',
          completing_singleton_of_error result, completing_singleton_of_error result']
      all_goals rw [run_succ_of_error result, run_succ_of_error result']
      case log => exact congrArg (· ++ _) log
      case state => exact state
      case digits => exact fun _ => agrees.digits_step

/-- Latent state never influences execution. Machines that agree in all else answer the same after
any number of steps, log the same, and agree in all else again, memory included. Each keeps its own
`B` and `T`, both counts grow by the number of instructions completed, and after a step the digits
of the last opcode agree as well. -/
theorem run_independent_of_latent {m m' : Machine σ} (agrees : m.Agrees m') (limit : Nat) :
    let outcome := m.run limit
    let outcome' := m'.run limit
    let completed := BitVec.ofNat 64 (completing (m.attempts limit)).length
    outcome.result = outcome'.result ∧ outcome.log = outcome'.log ∧
      outcome.state.Agrees outcome'.state ∧
      (outcome.state.b = m.b ∧ outcome.state.t = m.t) ∧
      (outcome'.state.b = m'.b ∧ outcome'.state.t = m'.t) ∧
      (outcome.state.count = m.count + completed ∧ outcome'.state.count = m'.count + completed) ∧
      (0 < limit → outcome.state.i = outcome'.state.i ∧ outcome.state.n = outcome'.state.n) := by
  intro outcome outcome' completed
  have parallel := agrees.parallel limit
  have counted : outcome'.state.count = m'.count + completed := by
    rw [count_run, ← parallel.completed]
  exact ⟨parallel.result, parallel.log, parallel.state, holding_run m limit, holding_run m' limit,
    ⟨count_run m limit, counted⟩, parallel.digits⟩

/-- A machine just made, and one that is watched and holds other latent bytes, up to a refusal. -/
theorem run_independent_of_latent_of_watched :
    let program := Bus.writeEach Bus.write Bus.Flat.zero 0 [0x7B, 0x11, 0x78]
    let m := Machine.new program
    let m' := m.withLatent ⟨0xB0, 0x70, 5, 6, 40, true⟩
    m.Agrees m' ∧ (m'.run 9).result = .error (.unsupported 0x78 "SAV") ∧
      (m.run 9).result = (m'.run 9).result ∧ (m.run 9).state.Agrees (m'.run 9).state ∧
      (m'.run 9).state.b = 0xB0 ∧ (m'.run 9).state.count = 42 ∧ (m'.run 9).state.n = 8 := by
  intro program m m'
  have agrees : m.Agrees m' := agrees_withLatent m _
  obtain ⟨result, -, state, -, ⟨b, -⟩, ⟨-, count⟩, digits⟩ := run_independent_of_latent agrees 9
  have refused : (m.run 9).result = .error (.unsupported 0x78 "SAV") := by decide +kernel
  have two : (completing (m.attempts 9)).length = 2 := by decide +kernel
  have digit : (m.run 9).state.n = 8 := by decide +kernel
  refine ⟨agrees, result ▸ refused, result, state, b, ?_, (digits (by decide)).2.symm.trans digit⟩
  rw [count, two]
  decide

end Cosmac.Machine
