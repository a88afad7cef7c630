import Cosmac.Bus.Folded
import Cosmac.Proofs.Machine.Fetch
import Cosmac.Proofs.Machine.History

/-!
An idle machine stays idle. The opcode `IDL` is stepped over by the fetch and stepped back onto by
its execution, so that nothing is left of a step but the digits of the opcode and the count. Main
statement: whatever the environment drives in the meantime is kept, and program counter, data
pointer, registers and memory are as they were after any number of steps; a run that gets there
ends there.
-/

set_option autoImplicit false
set_option relaxedAutoImplicit false

namespace Cosmac

/-- What the environment may set while a machine waits. -/
inductive Setting
  | ef (flag : Flag)
  | bus
  | d
  | df
  | q
  | ie
  | t
  | b
  deriving DecidableEq

namespace Setting

abbrev Content : Setting → Type
  | .ef _ | .df | .q | .ie => Bool
  | .bus | .d | .t | .b => Byte

def content (proc : Processor) : (setting : Setting) → setting.Content
  | .ef flag => proc.ef.level flag
  | .bus => proc.bus
  | .d => proc.d
  | .df => proc.df
  | .q => proc.q
  | .ie => proc.ie
  | .t => proc.t
  | .b => proc.b

def set? : (setting : Setting) → Command → Option setting.Content
  | .ef flag, .drive driven active => if flag = driven then some active else none
  | .bus, .setBus value => some value
  | .d, .setD value => some value
  | .df, .setDf level => some level
  | .q, .setQ level => some level
  | .ie, .setIe level => some level
  | .t, .setT value => some value
  | .b, .setB value => some value
  | _, _ => none

/-- What the last of some commands that sets this sets it to. -/
def last? (setting : Setting) (commands : List Command) : Option setting.Content :=
  (commands.filterMap setting.set?).getLast?

private theorem getD_last?_cons (setting : Setting) (command : Command) (rest : List Command)
    (initial : setting.Content) :
    (setting.last? (command :: rest)).getD initial =
      (setting.last? rest).getD ((setting.set? command).getD initial) := by
  rw [last?, List.filterMap_cons]
  cases setting.set? command with
  | none => rfl
  | some value =>
    rw [List.getLast?_cons]
    rfl

end Setting

/-- Whether a command is a step, or one by which the environment sets something. -/
def Command.waits : Command → Bool
  | .step | .drive .. | .setBus _ | .setD _ | .setDf _ | .setQ _ | .setIe _ | .setT _
  | .setB _ => true
  | _ => false

/-- The number of steps that a command takes of an idle machine. -/
def Command.steps : Command → Nat
  | .step => 1
  | _ => 0

private theorem Command.count_step_cons (command : Command) (rest : List Command) :
    (command :: rest).count .step = command.steps + rest.count .step := by
  rw [List.count_cons, Nat.add_comm]
  cases command <;> rfl

namespace Machine

variable {σ : Type} {m m' m'' : Machine σ}

/-- A machine after so many steps and what the environment set in the meantime: what a program can
tell of it and the environment does not drive is as it was. -/
structure Waits (m : Machine σ) (steps : Nat) (m' : Machine σ) : Prop where
  r : m'.r = m.r
  p : m'.p = m.p
  x : m'.x = m.x
  memory : m'.memory = m.memory
  i : m'.i = if steps = 0 then m.i else 0
  n : m'.n = if steps = 0 then m.n else 0
  count : m'.count = m.count + .ofNat 64 steps
  observed : m'.observed = m.observed

theorem Waits.refl (m : Machine σ) : m.Waits 0 m :=
  ⟨rfl, rfl, rfl, rfl, rfl, rfl, (BitVec.add_zero _).symm, rfl⟩

theorem Waits.trans {steps more : Nat} (first : m.Waits steps m') (second : m'.Waits more m'') :
    m.Waits (steps + more) m'' where
  r := second.r.trans first.r
  p := second.p.trans first.p
  x := second.x.trans first.x
  memory := second.memory.trans first.memory
  i := by
    rw [second.i, first.i]
    cases more <;> simp
  n := by
    rw [second.n, first.n]
    cases more <;> simp
  count := by rw [second.count, first.count, BitVec.ofNat_add, BitVec.add_assoc]
  observed := second.observed.trans first.observed

private theorem Waits.counter {steps : Nat} (waited : m.Waits steps m') :
    m'.counter = m.counter := by
  show m'.r.get m'.p = _
  rw [waited.r, waited.p]
  rfl

variable [Bus σ]

/-! ### One step -/

private theorem execute_idle_fetched (m : Machine σ) :
    (m.fetched 0x00).execute .idle = { m with i := 0, n := 0 } := by
  have counter : (m.fetched 0x00).register m.p - 1 = m.counter := by
    rw [register_fetched, BitVec.add_sub_cancel]
  have back : m.r.set m.p m.counter = m.r := m.r.set_get m.p
  show (m.fetched 0x00).setRegister m.p ((m.fetched 0x00).register m.p - 1) = _
  rw [counter]
  simp only [setRegister, fetched, advance, Bank.set_set, back]
  rfl

/-- A step on `IDL` leaves its digits, is counted, and does nothing else. -/
theorem step_of_idle (idle : m.atCounter = 0x00) :
    m.step.result = .ok () ∧ m.step.state = { m with i := 0, n := 0, count := m.count + 1 } := by
  have decoded : m.instruction = .idle := by
    rw [instruction, idle]
    rfl
  rw [step_of_ne_saveContext m (by rw [decoded]; exact nofun), completed, decoded, idle,
    execute_idle_fetched]
  exact ⟨rfl, rfl⟩

/-! ### Sessions -/

private theorem Waits.atCounter {steps : Nat} (waited : m.Waits steps m') :
    m'.atCounter = m.atCounter := by
  rw [Machine.atCounter, read, waited.counter, waited.memory]
  rfl

private theorem waits_perform (idle : m.atCounter = 0x00) {command : Command}
    (outside : command.waits = true) :
    (m.perform command).result = .ok command.steps ∧
      m.Waits command.steps (m.perform command).state := by
  cases command with
  | step =>
    obtain ⟨ok, state⟩ := step_of_idle idle
    constructor
    · show m.step.result.map _ = _
      rw [ok]
      rfl
    · show m.Waits 1 m.step.state
      rw [state]
      exact ⟨rfl, rfl, rfl, rfl, rfl, rfl, rfl, rfl⟩
  | drive | setBus | setD | setDf | setQ | setIe | setT | setB =>
    exact ⟨rfl, rfl, rfl, rfl, rfl, rfl, rfl, (BitVec.add_zero _).symm, rfl⟩
  | _ => contradiction

private theorem content_perform (idle : m.atCounter = 0x00) {command : Command}
    (outside : command.waits = true) (setting : Setting) :
    setting.content (m.perform command).state.toProcessor =
      (setting.set? command).getD (setting.content m.toProcessor) := by
  cases command with
  | step =>
    show setting.content m.step.state.toProcessor = _
    rw [(step_of_idle idle).2]
    cases setting <;> rfl
  | drive driven active =>
    cases setting with
    | ef flag =>
      refine (FlagLevels.level_drive m.ef driven flag active).trans ?_
      simp only [Setting.set?]
      split <;> rfl
    | _ => rfl
  | setBus | setD | setDf | setQ | setIe | setT | setB => cases setting <;> rfl
  | _ => contradiction

private theorem waits_session (idle : m.atCounter = 0x00) {commands : List Command}
    (outside : ∀ command ∈ commands, command.waits = true) :
    (m.session commands).map (·.result) = commands.map (fun command => .ok command.steps) ∧
      m.Waits (commands.count .step) (m.afterSession commands) := by
  induction commands generalizing m with
  | nil => exact ⟨rfl, .refl m⟩
  | cons command rest ih =>
    obtain ⟨head, tail⟩ := List.forall_mem_cons.mp outside
    obtain ⟨result, waited⟩ := waits_perform idle head
    obtain ⟨results, further⟩ := ih (waited.atCounter.trans idle) tail
    rw [session, List.map_cons, List.map_cons, result, results, Command.count_step_cons]
    exact ⟨rfl, waited.trans further⟩

private theorem content_session (idle : m.atCounter = 0x00) {commands : List Command}
    (outside : ∀ command ∈ commands, command.waits = true) (setting : Setting) :
    setting.content (m.afterSession commands).toProcessor =
      (setting.last? commands).getD (setting.content m.toProcessor) := by
  induction commands generalizing m with
  | nil => rfl
  | cons command rest ih =>
    obtain ⟨head, tail⟩ := List.forall_mem_cons.mp outside
    obtain ⟨-, waited⟩ := waits_perform idle head
    rw [afterSession, ih (waited.atCounter.trans idle) tail, content_perform idle head,
      setting.getD_last?_cons]

/-! ### Runs -/

theorem runs_idle (idle : m.atCounter = 0x00) (n : Nat) :
    m.Runs n { m with
      i := if n = 0 then m.i else 0
      n := if n = 0 then m.n else 0
      count := m.count + .ofNat 64 n } := by
  induction n generalizing m with
  | zero =>
    rw [show m.count + .ofNat 64 0 = m.count from BitVec.add_zero _]
    exact .refl m
  | succ n ih =>
    obtain ⟨ok, state⟩ := step_of_idle idle
    have first := Runs.step ok
    rw [state] at first
    have further := first.trans (ih idle)
    rw [Nat.add_comm 1 n] at further
    have counted : m.count + 1 + .ofNat 64 n = m.count + .ofNat 64 (n + 1) := by
      rw [Nat.add_comm n, BitVec.ofNat_add, ← BitVec.add_assoc]
      rfl
    simpa only [counted, ite_self, Nat.add_one_ne_zero, if_false] using further

private theorem run_of_idle_run {k : Nat} (idle : (m.run k).state.atCounter = 0x00) (n : Nat) :
    (m.run (k + n)).state =
      { (m.run k).state with
        i := (m.run (k + n)).state.i
        n := (m.run (k + n)).state.n
        count := (m.run (k + n)).state.count } ∧
      ∀ done, (m.run k).result = .ok done → (m.run (k + n)).result = .ok (k + n) ∧
        (m.run (k + n)).state.count = (m.run k).state.count + .ofNat 64 n := by
  cases result : (m.run k).result with
  | error fault =>
    rw [run_add_of_error result]
    exact ⟨rfl, nofun⟩
  | ok done =>
    have longer := (Runs.of_ok result).trans (runs_idle idle n)
    rw [longer.state]
    exact ⟨rfl, fun _ _ => ⟨longer.result, rfl⟩⟩

/-- Idle is absorbing. Whatever steps are taken of a machine at `IDL` and whatever its environment
sets between them, every step completes; the counter, the other registers and memory stay, what is
set is as it was last set, the digits are those of `IDL` once a step was taken, and the count grows
by the number of steps. A run that gets to such a machine stays there too, up to the digits and the
count, however many steps it is given. -/
theorem session_idles :
    (∀ {m : Machine σ} {commands : List Command}, m.atCounter = 0x00 →
      (∀ command ∈ commands, command.waits = true) →
        let steps := commands.count .step
        let after := m.afterSession commands
        (m.session commands).map (·.result) = commands.map (fun command => .ok command.steps) ∧
        (after.counter = m.counter ∧ after.p = m.p ∧ after.x = m.x ∧
          (∀ j, after.register j = m.register j) ∧ after.memory = m.memory) ∧
        (∀ setting : Setting, setting.content after.toProcessor =
          (setting.last? commands).getD (setting.content m.toProcessor)) ∧
        after.i = (if steps = 0 then m.i else 0) ∧ after.n = (if steps = 0 then m.n else 0) ∧
        after.count = m.count + .ofNat 64 steps ∧ after.observed = m.observed) ∧
    (∀ {m : Machine σ} {k : Nat}, (m.run k).state.atCounter = 0x00 → ∀ n,
      (m.run (k + n)).state =
        { (m.run k).state with
          i := (m.run (k + n)).state.i
          n := (m.run (k + n)).state.n
          count := (m.run (k + n)).state.count } ∧
      ∀ done, (m.run k).result = .ok done → (m.run (k + n)).result = .ok (k + n) ∧
        (m.run (k + n)).state.count = (m.run k).state.count + .ofNat 64 n) := by
  refine ⟨?sessions, run_of_idle_run⟩
  intro m commands idle outside steps after
  obtain ⟨results, waited⟩ := waits_session idle outside
  refine ⟨results, ⟨waited.counter, waited.p, waited.x, fun j => ?_, waited.memory⟩,
    content_session idle outside, waited.i, waited.n, waited.count, waited.observed⟩
  exact congrArg (·.get j) waited.r

/-- Three steps on `IDL` at the last address, while a flag is driven and `D` is set twice; and a run
that gets there from the address before. -/
theorem session_idles_at_end :
    let memory : Bus.Folded := ⟨#[0xC4, 0x7A, 0x7B, 0x00], by decide⟩
    let m := (Machine.new memory).setRegister 0 0xFFFF
    let before := (Machine.new memory).setRegister 0 0xFFFE
    let commands : List Command :=
      [.step, .drive .ef2 true, .setD 0x05, .step, .setQ true, .setD 0x09, .step]
    let after := m.afterSession commands
    (after.counter = 0xFFFF ∧ after.d = 0x09 ∧ after.q = true ∧ after.ef.level .ef2 = true ∧
      after.df = false ∧ after.i = 0 ∧ after.count = 3) ∧
      (before.run 6).result = .ok 6 ∧ (before.run 6).state.counter = 0xFFFF ∧
      (before.run 6).state.q = true := by
  intro memory m before commands after
  have idle : m.atCounter = 0x00 := by decide +kernel
  have outside : ∀ command ∈ commands, command.waits = true := by decide
  have counter : m.counter = 0xFFFF := by decide +kernel
  have completed : (before.run 1).result = .ok 1 := by decide +kernel
  have arrived : (before.run 1).state.atCounter = 0x00 := by decide +kernel
  have there : (before.run 1).state.counter = 0xFFFF ∧ (before.run 1).state.q = true := by
    decide +kernel
  obtain ⟨sessions, runs⟩ := @session_idles Bus.Folded _
  obtain ⟨-, ⟨stays, -⟩, set, i, -, count, -⟩ := sessions idle outside
  obtain ⟨state, further⟩ := runs arrived 5
  have kept {s t : Machine Bus.Folded} {i n : Nibble} {count : BitVec 64}
      (same : s = { t with i := i, n := n, count := count }) :
      s.counter = t.counter ∧ s.q = t.q := by
    rw [same]
    exact ⟨rfl, rfl⟩
  exact ⟨⟨stays.trans counter, set .d, set .q, set (.ef .ef2), set .df, i, count⟩,
    (further 1 completed).1, (kept state).1.trans there.1, (kept state).2.trans there.2⟩

end Machine

end Cosmac
