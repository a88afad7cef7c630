import Cosmac.Proofs.Machine.Changes
import Cosmac.Proofs.Machine.History
import Mathlib.Data.List.TakeWhile

/-!
What the environment puts in reaches a program by way of single instructions: an external flag by
the branches named after it, the byte on the bus by `INP`. Main statement: a run without those
branches goes the same whatever the flag, and a run that takes nothing in before it first sends
goes the same whatever was on the bus.
-/

set_option autoImplicit false
set_option relaxedAutoImplicit false

namespace Cosmac

open Isa

def Flag.branches : Flag → List String
  | .ef1 => ["B1", "BN1"]
  | .ef2 => ["B2", "BN2"]
  | .ef3 => ["B3", "BN3"]
  | .ef4 => ["B4", "BN4"]

def Event.withBus (value : Byte) (event : Event) : Event := { event with bus := value }

namespace Isa.Instruction

def flag? : Instruction → Option Flag
  | .branch ⟨.flag f, _⟩ | .longBranch ⟨.flag f, _⟩ | .longSkip ⟨.flag f, _⟩ => some f
  | _ => none

def sends : Instruction → Bool
  | .output _ => true
  | _ => false

def receives : Instruction → Bool
  | .input _ => true
  | _ => false

theorem exists_eq_output_of_sends {i : Instruction} (sends : i.sends = true) :
    ∃ device, i = .output device := by
  cases i with
  | output device => exact ⟨device, rfl⟩
  | _ => contradiction

theorem exists_eq_input_of_receives {i : Instruction} (receives : i.receives = true) :
    ∃ device, i = .input device := by
  cases i with
  | input device => exact ⟨device, rfl⟩
  | _ => contradiction

private theorem mem_branches_of_flag? {b : Byte} {f : Flag} (tests : (ofByte b).flag? = some f) :
    (info b).mnemonic ∈ f.branches :=
  forall_info (p := fun b entry => ∀ f ∈ (ofByte b).flag?, entry.mnemonic ∈ f.branches)
    (by decide +kernel) b f tests

theorem sends_ofByte_iff (b : Byte) : (ofByte b).sends = true ↔ (info b).mnemonic ∈ ["OUT"] :=
  forall_info (p := fun b entry => (ofByte b).sends = true ↔ entry.mnemonic ∈ ["OUT"])
    (by decide +kernel) b

theorem receives_ofByte_iff (b : Byte) : (ofByte b).receives = true ↔ (info b).mnemonic ∈ ["INP"] :=
  forall_info (p := fun b entry => (ofByte b).receives = true ↔ entry.mnemonic ∈ ["INP"])
    (by decide +kernel) b

end Isa.Instruction

namespace Machine

variable {σ : Type}

/-- Machines that agree in all but the level of one flag. -/
structure AgreesButFlag (flag : Flag) (m m' : Machine σ) : Prop where
  levels : ∀ other, other ≠ flag → m.ef.level other = m'.ef.level other
  rest : { m with ef := m'.ef } = m'

/-- Machines that agree in all but the byte on the bus. -/
def AgreesButBus (m m' : Machine σ) : Prop := { m with bus := m'.bus } = m'

def withBus (m : Machine σ) (value : Byte) : Machine σ := { m with bus := value }

private theorem agreesButFlag_drive (m : Machine σ) (flag : Flag) (active : Bool) :
    AgreesButFlag flag m (m.drive flag active) where
  levels other apart := ((m.ef.level_drive flag other active).trans (if_neg apart)).symm
  rest := rfl

private theorem AgreesButFlag.eq_drive {flag : Flag} {m m' : Machine σ}
    (agrees : AgreesButFlag flag m m') :
    m' = m.drive flag (m'.ef.level flag) := by
  have ef : m'.ef = m.ef.drive flag (m'.ef.level flag) := by
    refine FlagLevels.ext_level fun other => ?_
    rw [FlagLevels.level_drive]
    split
    case isTrue same => rw [same]
    case isFalse apart => exact (agrees.levels other apart).symm
  rw [drive, ← ef, agrees.rest]

private theorem holds_drive (m : Machine σ) {flag : Flag} {test : Test}
    (other : test.condition ≠ .flag flag) (active : Bool) :
    test.holds (m.drive flag active).toProcessor = test.holds m.toProcessor := by
  obtain ⟨condition, negated⟩ := test
  cases condition with
  | flag f =>
    have apart : f ≠ flag := fun same => other (congrArg Condition.flag same)
    simp only [Test.holds, Condition.holds, drive, FlagLevels.level_drive, if_neg apart]
  | _ => rfl

variable [Bus σ]

instance (m : Machine σ) (names : List String) : Decidable (m.Executes names) :=
  inferInstanceAs (Decidable (_ ∈ names))

/-! ### An external flag -/

private theorem execute_drive (m : Machine σ) {flag : Flag} {i : Instruction}
    (untested : i.flag? ≠ some flag) (active : Bool) :
    (m.drive flag active).execute i = (m.execute i).drive flag active := by
  cases i with
  | branch test | longBranch test | longSkip test =>
    have other : test.condition ≠ .flag flag := by
      intro same
      obtain ⟨condition, negated⟩ := test
      obtain rfl : condition = .flag flag := same
      exact untested rfl
    simp only [execute, branch, longBranch, longSkip, holds_drive m other]
    split <;> rfl
  | compute op source => cases source <;> rfl
  | _ => rfl

private theorem step_drive {m : Machine σ} {flag : Flag} (untested : ¬m.Executes flag.branches)
    (active : Bool) :
    (m.drive flag active).step =
      { m.step with state := m.step.state.drive flag active } := by
  have unread : m.instruction.flag? ≠ some flag := fun tests =>
    untested (Instruction.mem_branches_of_flag? tests)
  by_cases saves : m.instruction = .saveContext
  · rw [step_of_saveContext m saves, step_of_saveContext (m.drive flag active) saves]
    rfl
  · have completed : (m.drive flag active).completed = m.completed.drive flag active := by
      have executed := execute_drive (m.fetched m.atCounter) unread active
      exact congrArg (fun after : Machine σ => { after with count := after.count + 1 }) executed
    have sent : transfers m.instruction (m.completed.drive flag active) =
        transfers m.instruction m.completed := by
      cases m.instruction <;> rfl
    rw [step_of_ne_saveContext m saves, step_of_ne_saveContext (m.drive flag active) saves,
      completed, ← sent]
    rfl

private theorem run_drive {m : Machine σ} {limit : Nat} {flag : Flag}
    (untested : ∀ s ∈ m.attempts limit, ¬s.Executes flag.branches) (active : Bool) :
    (m.drive flag active).run limit =
      { m.run limit with state := (m.run limit).state.drive flag active } := by
  induction limit generalizing m with
  | zero => rfl
  | succ n ih =>
    cases result : m.step.result with
    | ok _ =>
      rw [attempts_succ_of_ok result] at untested
      have first := step_drive (untested m List.mem_cons_self) active
      have rest := ih fun s member => untested s (List.mem_cons_of_mem m member)
      have completes : (m.drive flag active).step.result = .ok () := by rw [first, result]
      rw [run_succ_of_ok completes, run_succ_of_ok result, first, rest]
      rfl
    | error fault =>
      rw [attempts_succ_of_error result] at untested
      have first := step_drive (untested m List.mem_cons_self) active
      have refused : (m.drive flag active).step.result = .error fault := by rw [first, result]
      rw [run_succ_of_error refused, run_succ_of_error result, first]

/-! ### The byte on the bus -/

/-- The steps before the first that sends a byte. -/
def silent (steps : List (Machine σ)) : List (Machine σ) :=
  steps.takeWhile fun s => ¬s.Executes ["OUT"]

def loud (steps : List (Machine σ)) : List (Machine σ) :=
  steps.dropWhile fun s => ¬s.Executes ["OUT"]

private theorem silent_cons_of_not {m : Machine σ} (quiet : ¬m.Executes ["OUT"])
    (steps : List (Machine σ)) :
    silent (m :: steps) = m :: silent steps :=
  List.takeWhile_cons_of_pos (decide_eq_true quiet)

private theorem loud_cons_of_not {m : Machine σ} (quiet : ¬m.Executes ["OUT"])
    (steps : List (Machine σ)) :
    loud (m :: steps) = loud steps :=
  List.dropWhile_cons_of_pos (decide_eq_true quiet)

private theorem silent_cons_of_sends {m : Machine σ} (sends : m.Executes ["OUT"])
    (steps : List (Machine σ)) : silent (m :: steps) = [] :=
  List.takeWhile_cons_of_neg (by simpa using sends)

private theorem loud_cons_of_sends {m : Machine σ} (sends : m.Executes ["OUT"])
    (steps : List (Machine σ)) : loud (m :: steps) = m :: steps :=
  List.dropWhile_cons_of_neg (by simpa using sends)

private theorem execute_withBus (m : Machine σ) (value : Byte) {i : Instruction}
    (keeps : i.sends = false) (ignores : i.receives = false) :
    (m.withBus value).execute i = (m.execute i).withBus value := by
  cases i with
  | output | input => contradiction
  | branch test | longBranch test | longSkip test =>
    have holds : test.holds (m.withBus value).toProcessor = test.holds m.toProcessor := by
      obtain ⟨condition, negated⟩ := test
      cases condition <;> rfl
    simp only [execute, branch, longBranch, longSkip, holds]
    split <;> rfl
  | compute op source => cases source <;> rfl
  | _ => rfl

private theorem step_withBus_of_sends {m : Machine σ} (sends : m.Executes ["OUT"]) (value : Byte) :
    (m.withBus value).step = m.step := by
  obtain ⟨device, output⟩ : ∃ device, m.instruction = .output device :=
    Instruction.exists_eq_output_of_sends ((Instruction.sends_ofByte_iff m.atCounter).mpr sends)
  have completes : m.instruction ≠ .saveContext := by
    rw [output]
    exact Instruction.noConfusion
  have completed : (m.withBus value).completed = m.completed := by
    have same : (m.withBus value).instruction = m.instruction := rfl
    unfold completed
    rw [same, output]
    rfl
  rw [step_of_ne_saveContext m completes, step_of_ne_saveContext (m.withBus value) completes,
    completed]
  rfl

private theorem step_withBus {m : Machine σ} (silent : ¬m.Executes ["OUT"])
    (deaf : ¬m.Executes ["INP"]) (value : Byte) :
    (m.withBus value).step =
      { m.step with
        state := m.step.state.withBus value
        events := m.step.events.map (.withBus value) } := by
  have keeps : m.instruction.sends = false := by
    rw [← Bool.not_eq_true]
    exact fun sends => silent ((Instruction.sends_ofByte_iff m.atCounter).mp sends)
  have ignores : m.instruction.receives = false := by
    rw [← Bool.not_eq_true]
    exact fun receives => deaf ((Instruction.receives_ofByte_iff m.atCounter).mp receives)
  by_cases saves : m.instruction = .saveContext
  · rw [step_of_saveContext m saves, step_of_saveContext (m.withBus value) saves]
    rfl
  · have completed : (m.withBus value).completed = m.completed.withBus value := by
      have executed := execute_withBus (m.fetched m.atCounter) value keeps ignores
      exact congrArg (fun after : Machine σ => { after with count := after.count + 1 }) executed
    have told : notice m.counter m.atCounter (m.completed.withBus value) =
        (notice m.counter m.atCounter m.completed).map (.withBus value) := by
      have stays : (m.completed.withBus value).observed = m.completed.observed := rfl
      rw [notice, notice, stays]
      split <;> rfl
    have sent : transfers m.instruction (m.completed.withBus value) =
        transfers m.instruction m.completed := by
      cases kind : m.instruction with
      | output | input =>
        rw [kind] at keeps ignores
        contradiction
      | _ => rfl
    rw [step_of_ne_saveContext m saves, step_of_ne_saveContext (m.withBus value) saves, completed,
      ← told, ← sent]
    rfl

private theorem run_succ_of_step_eq {m m' : Machine σ} (same : m'.step = m.step) (n : Nat) :
    m'.run (n + 1) = m.run (n + 1) := by
  cases result : m.step.result with
  | ok _ =>
    have result' : m'.step.result = .ok () := by rw [same, result]
    rw [run_succ_of_ok result, run_succ_of_ok result', same]
  | error fault =>
    have result' : m'.step.result = .error fault := by rw [same, result]
    rw [run_succ_of_error result, run_succ_of_error result', same]

private theorem run_withBus {m : Machine σ} {limit : Nat}
    (deaf : ∀ s ∈ silent (m.attempts limit), ¬s.Executes ["INP"]) (value : Byte) :
    (m.withBus value).run limit =
      { m.run limit with
        state :=
          if (loud (m.attempts limit)).isEmpty then (m.run limit).state.withBus value
          else (m.run limit).state
        events :=
          (shown (silent (m.attempts limit))).map (.withBus value) ++
            shown (loud (m.attempts limit)) } := by
  induction limit generalizing m with
  | zero => rfl
  | succ n ih =>
    by_cases sends : m.Executes ["OUT"]
    · obtain ⟨rest, row⟩ : ∃ rest, m.attempts (n + 1) = m :: rest := ⟨_, rfl⟩
      have told := events_run m (n + 1)
      rw [row] at told
      rw [run_succ_of_step_eq (step_withBus_of_sends sends value), row, silent_cons_of_sends sends,
        loud_cons_of_sends sends, ← told]
      rfl
    · cases result : m.step.result with
      | ok _ =>
        rw [attempts_succ_of_ok result, silent_cons_of_not sends] at deaf
        have first := step_withBus sends (deaf m List.mem_cons_self) value
        have rest := ih fun s member => deaf s (List.mem_cons_of_mem m member)
        have completes : (m.withBus value).step.result = .ok () := by rw [first, result]
        rw [run_succ_of_ok completes, run_succ_of_ok result, attempts_succ_of_ok result,
          silent_cons_of_not sends, loud_cons_of_not sends, first, rest, ← List.singleton_append,
          shown_append, List.map_append, ← events_step, List.append_assoc]
        rfl
      | error fault =>
        rw [attempts_succ_of_error result, silent_cons_of_not sends] at deaf
        have first := step_withBus sends (deaf m List.mem_cons_self) value
        have refused : (m.withBus value).step.result = .error fault := by rw [first, result]
        rw [run_succ_of_error refused, run_succ_of_error result, attempts_succ_of_error result,
          silent_cons_of_not sends, loud_cons_of_not sends, first, events_step]
        exact congrArg (Outcome.mk _ _ _) (List.append_nil _).symm

private theorem silent_append_loud (steps : List (Machine σ)) :
    silent steps ++ loud steps = steps :=
  List.takeWhile_append_dropWhile

private theorem isEmpty_loud_iff (steps : List (Machine σ)) :
    (loud steps).isEmpty = true ↔ ∀ s ∈ steps, ¬s.Executes ["OUT"] := by
  rw [List.isEmpty_iff, loud, List.dropWhile_eq_nil_iff]
  simp only [decide_eq_true_eq]

/-- Inputs reach a program by their own instructions only. Machines that agree in all but an
external flag make the same of a run in which the first executes no branch named after the flag, and
agree again in all else. Machines that agree in all but the byte on the bus make the same of a run
in which the first executes no `INP` before its first `OUT`; once an `OUT` was executed they are
equal, and an observer is told of another byte on the bus before that only. -/
theorem run_independent_of_inputs (m m' : Machine σ) (limit : Nat) :
    let outcome := m.run limit
    let outcome' := m'.run limit
    let steps := m.attempts limit
    (∀ flag, AgreesButFlag flag m m' → (∀ s ∈ steps, ¬s.Executes flag.branches) →
      outcome'.result = outcome.result ∧ outcome'.log = outcome.log ∧
        outcome'.events = outcome.events ∧ AgreesButFlag flag outcome.state outcome'.state ∧
        outcome'.state.ef.level flag = m'.ef.level flag) ∧
    (AgreesButBus m m' → (∀ s ∈ silent steps, ¬s.Executes ["INP"]) →
      outcome'.result = outcome.result ∧ outcome'.log = outcome.log ∧
        ((∃ s ∈ steps, s.Executes ["OUT"]) → outcome'.state = outcome.state) ∧
        ((∀ s ∈ steps, ¬s.Executes ["OUT"]) →
          AgreesButBus outcome.state outcome'.state ∧ outcome'.state.bus = m'.bus) ∧
        outcome.events = shown (silent steps) ++ shown (loud steps) ∧
        outcome'.events = (shown (silent steps)).map (.withBus m'.bus) ++ shown (loud steps)) := by
  intro outcome outcome' steps
  constructor
  case left =>
    intro flag agrees untested
    have driven : outcome' =
        { outcome with state := outcome.state.drive flag (m'.ef.level flag) } := by
      rw [← run_drive untested, ← agrees.eq_drive]
    rw [driven]
    refine ⟨rfl, rfl, rfl, agreesButFlag_drive _ flag _, ?_⟩
    exact (FlagLevels.level_drive _ flag flag _).trans (if_pos rfl)
  case right =>
    intro agrees deaf
    have same := run_withBus deaf m'.bus
    rw [show m.withBus m'.bus = m' from agrees] at same
    rw [show outcome' = _ from same]
    refine ⟨rfl, rfl, ?_, ?_, ?_, rfl⟩
    · rintro ⟨s, member, sends⟩
      refine if_neg fun quiet => ?_
      exact (isEmpty_loud_iff steps).mp quiet s member sends
    · intro quiet
      rw [if_pos ((isEmpty_loud_iff steps).mpr quiet)]
      exact ⟨rfl, rfl⟩
    · rw [← shown_append, silent_append_loud]
      exact events_run m limit

/-- A branch on `EF1` that is not taken, a byte sent from behind its opcode, and the same byte taken
in: `EF2` and what was on the bus before make no difference. -/
theorem run_independent_of_inputs_of_echo :
    let program := Bus.writeEach Bus.write Bus.Flat.zero 0 [0x34, 0x05, 0x61, 0xAA, 0x69]
    let m := { Machine.new program with observed := true }
    let flagged := { m with ef := ⟨false, true, false, false⟩ }
    let charged := { m with bus := 0x55 }
    (AgreesButFlag .ef2 m flagged ∧ (flagged.run 3).events = (m.run 3).events ∧
      AgreesButFlag .ef2 (m.run 3).state (flagged.run 3).state) ∧
    (∃ s ∈ m.attempts 3, s.Executes ["INP"]) ∧ (∃ s ∈ m.attempts 3, s.Executes ["OUT"]) ∧
    AgreesButBus m charged ∧ (charged.run 3).state = (m.run 3).state ∧
      (m.run 3).events.map (·.bus) = [0x00, 0xAA, 0xAA] ∧
      (charged.run 3).events.map (·.bus) = [0x55, 0xAA, 0xAA] := by
  intro program m flagged charged
  obtain ⟨flags, -⟩ := run_independent_of_inputs m flagged 3
  obtain ⟨-, bus⟩ := run_independent_of_inputs m charged 3
  have agrees : AgreesButFlag .ef2 m flagged := agreesButFlag_drive m .ef2 true
  have untested : ∀ s ∈ m.attempts 3, ¬s.Executes (Flag.branches .ef2) := by decide +kernel
  have deaf : ∀ s ∈ silent (m.attempts 3), ¬s.Executes ["INP"] := by decide +kernel
  have sends : ∃ s ∈ m.attempts 3, s.Executes ["OUT"] := by decide +kernel
  obtain ⟨-, -, told, state, -⟩ := flags .ef2 agrees untested
  obtain ⟨-, -, equal, -, -, events⟩ := bus rfl deaf
  refine ⟨⟨agrees, told, state⟩, by decide +kernel, sends, rfl, equal sends, by decide +kernel, ?_⟩
  rw [events]
  decide +kernel

end Machine

end Cosmac
