import Cosmac.Proofs.Machine.Inputs

/-!
Calls by change of program counter. A routine is entered by selecting another register as program
counter; the register that was one keeps the address behind the call and is selected again to
return. Main statement: as long as no step works on that register it holds the return address,
whatever else the routine does, and when it is selected again execution goes on behind the call.
-/

set_option autoImplicit false
set_option relaxedAutoImplicit false

namespace Cosmac

open Isa

private theorem Isa.Instruction.ofByte_of_transfers (b : Byte) :
    ((info b).mnemonic ∈ ["SEP"] → ofByte b = .selectCounter b.low) ∧
      ((info b).mnemonic ∈ ["RET", "DIS"] → ∃ enable, ofByte b = .restore enable) :=
  forall_info
    (p := fun b entry =>
      (entry.mnemonic ∈ ["SEP"] → ofByte b = .selectCounter b.low) ∧
        (entry.mnemonic ∈ ["RET", "DIS"] → ∃ enable, ofByte b = .restore enable))
    (by decide +kernel) b

namespace Machine

variable {σ : Type} [Bus σ]

instance (m : Machine σ) (j : Nibble) : Decidable (m.WorksOn j) :=
  inferInstanceAs (Decidable (_ ∨ _ ∧ _ ∨ _ ∧ _))

/-- Whether the step from here makes a register the program counter: by its name, or by the lower
digit of the byte that `RET` or `DIS` finds at the data pointer. -/
def Selects (m : Machine σ) (j : Nibble) : Prop :=
  (m.Executes ["SEP"] ∧ m.atCounter.low = j) ∨
    (m.Executes ["RET", "DIS"] ∧ (m.fetched m.atCounter).atPointer.low = j)

instance (m : Machine σ) (j : Nibble) : Decidable (m.Selects j) :=
  inferInstanceAs (Decidable (_ ∧ _ ∨ _ ∧ _))

/-! ### One step -/

private theorem p_step_of_selects {m : Machine σ} {j : Nibble} (selects : m.Selects j) :
    m.step.state.p = j := by
  obtain ⟨sep, ret⟩ := Instruction.ofByte_of_transfers m.atCounter
  obtain ⟨count, state⟩ := m.exists_state_step
  rw [state]
  rcases selects with ⟨executes, rfl⟩ | ⟨executes, rfl⟩
  · rw [instruction, sep executes]
    rfl
  · obtain ⟨enable, restores⟩ := ret executes
    rw [instruction, restores]
    rfl

private theorem register_step_of_sep {m : Machine σ} (calls : m.Executes ["SEP"]) :
    m.step.state.register m.p = m.counter + 1 := by
  obtain ⟨sep, -⟩ := Instruction.ofByte_of_transfers m.atCounter
  obtain ⟨count, state⟩ := m.exists_state_step
  rw [state, instruction, sep calls]
  exact register_fetched m m.atCounter

private theorem register_step_of_not_worksOn {m : Machine σ} {j : Nibble} (spares : ¬m.WorksOn j) :
    m.step.state.register j = m.register j := by
  by_contra changed
  exact spares (worksOn_of_changed changed)

private theorem head?_log_step (m : Machine σ) :
    m.step.log.head? = some (.fetched m.counter m.atCounter) := by
  by_cases saves : m.instruction = .saveContext
  · rw [step_of_saveContext m saves]
    rfl
  · rw [step_of_ne_saveContext m saves]
    rfl

/-! ### Runs -/

/-- No routine loses its return address unless a step works on the register that keeps it. As long
as the steps behind a `SEP` leave the old program counter alone (none executes with it as program
counter, alters it by name or steps it as data pointer) it holds the address behind the call; and
when the last of them selects it again, the next opcode is fetched from there. Calls of other
routines, stores, and a data pointer that is only looked through do no harm. -/
theorem run_returns_behind_call {m : Machine Bus.Flat} {p : Nibble} {a : Word} (selected : m.p = p)
    (counter : m.register p = a) (calls : m.Executes ["SEP"]) {k : Nat}
    (spared : ∀ s ∈ m.step.state.attempts k, ¬s.WorksOn p) :
    let after := (m.step.state.run k).state
    (∀ s ∈ m.step.state.attempts k, s.register p = a + 1) ∧ after.register p = a + 1 ∧
      ∀ last ∈ (m.step.state.attempts k).getLast?, last.Selects p →
        after.p = p ∧ after.counter = a + 1 ∧
          after.step.log.head? = some (.fetched (a + 1) (after.read (a + 1))) := by
  intro after
  subst selected counter
  obtain ⟨before, kept⟩ :=
    forall_attempts_of_step (fun s => s.register m.p = m.counter + 1) (register_step_of_sep calls)
      fun s member holds => (register_step_of_not_worksOn (spared s member)).trans holds
  refine ⟨before, kept, fun last ends selects => ?_⟩
  have reached : after = last.step.state := state_run_of_getLast? ends
  have selected : after.p = m.p := by
    rw [reached]
    exact p_step_of_selects selects
  have counter : after.counter = m.counter + 1 :=
    (congrArg after.register selected).trans kept
  refine ⟨selected, counter, ?_⟩
  rw [head?_log_step, atCounter, counter]
  rfl

/-- `R(0)` calls `R(3)`, which calls `R(4)`; that makes `R(0)` the data pointer before it returns to
`R(3)`, which returns behind the first call. On another machine `R(3)` returns by `RET`, through a
byte that names `R(0)` as program counter. -/
theorem run_returns_behind_call_of_nested :
    let program (routine stack : List Byte) := Bus.writeEach Bus.write
      (Bus.writeEach Bus.write (Bus.writeEach Bus.write Bus.Flat.zero 0 [0xD3]) 0x10 routine)
      0x20 stack
    let m (routine stack : List Byte) :=
      (((Machine.new (program routine stack)).setRegister 2 0x20).setRegister 3 0x10).setRegister 4
        0x20
    let nested := m [0xD4, 0xD0] [0xE0, 0xF0, 0xD3]
    let popping := m [0xE2, 0x70] [0x50]
    let after := (nested.step.state.run 5).state
    let after' := (popping.step.state.run 2).state
    ((∀ s ∈ nested.step.state.attempts 5, s.register 0 = 1) ∧ after.p = 0 ∧ after.counter = 1 ∧
      after.step.log.head? = some (.fetched 1 (after.read 1))) ∧
    after'.x = 5 ∧ after'.p = 0 ∧ after'.counter = 1 ∧
      after'.step.log.head? = some (.fetched 1 (after'.read 1)) := by
  intro program m nested popping after after'
  have spared : ∀ s ∈ nested.step.state.attempts 5, ¬s.WorksOn 0 := by decide +kernel
  have spared' : ∀ s ∈ popping.step.state.attempts 2, ¬s.WorksOn 0 := by decide +kernel
  have returns : ∃ last, (nested.step.state.attempts 5).getLast? = some last ∧ last.Selects 0 :=
    ⟨_, List.getLast?_eq_some_getLast (by decide +kernel), by decide +kernel⟩
  have returns' : ∃ last, (popping.step.state.attempts 2).getLast? = some last ∧ last.Selects 0 :=
    ⟨_, List.getLast?_eq_some_getLast (by decide +kernel), by decide +kernel⟩
  obtain ⟨last, ends, selects⟩ := returns
  obtain ⟨last', ends', selects'⟩ := returns'
  obtain ⟨before, -, back⟩ :=
    run_returns_behind_call (m := nested) (p := 0) (a := 0) rfl (by decide +kernel)
      (by decide +kernel) spared
  obtain ⟨-, -, back'⟩ :=
    run_returns_behind_call (m := popping) (p := 0) (a := 0) rfl (by decide +kernel)
      (by decide +kernel) spared'
  exact ⟨⟨before, back last ends selects⟩, by decide +kernel, back' last' ends' selects'⟩

end Machine

end Cosmac
