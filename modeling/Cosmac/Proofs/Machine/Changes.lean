import Cosmac.Proofs.Disassembly.Successor
import Cosmac.Proofs.Machine.Run
import Mathlib.Tactic.ByContra

/-!
What a run can change. For each part of the processor the map names the instructions that work on
it; registers change as program counter, by name or as data pointer, and memory where an
instruction stores. Main statement: whatever differs after a run, some step of the run accounts for
it by the instruction that it executes.
-/

set_option autoImplicit false
set_option relaxedAutoImplicit false

namespace Cosmac

/-- A part of the processor, apart from the scratchpad registers and what every fetch sets. -/
inductive Part
  | ef
  | b
  | t
  | q
  | ie
  | bus
  | p
  | x
  | df
  | d
  deriving DecidableEq

namespace Part

abbrev Content : Part → Type
  | .ef => FlagLevels
  | .p | .x => Nibble
  | .q | .ie | .df => Bool
  | .b | .t | .bus | .d => Byte

def content (proc : Processor) : (part : Part) → part.Content
  | .ef => proc.ef
  | .b => proc.b
  | .t => proc.t
  | .q => proc.q
  | .ie => proc.ie
  | .bus => proc.bus
  | .p => proc.p
  | .x => proc.x
  | .df => proc.df
  | .d => proc.d

def sums : List String :=
  ["ADD", "ADC", "SD", "SDB", "SM", "SMB", "ADI", "ADCI", "SDI", "SDBI", "SMI", "SMBI"]

def shifts : List String := ["SHR", "SHRC", "SHL", "SHLC"]

def loads : List String := ["LDN", "LDA", "LDX", "LDXA", "LDI"]

def logic : List String := ["OR", "AND", "XOR", "ORI", "ANI", "XRI"]

def changers : Part → List String
  | .ef | .b | .t => []
  | .q => ["REQ", "SEQ"]
  | .ie => ["RET", "DIS"]
  | .bus => ["OUT"]
  | .p => ["SEP", "RET", "DIS"]
  | .x => ["SEX", "RET", "DIS"]
  | .df => sums ++ shifts
  | .d => loads ++ ["GLO", "GHI"] ++ logic ++ sums ++ shifts ++ ["INP"]

end Part

namespace Isa

def Instruction.touches : Instruction → List Part
  | .setQ _ => [.q]
  | .output _ => [.bus]
  | .selectCounter _ => [.p]
  | .selectPointer _ => [.x]
  | .restore _ => [.ie, .p, .x]
  | .load _ | .loadAdvance _ | .popAdvance | .getLow _ | .getHigh _ | .input _ => [.d]
  | .compute (.add _) _ | .compute (.subtractOperand _) _ | .compute (.subtractAccumulator _) _
  | .shift .. => [.df, .d]
  | .compute .. => [.d]
  | _ => []

private theorem mem_changers_of_mem_touches {b : Byte} {part : Part}
    (touched : part ∈ (Instruction.ofByte b).touches) : (info b).mnemonic ∈ part.changers :=
  forall_info
    (p := fun b entry => ∀ part ∈ (Instruction.ofByte b).touches, entry.mnemonic ∈ part.changers)
    (by decide +kernel) b part touched

end Isa

namespace Machine

open Isa Disassembly

variable {σ : Type} [Bus σ]

/-- Whether the instruction at the program counter is listed under one of some names. -/
def Executes (m : Machine σ) (names : List String) : Prop :=
  (info m.atCounter).mnemonic ∈ names

/-- Whether the step from here works on a register: as program counter, by its name, or as data
pointer. -/
def WorksOn (m : Machine σ) (j : Nibble) : Prop :=
  m.p = j ∨ (m.Executes Entry.altering ∧ m.atCounter.low = j) ∨ (m.Executes Entry.stepping ∧ m.x = j)

/-- Whether the step from here stores at an address, with the registers as the fetch leaves them. -/
def StoresAt (m : Machine σ) (address : Word) : Prop :=
  (m.Executes ["STR"] ∧ (m.fetched m.atCounter).register m.atCounter.low = address) ∨
    (m.Executes ["STXD", "INP"] ∧ (m.fetched m.atCounter).pointer = address)

/-! ### One instruction -/

private theorem content_execute (m : Machine σ) {i : Instruction} {part : Part}
    (untouched : part ∉ i.touches) :
    part.content (m.execute i).toProcessor = part.content m.toProcessor := by
  cases i with
  | setQ level =>
    cases part with
    | q => exact absurd List.mem_cons_self untouched
    | _ => rfl
  | output device =>
    cases part with
    | bus => exact absurd List.mem_cons_self untouched
    | _ => rfl
  | selectCounter n =>
    cases part with
    | p => exact absurd List.mem_cons_self untouched
    | _ => rfl
  | selectPointer n =>
    cases part with
    | x => exact absurd List.mem_cons_self untouched
    | _ => rfl
  | restore enable =>
    cases part with
    | ie | p | x => simp [Instruction.touches] at untouched
    | _ => rfl
  | load | loadAdvance | popAdvance | getLow | getHigh | input =>
    cases part with
    | d => exact absurd List.mem_cons_self untouched
    | _ => rfl
  | compute op source =>
    cases op with
    | load | or | and | xor =>
      cases part with
      | d => exact absurd List.mem_cons_self untouched
      | _ => cases source <;> rfl
    | add | subtractOperand | subtractAccumulator =>
      cases part with
      | df | d => simp [Instruction.touches] at untouched
      | _ => cases source <;> rfl
  | shift direction ring =>
    cases part with
    | df | d => simp [Instruction.touches] at untouched
    | _ => rfl
  | branch test | longBranch test | longSkip test =>
    simp only [execute, branch, longBranch, longSkip]
    split <;> cases part <;> rfl
  | _ => cases part <;> rfl

private theorem register_execute_of_aside (m : Machine σ) {i : Instruction} {j : Nibble}
    (notCounter : m.p ≠ j) (unnamed : i.alters? ≠ some j)
    (unmoved : i.movesPointer = true → m.x ≠ j) :
    (m.execute i).register j = m.register j := by
  cases i with
  | loadAdvance n | increment n | decrement n | putLow n | putHigh n =>
    have other : n ≠ j := fun same => unnamed (congrArg some same)
    exact register_setRegister_of_ne _ _ other
  | popAdvance | pushRetreat | advancePointer | output | restore =>
    exact register_setRegister_of_ne _ _ (unmoved rfl)
  | idle => exact register_setRegister_of_ne _ _ notCounter
  | branch test | longBranch test =>
    simp only [execute, branch, longBranch]
    split <;> exact register_setRegister_of_ne _ _ notCounter
  | longSkip test =>
    simp only [execute, longSkip]
    split
    · exact register_setRegister_of_ne _ _ notCounter
    · rfl
  | compute op source =>
    cases source with
    | pointer => rfl
    | immediate => exact register_setRegister_of_ne _ _ notCounter
  | _ => rfl

private theorem memory_execute (m : Machine σ) (i : Instruction) :
    (m.execute i).memory = m.memory ∨
      ∃ address byte, m.written? i = some address ∧
        (m.execute i).memory = Bus.write m.memory address byte := by
  cases i with
  | store | pushRetreat | input => exact .inr ⟨_, _, rfl, rfl⟩
  | branch test | longBranch test | longSkip test =>
    simp only [execute, branch, longBranch, longSkip]
    split <;> exact .inl rfl
  | compute op source => cases source <;> exact .inl rfl
  | _ => exact .inl rfl

/-! ### One step -/

theorem exists_state_step (m : Machine σ) : ∃ count,
    m.step.state = { (m.fetched m.atCounter).execute m.instruction with count := count } := by
  by_cases saves : m.instruction = .saveContext
  · rw [step_of_saveContext m saves, saves]
    exact ⟨m.count, rfl⟩
  · rw [step_of_ne_saveContext m saves]
    exact ⟨_, rfl⟩

private theorem executes_changers {m : Machine σ} {part : Part}
    (changed : part.content m.step.state.toProcessor ≠ part.content m.toProcessor) :
    m.Executes part.changers := by
  by_cases touched : part ∈ m.instruction.touches
  · exact mem_changers_of_mem_touches touched
  · obtain ⟨count, state⟩ := m.exists_state_step
    have counted : part.content m.step.state.toProcessor =
        part.content ((m.fetched m.atCounter).execute m.instruction).toProcessor := by
      rw [state]
      cases part <;> rfl
    have fetched : part.content (m.fetched m.atCounter).toProcessor =
        part.content m.toProcessor := by
      cases part <;> rfl
    exact absurd (counted.trans ((content_execute _ touched).trans fetched)) changed

theorem worksOn_of_changed {m : Machine σ} {j : Nibble}
    (changed : m.step.state.register j ≠ m.register j) : m.WorksOn j := by
  have listed : info m.atCounter ∈ m.instruction.listed := info_mem_listed m.atCounter
  by_contra aside
  have notCounter : m.p ≠ j := fun same => aside (.inl same)
  have unnamed : m.instruction.alters? ≠ some j := by
    intro alters
    obtain ⟨altering, -, named⟩ := Entry.mem_altering_of_alters? listed alters
    exact aside (.inr (.inl ⟨altering, (eq_low_of_register? named).symm⟩))
  have unmoved : m.instruction.movesPointer = true → m.x ≠ j := fun moves same =>
    aside (.inr (.inr ⟨Entry.mem_stepping_of_movesPointer listed moves, same⟩))
  obtain ⟨count, state⟩ := m.exists_state_step
  have kept : m.step.state.register j = (m.fetched m.atCounter).register j := by
    rw [state]
    exact register_execute_of_aside (m.fetched m.atCounter) notCounter unnamed unmoved
  exact changed (kept.trans (register_fetched_of_ne m _ notCounter.symm))

private theorem storesAt_of_written? {m : Machine σ} {address : Word}
    (writes : (m.fetched m.atCounter).written? m.instruction = some address) :
    m.StoresAt address := by
  have listed : info m.atCounter ∈ m.instruction.listed := info_mem_listed m.atCounter
  have named (n : Nibble) : m.instruction.register? = some n → n = m.atCounter.low :=
    eq_low_of_register?
  cases kind : m.instruction with
  | store n =>
    rw [kind] at listed named writes
    obtain rfl := named n rfl
    refine .inl ⟨?_, Option.some.inj writes⟩
    rw [Executes, List.mem_singleton.mp listed]
    decide
  | pushRetreat | input =>
    rw [kind] at listed writes
    refine .inr ⟨?_, Option.some.inj writes⟩
    rw [Executes, List.mem_singleton.mp listed]
    decide
  | _ =>
    rw [kind] at writes
    contradiction

private theorem storesAt_of_changed {m : Machine Bus.Flat} {address : Word}
    (changed : m.step.state.read address ≠ m.read address) : m.StoresAt address := by
  by_contra aside
  obtain ⟨count, state⟩ := m.exists_state_step
  have kept : m.step.state.read address = (m.fetched m.atCounter).read address := by
    rw [state]
    exact (m.fetched m.atCounter).read_execute fun writes => aside (storesAt_of_written? writes)
  exact changed kept

private theorem memory_step (m : Machine σ) :
    m.step.state.memory = m.memory ∨
      ∃ address byte, m.step.state.memory = Bus.write m.memory address byte := by
  obtain ⟨count, state⟩ := m.exists_state_step
  rw [state]
  rcases (m.fetched m.atCounter).memory_execute m.instruction with kept | ⟨address, byte, -, write⟩
  · exact .inl kept
  · exact .inr ⟨address, byte, write⟩

/-! ### Runs -/

private theorem exists_attempt_of_changed {α : Type} (view : Machine σ → α)
    {cause : Machine σ → Prop}
    (step : ∀ s : Machine σ, view s.step.state ≠ view s → cause s) {m : Machine σ} {limit : Nat}
    (changed : view (m.run limit).state ≠ view m) : ∃ s ∈ m.attempts limit, cause s := by
  induction limit generalizing m with
  | zero => exact absurd rfl changed
  | succ n ih =>
    by_cases first : view m.step.state = view m
    · cases result : m.step.result with
      | ok _ =>
        rw [run_succ_of_ok result, ← first] at changed
        obtain ⟨s, member, caused⟩ := ih changed
        rw [attempts_succ_of_ok result]
        exact ⟨s, List.mem_cons_of_mem _ member, caused⟩
      | error fault =>
        rw [run_succ_of_error result] at changed
        exact absurd first changed
    · exact ⟨m, List.mem_cons_self, step m first⟩

/-- Whatever differs after a run, some step of it accounts for. The external flags, `B` and `T` are
as before; another part of the processor differs only if an instruction was executed that the map
names for it, a register only if a step worked on it, and a byte of memory only if a step stored at
its address. A step writes at most one byte. -/
theorem run_frame (m : Machine Bus.Flat) (limit : Nat) :
    let after := (m.run limit).state
    let steps := m.attempts limit
    (after.ef = m.ef ∧ after.b = m.b ∧ after.t = m.t) ∧
      (∀ part : Part, part.content after.toProcessor ≠ part.content m.toProcessor →
        ∃ s ∈ steps, s.Executes part.changers) ∧
      (∀ j, after.register j ≠ m.register j → ∃ s ∈ steps, s.WorksOn j) ∧
      (∀ address, after.read address ≠ m.read address → ∃ s ∈ steps, s.StoresAt address) ∧
      ∀ s ∈ steps, s.step.state.memory = s.memory ∨
        ∃ address byte, s.step.state.memory = Bus.write s.memory address byte := by
  intro after steps
  have parts (part : Part)
      (changed : part.content after.toProcessor ≠ part.content m.toProcessor) :
      ∃ s ∈ steps, s.Executes part.changers :=
    exists_attempt_of_changed (fun s => part.content s.toProcessor) (fun s => executes_changers)
      changed
  have kept (part : Part) (fixed : part.changers = []) :
      part.content after.toProcessor = part.content m.toProcessor := by
    by_contra changed
    obtain ⟨s, -, executes⟩ := parts part changed
    rw [Executes, fixed] at executes
    contradiction
  refine ⟨⟨kept .ef rfl, kept .b rfl, kept .t rfl⟩, parts, ?_, ?_, fun s _ => s.memory_step⟩
  · intro j changed
    exact exists_attempt_of_changed (·.register j) (fun s => worksOn_of_changed) changed
  · intro address changed
    exact exists_attempt_of_changed (·.read address) (fun s => storesAt_of_changed) changed

/-- Setting `Q` and storing `D` through `R(1)`, with a refusal behind them. -/
theorem run_frame_of_refused_store :
    let program := Bus.writeEach Bus.write Bus.Flat.zero 0 [0x7B, 0x51, 0x78]
    let m := ((Machine.new program).setRegister 1 0x10).setD 7
    (m.attempts 5).length = 3 ∧
      (m.run 5).state.q ≠ m.q ∧ (∃ s ∈ m.attempts 5, s.Executes ["REQ", "SEQ"]) ∧
      (m.run 5).state.register 0 ≠ m.register 0 ∧ (∃ s ∈ m.attempts 5, s.WorksOn 0) ∧
      (m.run 5).state.read 0x10 ≠ m.read 0x10 ∧ ∃ s ∈ m.attempts 5, s.StoresAt 0x10 := by
  intro program m
  obtain ⟨-, parts, registers, bytes, -⟩ := run_frame m 5
  have raised : (m.run 5).state.q ≠ m.q := by decide +kernel
  have moved : (m.run 5).state.register 0 ≠ m.register 0 := by decide +kernel
  have stored : (m.run 5).state.read 0x10 ≠ m.read 0x10 := by decide +kernel
  exact ⟨by decide +kernel, raised, parts .q raised, moved, registers 0 moved, stored,
    bytes 0x10 stored⟩

end Machine

end Cosmac
