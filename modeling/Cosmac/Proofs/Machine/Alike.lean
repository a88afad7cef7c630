import Cosmac.Proofs.Bus.Alike
import Cosmac.Proofs.Machine.Session

/-!
A machine sees memory through its bus only. Memories of two kinds may differ in any way that
neither shows in what is read nor comes to show by writing to both; machines over them cannot tell
them apart. Main statement: in every session such machines answer, report and change their
processors in the same way, so folded memory of full size serves as flat memory, and the lower half
of a memory that ignores writes there outlasts every program.
-/

set_option autoImplicit false
set_option relaxedAutoImplicit false

namespace Cosmac

namespace Outcome

variable {α σ τ : Type} {related : σ → τ → Prop}

theorem Alike.after {o : Outcome α σ} {o' : Outcome α τ} (alike : o.Alike related o')
    (log : List Record) (events : List Event) :
    (o.after log events).Alike related (o'.after log events) where
  result := alike.result
  state := alike.state
  log := congrArg (log ++ ·) alike.log
  events := congrArg (events ++ ·) alike.events

theorem Alike.later {o : Outcome Nat σ} {o' : Outcome Nat τ} (alike : o.Alike related o')
    (before : Nat) : (o.later before).Alike related (o'.later before) where
  result := congrArg (Except.map (before + ·)) alike.result
  state := alike.state
  log := congrArg (List.map (Record.later before)) alike.log
  events := alike.events

end Outcome

namespace Machine

variable {σ τ : Type}

/-- Machines with the same processor state and related memories. -/
structure Alike (related : σ → τ → Prop) (m : Machine σ) (m' : Machine τ) : Prop where
  processor : m.toProcessor = m'.toProcessor
  memory : related m.memory m'.memory

variable {related : σ → τ → Prop} {m : Machine σ} {m' : Machine τ}

theorem Alike.update (alike : m.Alike related m') (change : Processor → Processor) :
    ({ m with toProcessor := change m.toProcessor } : Machine σ).Alike related
      { m' with toProcessor := change m'.toProcessor } :=
  ⟨congrArg change alike.processor, alike.memory⟩

theorem Alike.fetched (alike : m.Alike related m') (opcode : Byte) :
    (m.fetched opcode).Alike related (m'.fetched opcode) :=
  alike.update fun proc =>
    { proc with
      r := proc.r.set proc.p (proc.r.get proc.p + 1)
      i := opcode.high
      n := opcode.low }

private theorem Alike.notice (alike : m.Alike related m') (address : Word) (opcode : Byte) :
    notice address opcode m = notice address opcode m' := by
  rw [Machine.notice, Machine.notice, alike.processor]

private theorem Alike.transfers (alike : m.Alike related m') (i : Isa.Instruction) :
    transfers i m = transfers i m' := by
  cases i <;> simp only [Machine.transfers, alike.processor]

variable [Bus σ] [Bus τ]

private theorem Alike.atCounter (alike : m.Alike related m') (sound : Bus.Alike related) :
    m.atCounter = m'.atCounter := by
  rw [Machine.atCounter, Machine.atCounter, alike.processor]
  exact sound.read alike.memory _

theorem Alike.execute (alike : m.Alike related m') (sound : Bus.Alike related)
    (i : Isa.Instruction) : (m.execute i).Alike related (m'.execute i) := by
  obtain ⟨proc, a⟩ := m
  obtain ⟨proc', b⟩ := m'
  obtain ⟨same, memory⟩ := alike
  obtain rfl : proc = proc' := same
  have read := sound.read memory
  cases i with
  | store n | pushRetreat | input => exact ⟨rfl, sound.write memory _ _⟩
  | load n | loadAdvance n | popAdvance | output | restore =>
    refine ⟨?_, memory⟩
    simp only [Machine.execute, restore, setD, advance, setRegister, register, atPointer,
      Machine.read, read]
  | compute op source =>
    cases source <;> refine ⟨?_, memory⟩ <;>
      simp only [Machine.execute, compute, setAccumulator, advance, setRegister, register,
        Machine.atCounter, atPointer, Machine.read, read]
  | branch test | longBranch test | longSkip test =>
    simp only [Machine.execute, branch, longBranch, longSkip, Machine.atCounter, Machine.read, read]
    split <;> exact ⟨rfl, memory⟩
  | _ => exact ⟨rfl, memory⟩

theorem Alike.completed (alike : m.Alike related m') (sound : Bus.Alike related) :
    m.completed.Alike related m'.completed := by
  have instruction : m.instruction = m'.instruction :=
    congrArg Isa.Instruction.ofByte (alike.atCounter sound)
  unfold Machine.completed
  rw [alike.atCounter sound, instruction]
  exact ((alike.fetched _).execute sound _).update fun proc => { proc with count := proc.count + 1 }

theorem Alike.step_of_completed (processor : m.toProcessor = m'.toProcessor)
    (opcode : m.atCounter = m'.atCounter) (completed : m.completed.Alike related m'.completed) :
    Outcome.Alike (Machine.Alike related) m.step m'.step := by
  have instruction : m.instruction = m'.instruction :=
    congrArg Isa.Instruction.ofByte opcode
  have counter : m.counter = m'.counter :=
    congrArg (fun proc : Processor => proc.counter) processor
  by_cases saves : m.instruction = .saveContext
  · have saves' : m'.instruction = .saveContext := instruction ▸ saves
    have memory : related m.memory m'.memory := by
      have kept := completed.memory
      rw [Machine.completed, Machine.completed, saves, saves'] at kept
      exact kept
    have alike : m.Alike related m' := ⟨processor, memory⟩
    rw [step_of_saveContext m saves, step_of_saveContext m' saves', opcode, counter]
    exact ⟨rfl, alike.fetched _, rfl, rfl⟩
  · rw [step_of_ne_saveContext m saves, step_of_ne_saveContext m' (instruction ▸ saves), opcode,
      counter, instruction, completed.transfers, completed.notice]
    exact ⟨rfl, completed, rfl, rfl⟩

theorem Alike.step (alike : m.Alike related m') (sound : Bus.Alike related) :
    Outcome.Alike (Machine.Alike related) m.step m'.step :=
  Alike.step_of_completed alike.processor (alike.atCounter sound) (alike.completed sound)

theorem Alike.run (alike : m.Alike related m') (sound : Bus.Alike related) (limit : Nat) :
    Outcome.Alike (Machine.Alike related) (m.run limit) (m'.run limit) := by
  induction limit generalizing m m' with
  | zero => exact ⟨rfl, alike, rfl, rfl⟩
  | succ n ih =>
    have first := alike.step sound
    cases result : m.step.result with
    | ok _ =>
      rw [run_succ_of_ok result, run_succ_of_ok (first.result ▸ result), first.log, first.events]
      exact ((ih first.state).later 1).after _ _
    | error fault =>
      rw [run_succ_of_error result, run_succ_of_error (first.result ▸ result), first.log,
        first.events]
      exact ⟨rfl, first.state, rfl, rfl⟩

private theorem Alike.configure (alike : m.Alike related m') (sound : Bus.Alike related)
    (command : Command) : (m.configure command).Alike related (m'.configure command) := by
  obtain ⟨proc, a⟩ := m
  obtain ⟨proc', b⟩ := m'
  obtain ⟨same, memory⟩ := alike
  obtain rfl : proc = proc' := same
  cases command with
  | writeAtCounter byte | write address byte => exact ⟨rfl, sound.write memory _ _⟩
  | _ => exact ⟨rfl, memory⟩

theorem Alike.perform (alike : m.Alike related m') (sound : Bus.Alike related) {command : Command}
    (loads : ∀ start image, command = .load start image → Bus.LoadsAlike related start image) :
    Outcome.Alike (Machine.Alike related) (m.perform command) (m'.perform command) := by
  have configured := alike.configure sound command
  cases command with
  | load start image =>
    have loaded := loads start image rfl alike.memory
    exact
      { result := congrArg (Except.map fun _ => 0) loaded.result
        state := ⟨alike.processor, loaded.state⟩
        log := loaded.log
        events := rfl }
  | step =>
    have stepped := alike.step sound
    exact
      { result := congrArg (Except.map fun _ => 1) stepped.result
        state := stepped.state
        log := stepped.log
        events := stepped.events }
  | run limit => exact alike.run sound limit
  | _ => exact ⟨rfl, configured, rfl, rfl⟩

theorem Alike.session (alike : m.Alike related m') (sound : Bus.Alike related)
    {commands : List Command}
    (loads : ∀ start image, .load start image ∈ commands → Bus.LoadsAlike related start image) :
    List.Forall₂ (Outcome.Alike (Machine.Alike related)) (m.session commands)
      (m'.session commands) := by
  refine forall₂_session (fun command member m m' alike => ?_) alike
  have performed : Outcome.Alike (Machine.Alike related) (m.perform command) (m'.perform command) :=
    alike.perform sound fun start image load => loads start image (load ▸ member)
  exact ⟨performed, performed.state⟩

/-- A machine sees memory through its bus only. Machines with the same processor state over related
memories answer, log and show the same and keep the same processor state in every session, however
the two kinds of memory differ inside. So folded memory of full size cannot be told from flat
memory, and no session but one that loads an image changes what is read below `0x8000` in a memory
that ignores writes there. -/
theorem session_sees_bus_only (commands : List Command) :
    (∀ {σ τ : Type} [Bus σ] [Bus τ] {related : σ → τ → Prop}, Bus.Alike related →
      (∀ start image, .load start image ∈ commands → Bus.LoadsAlike related start image) →
      ∀ {m : Machine σ} {m' : Machine τ}, m.toProcessor = m'.toProcessor →
        related m.memory m'.memory →
        List.Forall₂ (Outcome.Alike (Machine.Alike related)) (m.session commands)
          (m'.session commands)) ∧
    (∀ {m : Machine Bus.Folded} {m' : Machine Bus.Flat}, m.toProcessor = m'.toProcessor →
      m.memory.cells.size = addressCount → (∀ address, m.read address = m'.read address) →
        List.Forall₂ (Outcome.Alike (Machine.Alike Bus.Unfolded)) (m.session commands)
          (m'.session commands)) ∧
    (∀ {σ : Type} [Bus σ], Bus.LowReadOnly σ → (∀ start image, .load start image ∉ commands) →
      ∀ {m : Machine σ}, ∀ outcome ∈ m.session commands, ∀ address : Word,
        address.toNat < 0x8000 → outcome.state.read address = m.read address) := by
  refine ⟨?bus, ?folded, ?low⟩
  case bus =>
    intro σ τ _ _ related sound loads m m' processor memory
    exact Alike.session ⟨processor, memory⟩ sound loads
  case folded =>
    intro m m' processor size same
    have alike : m.Alike Bus.Unfolded m' := ⟨processor, size, same⟩
    exact alike.session Bus.Unfolded.alike fun start image _ => Bus.Unfolded.loadsAlike start image
  case low =>
    intro σ _ ignores noLoad m outcome member address low
    -- A machine beside itself: what the relation holds fixed is the lower half at the start.
    have alike : m.Alike (Bus.LowKept m.memory) m := ⟨rfl, rfl, fun _ _ => rfl⟩
    have kept := alike.session (ignores.alike m.memory) fun start image load =>
      absurd load (noLoad start image)
    exact (List.forall₂_same.mp kept outcome member).state.memory.kept address low

/-- A byte stored ahead of the counter is executed and a poked one refused, in folded memory as in
flat memory; read-only memory keeps its first byte through such a session. -/
theorem session_sees_bus_only_of_self_change :
    let commands : List Command :=
      [.setD 0x7B, .writeAtCounter 0x50, .step, .write 2 0x79, .run 3, .reset]
    let flat : Machine Bus.Flat := .new .zero
    let folded : Machine Bus.Folded := .new (.zero 65536)
    let fixed : Machine Bus.RomRam := .new (.ofRom [0x50, 0x7B])
    (flat.session commands).map (·.result) =
        [.ok 0, .ok 0, .ok 1, .ok 0, .error (.unsupported 0x79 "MARK"), .ok 0] ∧
      List.Forall₂ (Outcome.Alike (Machine.Alike Bus.Unfolded)) (folded.session commands)
        (flat.session commands) ∧
      fixed.read 0 = 0x50 ∧
      ∀ outcome ∈ fixed.session commands, outcome.state.read 0 = fixed.read 0 := by
  intro commands flat folded fixed
  have processor (a : Bus.Folded) (b : Bus.Flat) :
      (Machine.new a).toProcessor = (Machine.new b).toProcessor := rfl
  have unfolded : Bus.Unfolded (.zero 65536) .zero :=
    Bus.Unfolded.zero
  obtain ⟨bus, -, low⟩ := session_sees_bus_only commands
  refine ⟨by decide +kernel, ?_, by decide +kernel, ?_⟩
  · exact bus Bus.Unfolded.alike (fun start image _ => Bus.Unfolded.loadsAlike start image)
      (processor _ _) unfolded
  · intro outcome member
    exact low Bus.RomRam.lowReadOnly (by simp [commands]) outcome member 0 (by decide)

end Machine

end Cosmac
