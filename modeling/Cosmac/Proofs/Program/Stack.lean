import Cosmac.Proofs.Machine.Changes
import Cosmac.Proofs.Machine.History
import Cosmac.Proofs.Program.Accumulate

/-!
A stack at the data pointer. What is pushed lies above the pointer, the last byte first, and a
program that advances the pointer and loads through it takes the bytes off from there. Main
statement: a program that pushes bytes and then pops as many of them loads these bytes in reverse,
and leaves the pointer and the memory outside its stack as they were.
-/

set_option autoImplicit false
set_option relaxedAutoImplicit false

namespace Cosmac

open Isa

namespace Program

/-- Code that pushes bytes: each is loaded from behind its opcode by `LDI`, and pushed by `STXD`. -/
def pushAll (bytes : List Byte) : List Item :=
  bytes.flatMap fun byte => [.immediate .load byte, .push]

/-- Code that pops so many bytes: for each, `IRX` advances the data pointer and `LDX` loads. -/
def popAll (count : Nat) : List Byte := (List.replicate count [0x60, 0xF0]).flatten

/-- What `LDX` left in `D`, out of the events that an observer was told of. -/
def popped (events : List Event) : List Byte :=
  (events.filter (·.opcode = 0xF0)).map (·.registers.d)

private theorem length_pushAll (bytes : List Byte) : (pushAll bytes).length = 2 * bytes.length := by
  simp only [pushAll, List.length_flatMap, List.length_cons, List.length_nil, List.map_const',
    List.sum_replicate_nat]
  exact Nat.mul_comm _ _

private theorem length_code_pushAll (bytes : List Byte) :
    (code (pushAll bytes)).length = 3 * bytes.length := by
  induction bytes with
  | nil => rfl
  | cons byte rest ih =>
    have first : code (pushAll (byte :: rest)) = [0xF8, byte, 0x73] ++ code (pushAll rest) := rfl
    rw [first, List.length_append, ih, List.length_cons]
    simp only [List.length_cons, List.length_nil]
    omega

private theorem length_popAll (count : Nat) : (popAll count).length = 2 * count := by
  simp [popAll, Nat.mul_comm]

private theorem evaluate_pushAll (acc : Accumulator) (bytes : List Byte) :
    (evaluate acc (pushAll bytes)).1 = bytes ∧ (evaluate acc (pushAll bytes)).2.df = acc.df := by
  induction bytes generalizing acc with
  | nil => exact ⟨rfl, rfl⟩
  | cons byte rest ih =>
    obtain ⟨pushed, df⟩ := ih ⟨byte, acc.df⟩
    exact ⟨congrArg (byte :: ·) pushed, df⟩

private theorem popped_cons (event : Event) (events : List Event) :
    popped (event :: events) =
      if event.opcode = 0xF0 then event.registers.d :: popped events else popped events := by
  simp only [popped, List.filter_cons, decide_eq_true_eq]
  split <;> rfl

private theorem popped_append (events more : List Event) :
    popped (events ++ more) = popped events ++ popped more := by
  simp only [popped, List.filter_append, List.map_append]

end Program

namespace Machine

open Program

variable {m m' m'' : Machine Bus.Flat} {p : Nibble} {start : Word} {rest : List Byte}

private theorem popped_run_add {steps : Nat} (first : m.Runs steps m') (more : Nat) :
    popped (m.run (steps + more)).events =
      popped (m.run steps).events ++ popped (m'.run more).events := by
  obtain ⟨ok, rfl⟩ := first
  rw [run_add_of_ok ok]
  exact popped_append _ _

/-! ### Pops -/

/-- So many steps complete, run through `size` bytes of code, advance the data pointer by `places`
and pop some bytes, without writing to memory. -/
structure Pops (m : Machine Bus.Flat) (steps size places : Nat) (bytes : List Byte)
    (m' : Machine Bus.Flat) : Prop extends m.Proceeds steps size m' where
  pointer : m'.pointer = m.pointer + .ofNat 16 places
  memory : m'.memory = m.memory
  df : m'.df = m.df
  told : m.observed = true → popped (m.run steps).events = bytes

theorem Pops.refl (m : Machine Bus.Flat) : m.Pops 0 0 0 [] m where
  toProceeds := .refl m
  pointer := (BitVec.add_zero _).symm
  memory := rfl
  df := rfl
  told := fun _ => rfl

theorem Pops.trans {steps size places steps' size' places' : Nat} {bytes bytes' : List Byte}
    (first : m.Pops steps size places bytes m') (second : m'.Pops steps' size' places' bytes' m'') :
    m.Pops (steps + steps') (size + size') (places + places') (bytes ++ bytes') m'' where
  toProceeds := first.toProceeds.trans second.toProceeds
  pointer := by rw [second.pointer, first.pointer, BitVec.ofNat_add, BitVec.add_assoc]
  memory := second.memory.trans first.memory
  df := second.df.trans first.df
  told := by
    intro watched
    have still : m'.observed = true := by
      rw [← first.runs.state, (m.observed_run steps).2, watched]
    rw [popped_run_add first.runs, first.told watched, second.told still]

private theorem AtCode.of_pops {front bytes : List Byte} {steps places : Nat}
    (here : m.AtCode p start (front ++ rest)) (pops : m.Pops steps front.length places bytes m') :
    m'.AtCode p (start + .ofNat 16 front.length) rest := by
  refine here.of_proceeds pops.toProceeds ?_
  rw [pops.memory]
  exact here.holds_rest

private theorem popped_run_one (watched : m.observed = true) (ok : m.step.result = .ok ()) :
    popped (m.run 1).events = if m.atCounter = 0xF0 then [m.step.state.d] else [] := by
  rw [events_run_of_observed watched, attempts_one, completing_singleton_of_ok ok,
    List.map_singleton, popped_cons]
  rfl

private theorem AtCode.pops_irx (here : m.AtCode p start ([0x60] ++ rest)) :
    m.Pops 1 1 1 [] m.step.state := by
  have opcode : m.atCounter = 0x60 := here.atCounter
  have decoded : m.instruction = .advancePointer := by
    rw [instruction, opcode]
    rfl
  have apart : m.x ≠ m.p := here.selected ▸ here.apart
  have completes : m.instruction ≠ .saveContext := by
    rw [decoded]
    decide
  have ok : m.step.result = .ok () := by rw [step_of_ne_saveContext m completes]
  have runs := Runs.step ok
  have pointer : (m.fetched m.atCounter).pointer = m.pointer := register_fetched_of_ne m _ apart
  obtain ⟨count, state⟩ := m.exists_state_step
  rw [decoded] at state
  rw [state] at runs ⊢
  refine ⟨⟨runs, rfl, rfl, ?counter, ?others⟩, ?pointer, rfl, rfl, ?told⟩
  case counter =>
    exact (register_setRegister_of_ne _ _ apart).trans (register_fetched m m.atCounter)
  case others =>
    intro j notCounter notPointer
    exact (register_setRegister_of_ne _ _ notPointer.symm).trans
      (register_fetched_of_ne m _ notCounter)
  case pointer =>
    rw [← pointer]
    exact (m.fetched m.atCounter).r.get_set_self m.x _
  case told =>
    intro watched
    rw [popped_run_one watched ok, opcode]
    rfl

private theorem AtCode.pops_ldx (here : m.AtCode p start ([0xF0] ++ rest)) :
    m.Pops 1 1 0 [m.atPointer] m.step.state := by
  have opcode : m.atCounter = 0xF0 := here.atCounter
  have decoded : m.instruction = .compute .load .pointer := by
    rw [instruction, opcode]
    rfl
  have apart : m.x ≠ m.p := here.selected ▸ here.apart
  have completes : m.instruction ≠ .saveContext := by
    rw [decoded]
    decide
  have ok : m.step.result = .ok () := by rw [step_of_ne_saveContext m completes]
  have runs := Runs.step ok
  have pointer : (m.fetched m.atCounter).pointer = m.pointer := register_fetched_of_ne m _ apart
  obtain ⟨count, state⟩ := m.exists_state_step
  rw [decoded] at state
  have loaded : m.step.state.d = m.atPointer := by
    rw [state]
    exact congrArg m.read pointer
  have told : m.observed = true → popped (m.run 1).events = [m.atPointer] := by
    intro watched
    rw [popped_run_one watched ok, if_pos opcode, loaded]
  rw [state] at runs ⊢
  refine ⟨⟨runs, rfl, rfl, register_fetched m m.atCounter, ?others⟩, ?pointer, rfl, rfl, told⟩
  case others =>
    intro j notCounter _
    exact register_fetched_of_ne m m.atCounter notCounter
  case pointer => exact pointer.trans (BitVec.add_zero _).symm

private theorem AtCode.pops_all {count : Nat} (here : m.AtCode p start (popAll count)) :
    ∃ m', m.Pops (2 * count) (2 * count) count (Bus.readEach m.memory (m.pointer + 1) count)
      m' := by
  -- On the number: the bytes that are left stay above the pointer, for popping writes nothing.
  induction count generalizing m start with
  | zero => exact ⟨m, .refl m⟩
  | succ count ih =>
    have code : popAll (count + 1) = [0x60] ++ ([0xF0] ++ popAll count) := rfl
    rw [code] at here
    have advanced := here.pops_irx
    have there := here.of_pops advanced
    have loaded := there.pops_ldx
    have both := advanced.trans loaded
    obtain ⟨m', left⟩ := ih (there.of_pops loaded)
    have top : m.step.state.atPointer = Bus.read m.memory (m.pointer + 1) := by
      rw [atPointer, read, advanced.memory, advanced.pointer]
      rfl
    have below : Bus.readEach m.step.state.step.state.memory
        (m.step.state.step.state.pointer + 1) count =
        Bus.readEach m.memory (m.pointer + 1 + 1) count := by
      rw [both.memory, both.pointer]
      rfl
    have all := both.trans left
    have steps : 1 + 1 + 2 * count = 2 * (count + 1) := by omega
    have places : 1 + 0 + count = count + 1 := by omega
    rw [top, below, steps, places] at all
    rw [Bus.readEach_succ]
    exact ⟨m', all⟩

/-! ### Pushes and pops -/

private theorem Pushes.readEach_above {steps size : Nat} {bytes : List Byte}
    (pushed : m.Pushes steps size bytes m') (fits : bytes.length ≤ addressCount) :
    Bus.readEach m'.memory (m'.pointer + 1) bytes.length = bytes.reverse := by
  apply List.ext_getElem
  · rw [Bus.length_readEach, List.length_reverse]
  · intro i inside _
    rw [Bus.length_readEach] at inside
    have address : m'.pointer + 1 + .ofNat 16 i =
        m.pointer - .ofNat 16 (bytes.length - 1 - i) := by
      have split : bytes.length = bytes.length - 1 - i + (1 + i) := by omega
      rw [pushed.pointer]
      nth_rewrite 1 [split]
      rw [Bus.sub_ofNat_add, BitVec.ofNat_add]
      bv_omega
    rw [List.getElem_reverse, ← pushed.read fits, ← address]
    simp only [Bus.readEach, List.getElem_map, List.getElem_range]
    rfl

private theorem popped_run_of_items {items : List Item} {limit : Nat}
    (executed : ∀ s ∈ m.attempts limit, ∃ item ∈ items, s.instruction = item.instruction) :
    popped (m.run limit).events = [] := by
  rw [events_run, popped, List.map_eq_nil_iff, List.filter_eq_nil_iff]
  intro event member loads
  obtain ⟨s, among, rfl⟩ := List.mem_map.mp member
  obtain ⟨item, -, decoded⟩ :=
    executed s (List.mem_of_mem_filter (List.mem_of_mem_filter among))
  have opcode : s.atCounter = 0xF0 := of_decide_eq_true loads
  have load : Instruction.ofByte 0xF0 = .compute .load .pointer := rfl
  rw [instruction, opcode, load] at decoded
  cases item <;> cases decoded

/-- A stack is last in, first out. A program that pushes bytes, each loaded by `LDI` and pushed by
`STXD`, and then pops as many, each by `IRX` and `LDX`, completes and shows an observer these bytes
in reverse as what `LDX` loads. The data pointer is back where it was, with the bytes in memory from
there downward; no other cell, no other register but the program counter, and not `DF` is changed.
-/
theorem run_stack_reverses (bytes : List Byte) {m : Machine Bus.Flat} {p x : Nibble}
    {start top : Word}
    (holds : Bus.readEach m.memory start (5 * bytes.length) =
      code (pushAll bytes) ++ popAll bytes.length)
    (selected : m.p = p) (counter : m.register p = start)
    (pointing : m.x = x) (pointer : m.register x = top) (apart : x ≠ p)
    (clear : ∀ i < bytes.length, ∀ offset < 5 * bytes.length,
      top - .ofNat 16 i ≠ start + .ofNat 16 offset) :
    let k := bytes.length
    let outcome := m.run (4 * k)
    outcome.result = .ok (4 * k) ∧
      (m.observed = true →
        (outcome.events.filter (·.opcode = 0xF0)).map (·.registers.d) = bytes.reverse) ∧
      outcome.state.p = p ∧ outcome.state.x = x ∧
      outcome.state.register x = top ∧
      outcome.state.register p = start + .ofNat 16 (5 * k) ∧
      (∀ j, j ≠ p → j ≠ x → outcome.state.register j = m.register j) ∧
      (∀ i (_ : i < k), outcome.state.read (top - .ofNat 16 i) = bytes[i]) ∧
      (∀ address, (∀ i < k, address ≠ top - .ofNat 16 i) →
        outcome.state.read address = m.read address) ∧
      outcome.state.df = m.df := by
  intro k outcome
  obtain rfl := selected
  obtain rfl := pointing
  obtain rfl := pointer
  have length : (code (pushAll bytes) ++ popAll bytes.length).length = 5 * bytes.length := by
    rw [List.length_append, length_code_pushAll, length_popAll]
    omega
  have fits : bytes.length ≤ addressCount := by
    cases bytes with
    | nil => exact Nat.zero_le _
    | cons byte rest => exact Bus.Apart.le_addressCount clear (by simp)
  have here : m.AtCode m.p start (code (pushAll bytes) ++ popAll bytes.length) :=
    ⟨rfl, counter, apart, length.symm ▸ holds⟩
  obtain ⟨evaluated, df⟩ := evaluate_pushAll m.accumulator bytes
  obtain ⟨m', pushed, left, ahead, executed⟩ :=
    here.pushes_code (by rw [evaluated, length]; exact clear)
  rw [evaluated, length_pushAll, length_code_pushAll] at pushed
  rw [length_pushAll] at executed
  obtain ⟨m'', pops⟩ := ahead.pops_all
  rw [pushed.readEach_above fits] at pops
  have all := pushed.proceeds.trans pops.toProceeds
  have steps : 2 * bytes.length + 2 * bytes.length = 4 * bytes.length := by omega
  have size : 3 * bytes.length + 2 * bytes.length = 5 * bytes.length := by omega
  rw [steps, size] at all
  have state : outcome.state = m'' := all.runs.state
  have memory (address : Word) : m''.read address = m'.read address :=
    congrArg (Bus.read · address) pops.memory
  rw [state]
  refine ⟨all.runs.result, ?told, all.selected, all.pointing, ?pointer, ?counter, all.others,
    ?pushed, ?unchanged, ?df⟩
  case told =>
    intro watched
    have still : m'.observed = true := by
      rw [← pushed.runs.state, (m.observed_run _).2, watched]
    show popped (m.run (4 * bytes.length)).events = bytes.reverse
    rw [← steps, popped_run_add pushed.runs, popped_run_of_items executed, pops.told still]
    rfl
  case pointer =>
    have back : m''.pointer = m.pointer := by
      rw [pops.pointer, pushed.pointer, BitVec.sub_add_cancel]
    exact (congrArg m''.register all.pointing).symm.trans back
  case counter =>
    rw [all.register_counter]
    exact congrArg (· + _) counter
  case pushed =>
    intro i inside
    rw [memory]
    exact pushed.read fits inside
  case unchanged =>
    intro address missed
    rw [memory]
    exact pushed.read_of_ne missed
  case df =>
    rw [pops.df]
    exact (congrArg Accumulator.df left).trans df

/-- Three bytes on a stack that reaches from address one across address zero to the last one. -/
theorem run_stack_reverses_across_end :
    let code := [0xF8, 0xA1, 0x73, 0xF8, 0xB2, 0x73, 0xF8, 0xC3, 0x73, 0x60, 0xF0, 0x60, 0xF0, 0x60,
      0xF0]
    let m : Machine Bus.Flat :=
      { Machine.new (Bus.writeEach Bus.write Bus.Flat.zero 0x100 code) with
        p := 3, x := 2, r := ((Bank.fill 0).set 3 0x100).set 2 1, observed := true }
    let outcome := m.run 12
    outcome.result = .ok 12 ∧
      (outcome.events.filter (·.opcode = 0xF0)).map (·.registers.d) = [0xC3, 0xB2, 0xA1] ∧
      outcome.state.register 2 = 1 ∧ outcome.state.register 3 = 0x10F ∧
      outcome.state.read 0xFFFF = 0xC3 ∧ outcome.state.df = m.df := by
  intro code m outcome
  have holds : Bus.readEach m.memory 0x100 15 =
      Program.code (pushAll [0xA1, 0xB2, 0xC3]) ++ popAll 3 := by
    decide +kernel
  have counter : m.register 3 = 0x100 := by decide +kernel
  have pointer : m.register 2 = 1 := by decide +kernel
  have clear : ∀ i < 3, ∀ offset < 15, (1 : Word) - .ofNat 16 i ≠ 0x100 + .ofNat 16 offset := by
    decide
  obtain ⟨result, told, -, -, pointer, counter, -, pushed, -, df⟩ :=
    run_stack_reverses [0xA1, 0xB2, 0xC3] holds rfl counter rfl pointer (by decide) clear
  exact ⟨result, told rfl, pointer, counter, pushed 2 (by decide), df⟩

end Machine

end Cosmac
