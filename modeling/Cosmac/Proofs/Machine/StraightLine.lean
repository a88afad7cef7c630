import Cosmac.Proofs.Disassembly.Lossless
import Cosmac.Proofs.Machine.Frame
import Cosmac.Proofs.Machine.Run

/-!
Straight-line code runs as it is listed. Code that holds no branch, skip, return or context save,
does not work on its own program counter and is not written over meets its instructions in the
order of the sweep. Main statement: such a run completes one instruction for each entry, shows an
observer the addresses and opcodes of the entries, and ends where the code ends.
-/

set_option autoImplicit false
set_option relaxedAutoImplicit false

namespace Cosmac

namespace Isa

/-- Whether an opcode may lead elsewhere than to the next instruction: `IDL`, a short branch or
`SKP`, `RET`, `DIS`, `SAV`, `MARK`, a long branch or long skip, or `SEP`. -/
def leavesLine (opcode : Byte) : Bool :=
  match opcode.high.toNat with
  | 0x0 => opcode.low.toNat == 0x0
  | 0x3 => true
  | 0x7 => opcode.low.toNat ∈ [0x0, 0x1, 0x8, 0x9]
  | 0xC => opcode.low.toNat != 0x4
  | 0xD => true
  | _ => false

/-- Whether an opcode works on the register `p` or selects it as data pointer: `INC`, `DEC`,
`LDA`, `PLO`, `PHI` or `SEX`. -/
def worksOn (p : Nibble) (opcode : Byte) : Bool :=
  match opcode.high.toNat with
  | 0x1 | 0x2 | 0x4 | 0xA | 0xB | 0xE => opcode.low == p
  | _ => false

private theorem redirects_ofByte :
    ∀ b : Byte, (Instruction.ofByte b).redirects = leavesLine b := by
  decide +kernel

private theorem worksOn_of_alters? :
    ∀ b : Byte, (Instruction.ofByte b).alters?.all (worksOn · b) = true := by
  decide +kernel

private theorem worksOn_of_selects? :
    ∀ b : Byte, (Instruction.ofByte b).selects?.all (worksOn · b) = true := by
  decide +kernel

end Isa

/-- Whether an entry keeps to the line of code that `p` counts: it neither leaves it nor works on
the program counter, and data is a byte that does nothing. -/
structure Disassembly.Entry.Straight (p : Nibble) (entry : Entry) : Prop where
  pass : entry.isData = true → entry.opcode = 0x68
  stays : Isa.leavesLine entry.opcode = false
  aside : Isa.worksOn p entry.opcode = false

instance (p : Nibble) (entry : Disassembly.Entry) : Decidable (entry.Straight p) :=
  decidable_of_iff ((entry.isData = true → entry.opcode = 0x68) ∧
      Isa.leavesLine entry.opcode = false ∧ Isa.worksOn p entry.opcode = false)
    ⟨fun ⟨pass, stays, aside⟩ => ⟨pass, stays, aside⟩,
      fun straight => ⟨straight.pass, straight.stays, straight.aside⟩⟩

namespace Machine

open Isa Disassembly

def nextWrite? {σ : Type} [Bus σ] (m : Machine σ) : Option Word :=
  (m.fetched m.atCounter).written? m.instruction

def Avoids {σ : Type} [Bus σ] (m : Machine σ) (start : Word) (count : Nat) : Prop :=
  ∀ offset < count, m.nextWrite? ≠ some (start + .ofNat 16 offset)

/-- A machine at the start of code that it holds, with another register as data pointer. -/
structure AtCode (p : Nibble) (start : Word) (code : List Byte) (m : Machine Bus.Flat) :
    Prop where
  selected : m.p = p
  counter : m.register p = start
  apart : m.x ≠ p
  holds : Bus.readEach m.memory start code.length = code

variable {p : Nibble} {m : Machine Bus.Flat}

private theorem Avoids.rest {start : Word} {count more : Nat}
    (avoids : m.Avoids start (count + more)) :
    m.Avoids (start + .ofNat 16 count) more := by
  intro offset inside
  rw [BitVec.add_assoc, ← BitVec.ofNat_add]
  exact avoids (count + offset) (Nat.add_lt_add_left inside count)

theorem AtCode.atCounter {start : Word} {opcode : Byte} {rest : List Byte}
    (here : m.AtCode p start (opcode :: rest)) : m.atCounter = opcode := by
  have holds := here.holds
  rw [List.length_cons, Bus.readEach_succ] at holds
  show Bus.read m.memory (m.register m.p) = opcode
  rw [here.selected, here.counter]
  exact (List.cons.inj holds).1

theorem AtCode.holds_rest {start : Word} {bytes rest : List Byte}
    (here : m.AtCode p start (bytes ++ rest)) :
    Bus.readEach m.memory (start + .ofNat 16 bytes.length) rest.length = rest :=
  (Bus.eq_readEach_of_append here.holds.symm).2.symm

private theorem register_completed (stays : leavesLine m.atCounter = false)
    (aside : worksOn m.p m.atCounter = false) (apart : m.x ≠ m.p) :
    m.completed.register m.p = m.register m.p + .ofNat 16 (info m.atCounter).size := by
  have quiet : m.instruction.redirects = false := (redirects_ofByte m.atCounter).trans stays
  have kept : m.instruction.alters? ≠ some m.p := by
    intro alters
    have works := worksOn_of_alters? m.atCounter
    rw [← instruction.eq_def, alters] at works
    exact absurd works (Bool.eq_false_iff.mp aside)
  have moved := (m.fetched m.atCounter).counter_execute (info_mem_listed m.atCounter) quiet kept
    fun _ => apart
  show ((m.fetched m.atCounter).execute m.instruction).register m.p = _
  rw [OpcodeInfo.size, BitVec.ofNat_add, ← BitVec.add_assoc]
  exact moved.trans (congrArg (· + _) (m.r.get_set_self m.p _))

private theorem x_completed_ne (stays : leavesLine m.atCounter = false)
    (aside : worksOn m.p m.atCounter = false) (apart : m.x ≠ m.p) : m.completed.x ≠ m.p := by
  have quiet : m.instruction.redirects = false := (redirects_ofByte m.atCounter).trans stays
  show ((m.fetched m.atCounter).execute m.instruction).x ≠ m.p
  rw [x_execute _ quiet]
  cases selects : m.instruction.selects? with
  | none => exact apart
  | some n =>
    rintro rfl
    have works := worksOn_of_selects? m.atCounter
    rw [← instruction.eq_def, selects] at works
    exact absurd works (Bool.eq_false_iff.mp aside)

theorem AtCode.step {entry : Entry} {rest : List Byte} (formed : entry.WellFormed)
    (straight : entry.Straight p)
    (avoids : m.Avoids (entry.address + .ofNat 16 entry.size) rest.length)
    (here : m.AtCode p entry.address (entry.bytes ++ rest)) :
    m.step.result = .ok () ∧
      m.step.events = notice entry.address entry.opcode m.step.state ∧
      m.step.state.observed = m.observed ∧
      m.step.state.AtCode p (entry.address + .ofNat 16 entry.size) rest := by
  obtain ⟨operandBytes, bytes⟩ := entry.exists_bytes_eq_cons
  have opcode : m.atCounter = entry.opcode := by
    rw [bytes] at here
    exact here.atCounter
  have address : m.counter = entry.address := by
    rw [← here.counter, ← here.selected]
    rfl
  obtain ⟨pass, stays, aside⟩ := straight
  obtain rfl := here.selected
  rw [← opcode] at stays aside
  have quiet : m.instruction.redirects = false := (redirects_ofByte m.atCounter).trans stays
  have completes : m.instruction ≠ .saveContext := by
    intro refused
    rw [refused] at quiet
    contradiction
  -- What was read before the step is read after it, because nothing is written ahead.
  have memory : Bus.readEach m.completed.memory (entry.address + .ofNat 16 entry.size) rest.length =
      rest := by
    rw [← formed.length_bytes]
    refine (Bus.readEach_congr fun offset inside => ?_).trans here.holds_rest
    rw [formed.length_bytes]
    exact (m.fetched m.atCounter).read_execute (avoids offset inside)
  rw [step_of_ne_saveContext m completes, opcode, address]
  refine ⟨rfl, rfl, observed_execute _ _, ?_⟩
  constructor
  · exact p_execute _ quiet
  · rw [formed.size_eq_size_info pass, ← here.counter, ← opcode]
    exact register_completed stays aside here.apart
  · exact x_completed_ne stays aside here.apart
  · exact memory

theorem AtCode.run {start : Word} {code : List Byte}
    (straight : ∀ entry ∈ sweep start code, entry.Straight p)
    (avoids : ∀ s ∈ m.attempts (sweep start code).length, s.Avoids start code.length)
    (here : m.AtCode p start code) :
    (m.run (sweep start code).length).result = .ok (sweep start code).length ∧
      (m.observed = true → (m.run (sweep start code).length).events.map
          (fun event => (event.address, event.opcode)) =
        (sweep start code).map fun entry => (entry.address, entry.opcode)) ∧
      (m.run (sweep start code).length).state.AtCode p (start + .ofNat 16 code.length) [] := by
  -- Along the sweep: being at the bytes that are left is what each step preserves.
  induction start, code using sweep_induction generalizing m with
  | nil start =>
    have arrived : m.AtCode p (start + 0#16) [] := by rwa [BitVec.add_zero]
    rw [sweep_nil]
    exact ⟨rfl, fun _ => rfl, arrived⟩
  | cons entry rest formed swept ih =>
    rw [List.length_append, formed.length_bytes] at avoids ⊢
    rw [swept] at straight avoids ⊢
    rw [List.length_cons] at avoids ⊢
    obtain ⟨straightHead, straightTail⟩ := List.forall_mem_cons.mp straight
    have avoidsHead := avoids m List.mem_cons_self
    obtain ⟨ok, events, observed, there⟩ := here.step formed straightHead avoidsHead.rest
    rw [attempts_succ_of_ok ok] at avoids
    have avoidsTail := (List.forall_mem_cons.mp avoids).2
    obtain ⟨result, traced, arrived⟩ :=
      ih straightTail (fun s member => (avoidsTail s member).rest) there
    rw [run_succ_of_ok ok, BitVec.ofNat_add, ← BitVec.add_assoc]
    refine ⟨?_, ?_, arrived⟩
    · show Except.map (1 + ·) (m.step.state.run _).result = _
      rw [result, Nat.add_comm]
      rfl
    · intro watched
      rw [watched] at observed
      show (m.step.events ++ (m.step.state.run _).events).map _ = _
      rw [List.map_append, traced observed, events, notice, if_pos observed]
      rfl

/-- Straight-line code runs as it is listed: each listed instruction is completed and shown to an
observer in its turn, and the program counter ends behind the code. -/
theorem run_straight_line {m : Machine Bus.Flat} {p : Nibble} {start : Word} {code : List Byte}
    (fits : start.toNat + code.length ≤ addressCount)
    (holds : Bus.readEach m.memory start code.length = code)
    (selected : m.p = p) (counter : m.register p = start) (apart : m.x ≠ p)
    (straight : ∀ entry ∈ sweep start code, entry.Straight p)
    (elsewhere : ∀ s ∈ m.attempts (sweep start code).length, ∀ written ∈ s.nextWrite?,
      ¬ (start.toNat ≤ written.toNat ∧ written.toNat < start.toNat + code.length)) :
    let entries := sweep start code
    let outcome := m.run entries.length
    outcome.result = .ok entries.length ∧
      (m.observed = true → outcome.events.map (fun event => (event.address, event.opcode)) =
        entries.map fun entry => (entry.address, entry.opcode)) ∧
      outcome.state.p = p ∧
      (outcome.state.register p).toNat = (start.toNat + code.length) % addressCount := by
  have avoids : ∀ s ∈ m.attempts (sweep start code).length, s.Avoids start code.length := by
    intro s member offset inside written
    have outside := elsewhere s member _ written
    -- The code ends by the last address, so no offset into it wraps around.
    rw [BitVec.toNat_add, BitVec.toNat_ofNat] at outside
    unfold addressCount at fits
    omega
  have here : m.AtCode p start code := ⟨selected, counter, apart, holds⟩
  obtain ⟨result, traced, arrived⟩ := here.run straight avoids
  refine ⟨result, traced, arrived.selected, ?_⟩
  rw [arrived.counter, BitVec.toNat_add, BitVec.toNat_ofNat, Nat.add_mod_mod]
  rfl

/-- Selects a pointer, pushes a byte below the code and passes a byte of data. -/
theorem run_straight_line_of_push :
    let code := [0xE2, 0xF8, 0x12, 0x73, 0x68]
    let m : Machine Bus.Flat :=
      { Machine.new (Bus.writeEach Bus.write Bus.Flat.zero 4 code) with
        p := 3, r := (Bank.fill 0).set 3 4, observed := true }
    (m.run 4).result = .ok 4 ∧
      (m.run 4).events.map (fun event => (event.address, event.opcode)) =
        [(4, 0xE2), (5, 0xF8), (7, 0x73), (8, 0x68)] ∧
      (m.run 4).state.p = 3 ∧ ((m.run 4).state.register 3).toNat = 9 := by
  intro code m
  have length : (sweep 4 code).length = 4 := by decide +kernel
  have holds : Bus.readEach m.memory 4 code.length = code := by decide +kernel
  have counter : m.register 3 = 4 := by decide +kernel
  have below : ∀ s ∈ m.attempts 4, s.nextWrite?.all (·.toNat < 4) = true := by decide +kernel
  have elsewhere : ∀ s ∈ m.attempts (sweep 4 code).length, ∀ written ∈ s.nextWrite?,
      ¬ ((4 : Word).toNat ≤ written.toNat ∧ written.toNat < (4 : Word).toNat + code.length) := by
    rw [length]
    intro s member written writes inside
    have low := below s member
    rw [Option.mem_def.mp writes] at low
    exact absurd (of_decide_eq_true low) (Nat.not_lt.mpr inside.1)
  have straight : ∀ entry ∈ sweep 4 code, entry.Straight 3 := by decide +kernel
  obtain ⟨result, traced, selected, arrived⟩ :=
    run_straight_line (by decide) holds rfl counter (by decide) straight elsewhere
  rw [length] at result traced selected arrived
  exact ⟨result, (traced rfl).trans (by decide +kernel), selected, arrived⟩

end Machine

end Cosmac
