import Cosmac.Proofs.Isa.Listed
import Cosmac.Proofs.Machine.Session
import Cosmac.Proofs.Raw.Machine

/-!
On a machine whose selectors are nibbles no access can miss. This module embeds that machine into
the one on plain bytes and arrays and goes through the operations: each hits, and leaves the
embedding of what the operation on nibbles leaves. Main statement: so does every session of
commands.
-/

set_option autoImplicit false
set_option relaxedAutoImplicit false

namespace Cosmac

open Isa

namespace Bus

variable {σ : Type} [Bus σ]

private theorem writeEach?_eq_some {write? : σ → Word → Byte → Option σ}
    (hits : ∀ memory address value, write? memory address value = some (write memory address value))
    (memory : σ) (address : Word) (bytes : List Byte) :
    writeEach? write? memory address bytes = some (writeEach write memory address bytes) := by
  induction bytes generalizing memory address with
  | nil => rfl
  | cons byte rest ih =>
    rw [writeEach?, hits]
    exact ih (write memory address byte) (address + 1)

private theorem loadEach?_eq_some {write? : σ → Word → Byte → Option σ}
    (hits : ∀ memory address value, write? memory address value = some (write memory address value))
    (memory : σ) (start : Word) (image : List Byte) :
    loadEach? write? memory start image =
      some ((loadEach write memory start image).result,
        (loadEach write memory start image).state) := by
  unfold loadEach? loadEach
  by_cases fits : start.toNat + image.length ≤ addressCount
  · rw [if_pos fits, if_pos fits, writeEach?_eq_some hits]
    rfl
  · rw [if_neg fits, if_neg fits]
    rfl

instance : LawfulCells Flat where
  read? memory address := memory.cells.at?_toNat address
  write? memory address value := by
    simp only [Cells.write?, Bank.put?_toNat, Option.map_some, write]
  load? memory start image := by
    by_cases fits : start.toNat + image.length ≤ addressCount
    · have copied := memory.cells.copy?_of_le fits
      have loaded : Bus.load memory start image = _ := dif_pos fits
      simp only [Cells.load?, if_pos fits, copied, loaded]
      rfl
    · have refused : Bus.load memory start image = _ := dif_neg fits
      simp only [Cells.load?, if_neg fits, refused]
      rfl

private theorem Folded.write?_eq_some (memory : Folded) (address : Word) (value : Byte) :
    Cells.write? memory address value = some (write memory address value) :=
  dif_pos (memory.cell address).isLt

instance : LawfulCells Folded where
  read? memory address := Array.getElem?_eq_getElem (memory.cell address).isLt
  write? := Folded.write?_eq_some
  load? := loadEach?_eq_some Folded.write?_eq_some

end Bus

namespace Machine

variable {σ : Type}

/-- The machine on plain bytes and arrays that stands for this one. -/
def raw (m : Machine σ) : Raw σ where
  d := m.d
  df := m.df
  b := m.b
  r := m.r
  p := m.p.wide
  x := m.x.wide
  n := m.n.wide
  i := m.i.wide
  t := m.t
  ie := m.ie
  q := m.q
  ef := m.ef.bank
  bus := m.bus
  count := m.count
  observed := m.observed
  memory := m.memory

variable (m : Machine σ)

@[simp] private theorem raw_d : m.raw.d = m.d := rfl

@[simp] private theorem raw_p : m.raw.p = m.p.wide := rfl

@[simp] private theorem raw_x : m.raw.x = m.x.wide := rfl

@[simp] private theorem raw_n : m.raw.n = m.n.wide := rfl

@[simp] private theorem raw_bus : m.raw.bus = m.bus := rfl

@[simp] theorem cell?_raw (k : Nibble) : m.raw.cell? k.wide = some (m.register k) := by
  rw [Raw.cell?, Nibble.toNat_wide]
  exact m.r.at?_toNat k

@[simp] private theorem setCell?_raw (k : Nibble) (value : Word) :
    m.raw.setCell? k.wide value = some (m.setRegister k value).raw := by
  have put := m.r.put?_toNat k value
  simp only [Raw.setCell?, Nibble.toNat_wide, raw, put]
  rfl

@[simp] private theorem advance?_raw (k : Nibble) (places : Word) :
    m.raw.advance? k.wide places = some (m.advance k places).raw := by
  rw [Raw.advance?, cell?_raw]
  exact setCell?_raw m k _

@[simp] private theorem retreat?_raw (k : Nibble) :
    m.raw.retreat? k.wide = some (m.retreat k).raw := by
  rw [Raw.retreat?, cell?_raw]
  exact setCell?_raw m k _

private theorem setRegister_setRegister (k : Nibble) (u v : Word) :
    (m.setRegister k u).setRegister k v = m.setRegister k v :=
  congrArg (fun r => ({ m with r } : Machine σ)) (m.r.set_set k u v)

private theorem level?_raw (flag : Flag) : m.raw.level? flag = some (m.ef.level flag) :=
  m.ef.at?_index_bank flag

theorem ask?_raw (number : Byte) (flag : Flag) :
    m.raw.ask? number flag =
      some (m.counter, m.pointer, m.register number.low, m.ef.level flag) := by
  simp only [Raw.ask?, Byte.mask_eq_wide_low, raw_p, raw_x, cell?_raw, level?_raw]
  rfl

theorem drive?_raw (flag : Flag) (active : Bool) :
    m.raw.drive? flag active = some (m.drive flag active).raw := by
  have put := m.ef.put?_index_bank flag active
  simp only [Raw.drive?, raw, put]
  rfl

theorem reset?_raw : m.raw.reset? = some m.reset.raw :=
  setCell?_raw { m with i := 0, n := 0, q := false, ie := true, bus := 0, x := 0, p := 0 } 0 0

theorem new?_eq_raw (memory : σ) : Raw.new? memory = some (Machine.new memory).raw :=
  reset?_raw { Processor.blank with memory }

@[simp] private theorem holds?_raw (test : Test) :
    m.raw.holds? test = some (test.holds m.toProcessor) := by
  obtain ⟨condition, negated⟩ := test
  cases condition with
  | flag flag =>
    simp only [Raw.holds?, level?_raw]
    rfl
  | _ => rfl

private theorem longSkip?_raw (test : Test) :
    m.raw.longSkip? test = some (m.longSkip test).raw := by
  cases holds : test.holds m.toProcessor with
  | true => simp [Raw.longSkip?, longSkip, holds]
  | false => simp [Raw.longSkip?, longSkip, holds]

variable [Bus σ] [Cells σ] [LawfulCells σ]

@[simp] private theorem peek?_raw (k : Nibble) :
    m.raw.peek? k.wide = some (m.read (m.register k)) := by
  rw [Raw.peek?, cell?_raw]
  exact LawfulCells.read? m.memory (m.register k)

@[simp] private theorem poke?_raw (k : Nibble) (value : Byte) :
    m.raw.poke? k.wide value = some (m.write (m.register k) value).raw := by
  rw [Raw.poke?, cell?_raw]
  show (Cells.write? m.memory (m.register k) value).bind _ = _
  rw [LawfulCells.write?]
  rfl

@[simp] private theorem loadD?_raw (k : Nibble) :
    m.raw.loadD? k.wide = some (m.setD (m.read (m.register k))).raw := by
  rw [Raw.loadD?, peek?_raw]
  rfl

private theorem branch?_raw (test : Test) : m.raw.branch? test = some (m.branch test).raw := by
  cases holds : test.holds m.toProcessor with
  | true =>
    have taken : m.branch test = m.setCounter (m.counter.withLow m.atCounter) := if_pos holds
    simp only [Raw.branch?, holds?_raw, holds, raw_p, peek?_raw, cell?_raw, setCell?_raw,
      Option.bind_eq_bind, Option.bind_some, if_true, taken]
    rfl
  | false => simp [Raw.branch?, branch, holds]

private theorem longBranch?_raw (test : Test) :
    m.raw.longBranch? test = some (m.longBranch test).raw := by
  cases holds : test.holds m.toProcessor with
  | true =>
    have high : m.raw.peek? m.raw.p = some m.atCounter := m.peek?_raw m.p
    have moved : m.raw.advance? m.raw.p 1 = some (m.advance m.p 1).raw := m.advance?_raw m.p 1
    have low : (m.advance m.p 1).raw.peek? (m.advance m.p 1).raw.p =
        some (m.read (m.counter + 1)) := by
      have behind : (m.advance m.p 1).register m.p = m.counter + 1 := m.r.get_set_self m.p _
      rw [← behind]
      exact peek?_raw _ m.p
    have gone (address : Word) :
        (m.advance m.p 1).raw.setCell? (m.advance m.p 1).raw.p address =
          some (m.setCounter address).raw := by
      rw [setCounter, ← setRegister_setRegister m m.p (m.register m.p + 1)]
      exact setCell?_raw _ m.p address
    have taken : m.longBranch test =
        m.setCounter (.ofBytes m.atCounter (m.read (m.counter + 1))) := if_pos holds
    simp only [Raw.longBranch?, holds?_raw, holds, high, moved, low, gone, taken,
      Option.bind_eq_bind, Option.bind_some, if_true]
  | false => simp [Raw.longBranch?, longBranch, holds]

private theorem compute?_raw (op : Alu.Operation) (source : Source) :
    m.raw.compute? op source = some (m.compute op source).raw := by
  cases source with
  | pointer =>
    simp only [Raw.compute?, raw_x, peek?_raw, Option.bind_eq_bind, Option.bind_some]
    rfl
  | immediate =>
    simp only [Raw.compute?, raw_p, peek?_raw, advance?_raw, Option.bind_eq_bind,
      Option.bind_some]
    rfl

private theorem restore?_raw (enable : Bool) :
    m.raw.restore? enable = some (m.restore enable).raw := by
  simp only [Raw.restore?, Byte.shift_eq_wide_high, Byte.mask_eq_wide_low, raw_x, peek?_raw,
    advance?_raw, Option.bind_eq_bind, Option.bind_some]
  rfl

/-- Where the instruction names a register, it has to be the latched one. -/
theorem execute?_raw {i : Instruction} (latched : ∀ n, i.register? = some n → n = m.n) :
    m.raw.execute? i = some (m.execute i).raw := by
  cases i with
  | idle => exact m.retreat?_raw m.p
  | load n =>
    obtain rfl := latched n rfl
    exact m.loadD?_raw m.n
  | loadAdvance n =>
    obtain rfl := latched n rfl
    rw [Raw.execute?, raw_n, loadD?_raw]
    exact advance?_raw _ m.n 1
  | store n =>
    obtain rfl := latched n rfl
    exact m.poke?_raw m.n m.d
  | popAdvance =>
    rw [Raw.execute?, raw_x, loadD?_raw]
    exact advance?_raw _ m.x 1
  | pushRetreat =>
    rw [Raw.execute?, raw_x, raw_d, poke?_raw]
    exact retreat?_raw _ m.x
  | increment n =>
    obtain rfl := latched n rfl
    exact m.advance?_raw m.n 1
  | decrement n =>
    obtain rfl := latched n rfl
    exact m.retreat?_raw m.n
  | advancePointer => exact m.advance?_raw m.x 1
  | branch test => exact m.branch?_raw test
  | longBranch test => exact m.longBranch?_raw test
  | longSkip test => exact m.longSkip?_raw test
  | output device =>
    rw [Raw.execute?, raw_x, peek?_raw]
    exact advance?_raw { m with bus := m.atPointer } m.x 1
  | input device =>
    rw [Raw.execute?, raw_x, raw_bus, poke?_raw]
    rfl
  | restore enable => exact m.restore?_raw enable
  | compute op source => exact m.compute?_raw op source
  | getLow n =>
    obtain rfl := latched n rfl
    rw [Raw.execute?, raw_n, cell?_raw]
    rfl
  | getHigh n =>
    obtain rfl := latched n rfl
    rw [Raw.execute?, raw_n, cell?_raw]
    rfl
  | putLow n =>
    obtain rfl := latched n rfl
    rw [Raw.execute?, raw_n, cell?_raw]
    exact m.setCell?_raw m.n _
  | putHigh n =>
    obtain rfl := latched n rfl
    rw [Raw.execute?, raw_n, cell?_raw]
    exact m.setCell?_raw m.n _
  | selectCounter n =>
    obtain rfl := latched n rfl
    rfl
  | selectPointer n =>
    obtain rfl := latched n rfl
    rfl
  | setQ level => rfl
  | shift direction ring => rfl
  | pass => rfl
  | saveContext => rfl

theorem step?_raw : m.raw.step? = some (m.step.result, m.step.state.raw) := by
  have opcode : m.raw.peek? m.raw.p = some m.atCounter := m.peek?_raw m.p
  have moved : m.raw.advance? m.raw.p 1 = some (m.advance m.p 1).raw := m.advance?_raw m.p 1
  have entry : Isa.table.at? m.atCounter.toNat = some (Isa.info m.atCounter) :=
    Isa.table.at?_toNat m.atCounter
  have latched : { (m.advance m.p 1).raw with
      i := m.atCounter >>> 4, n := m.atCounter &&& 0x0F } = (m.fetched m.atCounter).raw := by
    rw [Byte.shift_eq_wide_high, Byte.mask_eq_wide_low]
    rfl
  have executed : (m.fetched m.atCounter).raw.execute? (Instruction.ofByte m.atCounter) =
      some ((m.fetched m.atCounter).execute m.instruction).raw :=
    execute?_raw _ fun _ names => eq_low_of_register? names
  have counter : (m.fetched m.atCounter).raw.cell? (m.advance m.p 1).raw.p =
      some (m.fetched m.atCounter).counter := cell?_raw _ m.p
  simp only [Raw.step?, opcode, moved, entry, latched, counter, executed, Option.bind_eq_bind,
    Option.bind_some]
  by_cases saves : m.instruction = .saveContext
  · rw [step_of_saveContext m saves]
    exact if_pos saves
  · rw [step_of_ne_saveContext m saves]
    exact if_neg saves

theorem runFrom?_raw (remaining completed : Nat) :
    m.raw.runFrom? completed remaining =
      some ((runFrom remaining completed m #[] #[]).result,
        (runFrom remaining completed m #[] #[]).state.raw) := by
  induction remaining generalizing completed m with
  | zero => rfl
  | succ remaining ih =>
    rw [Raw.runFrom?, step?_raw, runFrom_succ]
    cases m.step.result with
    | ok _ => exact ih m.step.state (completed + 1)
    | error fault => rfl

theorem load?_raw (start : Word) (image : List Byte) :
    m.raw.load? start image =
      some ((m.load start image).result, (m.load start image).state.raw) := by
  have loaded := LawfulCells.load? m.memory start image
  rw [Raw.load?]
  show (Cells.load? m.memory start image).bind _ = _
  rw [loaded]
  rfl

theorem configure?_raw (command : Command) :
    m.raw.configure? command = some (m.configure command).raw := by
  cases command with
  | setRegister number value =>
    rw [Raw.configure?, Byte.mask_eq_wide_low]
    exact m.setCell?_raw number.low value
  | setP number =>
    rw [Raw.configure?, Byte.mask_eq_wide_low]
    rfl
  | setX number =>
    rw [Raw.configure?, Byte.mask_eq_wide_low]
    rfl
  | drive flag active => exact m.drive?_raw flag active
  | setCounter address => exact m.setCell?_raw m.p address
  | writeAtCounter value => exact m.poke?_raw m.p value
  | write address value =>
    show (Cells.write? m.memory address value).bind _ = _
    rw [LawfulCells.write?]
    rfl
  | reset => exact m.reset?_raw
  | _ => rfl

theorem perform?_raw (command : Command) :
    m.raw.perform? command =
      some ((m.perform command).result, (m.perform command).state.raw) := by
  have configured := m.configure?_raw command
  cases command with
  | load start image =>
    rw [Raw.perform?, load?_raw]
    rfl
  | step =>
    rw [Raw.perform?, step?_raw]
    rfl
  | run limit => exact m.runFrom?_raw limit 0
  | _ =>
    exact congrArg (Option.bind · fun after => some ((.ok 0 : Except Fault Nat), after)) configured

theorem session?_raw (commands : List Command) :
    m.raw.session? commands =
      some ((m.session commands).map fun outcome => (outcome.result, outcome.state.raw)) := by
  induction commands generalizing m with
  | nil => rfl
  | cons command rest ih =>
    rw [Raw.session?, perform?_raw]
    show ((m.perform command).state.raw.session? rest).bind _ = _
    rw [ih]
    rfl

end Machine

end Cosmac
