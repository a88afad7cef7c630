import Cosmac.Proofs.Console.Simulation
import Cosmac.Proofs.Disassembly.Lossless
import Cosmac.Proofs.Raw.Refinement

/-!
Sweeps and consoles on plain arrays. A sweep keeps a position in its bytes, a page and a window of
memory are slices. Main statements: a sweep never leaves its bytes, and no request to a console and
no disassembly misses.
-/

set_option autoImplicit false
set_option relaxedAutoImplicit false

namespace Cosmac

open Isa

/-- The cells of flat memory from one address up to another, if that is a range of addresses. -/
def Bus.Flat.slice? (memory : Bus.Flat) (start stop : Nat) : Option (Array Byte) :=
  Cosmac.slice? memory.cells.cells.toArray start stop

theorem Bus.Flat.slice?_of_le (memory : Bus.Flat) {start stop : Nat}
    (ordered : start ≤ stop) (within : stop ≤ addressCount) :
    memory.slice? start stop = some (memory.cells.cells.toArray.extract start stop) := by
  refine Cosmac.slice?_of_le ordered ?_
  rw [Vector.size_toArray]
  exact within

namespace Disassembly

def entryAt? (address : Word) (bytes : Array Byte) (position : Nat) : Option Entry := do
  let ahead ← slice? bytes position bytes.size
  let opcode ← bytes[position]?
  let info ← Isa.table.at? opcode.toNat
  let operandBytes := ahead.toList.tail.take info.operand.byteCount
  if info.isUndefined || operandBytes.length < info.operand.byteCount then
    some (.ofData address opcode)
  else
    some
      { address, opcode, operandBytes
        mnemonic := info.mnemonic
        operand := info.operand
        size := info.size }

variable (address : Word) {bytes : Array Byte} {position : Nat}

private theorem entryAt?_of_lt (inside : position < bytes.size) :
    entryAt? address bytes position =
      some (.first address bytes[position] (bytes.toList.drop (position + 1))) := by
  have ahead := slice?_of_le (Nat.le_of_lt inside) (Nat.le_refl bytes.size)
  have rest : (bytes.extract position bytes.size).toList.tail =
      bytes.toList.drop (position + 1) := by
    rw [Array.toList_extract, List.extract_eq_take_drop, List.take_of_length_le (by simp),
      List.tail_drop]
  have info : Isa.table.at? bytes[position].toNat = some (Isa.info bytes[position]) :=
    Isa.table.at?_toNat _
  simp only [entryAt?, ahead, Array.getElem?_eq_getElem inside, info, rest, Option.bind_eq_bind,
    Option.bind_some, Entry.first, Entry.decode?]
  split
  · rfl
  · rfl

private theorem one_le_size_of_entryAt? {entry : Entry} (inside : position < bytes.size)
    (found : entryAt? address bytes position = some entry) : 1 ≤ entry.size := by
  rw [entryAt?_of_lt address inside] at found
  obtain rfl := Option.some.inj found
  exact (Entry.first_spec _ _ _).1.one_le_size

def sweepAt? (address : Word) (bytes : Array Byte) (position : Nat) : Option (List Entry) :=
  if inside : position < bytes.size then
    match found : entryAt? address bytes position with
    | none => none
    | some entry =>
      have : 1 ≤ entry.size := one_le_size_of_entryAt? address inside found
      (sweepAt? (address + .ofNat 16 entry.size) bytes (position + entry.size)).map (entry :: ·)
  else
    some []
termination_by bytes.size - position

theorem sweepAt?_eq_some (address : Word) (bytes : Array Byte) (position : Nat) :
    sweepAt? address bytes position = some (sweep address (bytes.toList.drop position)) := by
  fun_induction sweepAt? address bytes position with
  | case1 address position inside missed =>
    rw [entryAt?_of_lt address inside] at missed
    contradiction
  | case2 address position inside entry found sized ih =>
    have first : Entry.first address bytes[position] (bytes.toList.drop (position + 1)) = entry :=
      Option.some.inj ((entryAt?_of_lt address inside).symm.trans found)
    have ahead : bytes.toList.drop position =
        bytes[position] :: bytes.toList.drop (position + 1) :=
      List.drop_eq_getElem_cons inside
    have rest : (bytes.toList.drop (position + 1)).drop (entry.size - 1) =
        bytes.toList.drop (position + entry.size) := by
      rw [List.drop_drop]
      congr 1
      omega
    rw [ih, ahead, sweep_cons, first]
    simp only [rest, Option.map_some]
  | case3 address position outside =>
    have none : bytes.toList.drop position = [] := by
      rw [List.drop_eq_nil_iff, Array.length_toList]
      omega
    rw [none, sweep_nil]

end Disassembly

namespace Raw

open Bus (Flat)
open Console (Reply Request Line tell)

def console? : Option (Raw Flat) := do
  let m ← Raw.new? Flat.zero
  return { m with observed := true }

def answer? (m : Raw Flat) : Request → Option (Except String Reply × Raw Flat)
  | .loadImage image => do
    let (result, after) ← m.load? 0 image
    return (tell result fun _ => .done, after)
  | .step => do
    let (result, after) ← m.step?
    return (tell result fun _ => .done, after)
  | .run limit => do
    let (result, after) ← m.runFrom? 0 limit
    return (tell result .number, after)
  | .reset => do return (.ok .done, ← m.reset?)
  | .register number => do return (.ok (.number (← m.cell? (number &&& 0x0F)).toNat), m)
  | .drive number active =>
    match Flag.ofNumber? number with
    | some flag => do return (.ok .done, ← m.drive? flag active)
    | none => some (.error (Fault.noSuchFlag number).message, m)
  | .setBus value => some (.ok .done, { m with bus := value })
  | .readByte address => do return (.ok (.number (← Cells.read? m.memory address).toNat), m)
  | .writeByte address value => do
    return (.ok .done, { m with memory := ← Cells.write? m.memory address value })
  | .readPage number => do
    let start := number.toNat * 256
    let page ← m.memory.slice? start (start + 256)
    return (.ok (.bytes page.toList), m)

def requests? (m : Raw Flat) : List Request → Option (List (Except String Reply × Raw Flat))
  | [] => some []
  | request :: rest => do
    let first ← m.answer? request
    return first :: (← first.2.requests? rest)

def disassemble? (m : Raw Flat) (start : Word) (limit : Nat) : Option (List Line) := do
  let (first, stop) := Disassembly.window start limit
  let bytes ← m.memory.slice? first stop
  let entries ← Disassembly.sweepAt? start bytes 0
  return (entries.take limit).map fun entry =>
    { address := entry.address, bytes := entry.bytes, text := entry.text }

end Raw

namespace Console

open Bus (Flat)

theorem console?_eq_raw : Raw.console? = some new.machine.raw := by
  rw [Raw.console?, Machine.new?_eq_raw]
  rfl

variable (console : Console)

private theorem answer?_raw (request : Request) :
    console.machine.raw.answer? request =
      some ((console.perform request).reply, (console.perform request).console.machine.raw) := by
  cases request with
  | loadImage image =>
    rw [Raw.answer?, Machine.load?_raw, perform, report_eq]
    rfl
  | step =>
    rw [Raw.answer?, Machine.step?_raw, perform, report_eq]
    rfl
  | run limit =>
    rw [Raw.answer?, Machine.runFrom?_raw, perform, report_eq]
    rfl
  | reset =>
    rw [Raw.answer?, Machine.reset?_raw]
    rfl
  | register number =>
    rw [Raw.answer?, Byte.mask_eq_wide_low, Machine.cell?_raw]
    rfl
  | drive number active =>
    rw [Raw.answer?, perform]
    cases Flag.ofNumber? number with
    | none => rfl
    | some flag =>
      simp only [Machine.drive?_raw]
      rfl
  | setBus value => rfl
  | readByte address =>
    show (Cells.read? console.machine.memory address).bind _ = _
    rw [LawfulCells.read?]
    rfl
  | writeByte address value =>
    show (Cells.write? console.machine.memory address value).bind _ = _
    rw [LawfulCells.write?]
    rfl
  | readPage number =>
    have inside : number.toNat < 256 := number.isLt
    have within : number.toNat * 256 + 256 ≤ addressCount := by
      unfold addressCount
      omega
    show (console.machine.memory.slice? _ _).bind _ = _
    rw [Flat.slice?_of_le _ (Nat.le_add_right _ _) within]
    rfl

theorem requests?_raw (requests : List Request) :
    console.machine.raw.requests? requests =
      some ((console.session requests).map fun response =>
        (response.reply, response.console.machine.raw)) := by
  induction requests generalizing console with
  | nil => rfl
  | cons request rest ih =>
    rw [Raw.requests?, answer?_raw]
    show ((console.perform request).console.machine.raw.requests? rest).bind _ = _
    rw [ih]
    rfl

theorem disassemble?_raw (start : Word) (limit : Nat) :
    console.machine.raw.disassemble? start limit = some (console.disassemble start limit) := by
  have inside : start.toNat < 65536 := start.isLt
  have ordered : start.toNat ≤ min (start.toNat + 3 * limit) addressCount := by
    unfold addressCount
    omega
  show (console.machine.memory.slice? _ _).bind _ = _
  rw [Flat.slice?_of_le _ ordered (Nat.min_le_right _ _)]
  show (Disassembly.sweepAt? _ _ _).bind _ = _
  rw [Disassembly.sweepAt?_eq_some, List.drop_zero]
  rfl

end Console

end Cosmac
