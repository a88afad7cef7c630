import Cosmac.Proofs.Machine.Fetch
import Cosmac.Proofs.Program.Push

/-!
Code that computes in the accumulator and pushes its bytes: operations on operands that stand in
the code, shifts and pushes. Main statement: on the machine such code pushes the bytes, and leaves
the accumulator, that its items give when they are evaluated one after the other.
-/

set_option autoImplicit false
set_option relaxedAutoImplicit false

namespace Cosmac

open Isa

namespace Program

def immediateOpcode : Alu.Operation → Byte
  | .load => 0xF8
  | .or => 0xF9
  | .and => 0xFA
  | .xor => 0xFB
  | .add chained => if chained then 0x7C else 0xFC
  | .subtractAccumulator chained => if chained then 0x7D else 0xFD
  | .subtractOperand chained => if chained then 0x7F else 0xFF

def shiftOpcode : Alu.Direction → Bool → Byte
  | .left, ring => if ring then 0x7E else 0xFE
  | .right, ring => if ring then 0x76 else 0xF6

private theorem ofByte_immediateOpcode (op : Alu.Operation) :
    Instruction.ofByte (immediateOpcode op) = .compute op .immediate := by
  cases op with
  | add chained | subtractAccumulator chained | subtractOperand chained => cases chained <;> rfl
  | load | or | and | xor => rfl

private theorem ofByte_shiftOpcode (direction : Alu.Direction) (ring : Bool) :
    Instruction.ofByte (shiftOpcode direction ring) = .shift direction ring := by
  cases direction <;> cases ring <;> rfl

/-- An instruction of code that computes in the accumulator and pushes it. -/
inductive Item
  | immediate (op : Alu.Operation) (operand : Byte)
  | shift (direction : Alu.Direction) (ring : Bool)
  | push
  deriving DecidableEq

namespace Item

def instruction : Item → Instruction
  | immediate op _ => .compute op .immediate
  | shift direction ring => .shift direction ring
  | push => .pushRetreat

def bytes : Item → List Byte
  | immediate op operand => [immediateOpcode op, operand]
  | shift direction ring => [shiftOpcode direction ring]
  | push => [0x73]

def effect (acc : Accumulator) : Item → Accumulator
  | immediate op operand => op.apply acc operand
  | shift direction ring => Alu.shift direction ring acc
  | push => acc

def pushed (acc : Accumulator) : Item → List Byte
  | push => [acc.d]
  | _ => []

end Item

def code (items : List Item) : List Byte := items.flatMap Item.bytes

theorem code_cons (item : Item) (items : List Item) :
    code (item :: items) = item.bytes ++ code items :=
  List.flatMap_cons

/-- The bytes that code pushes, and the accumulator that it leaves. -/
def evaluate (acc : Accumulator) : List Item → List Byte × Accumulator
  | [] => ([], acc)
  | item :: items =>
    let rest := evaluate (item.effect acc) items
    (item.pushed acc ++ rest.1, rest.2)

end Program

namespace Machine

open Program

variable {m : Machine Bus.Flat} {p : Nibble} {start : Word} {rest : List Byte}

private theorem AtCode.instruction_eq {item : Item} (here : m.AtCode p start (item.bytes ++ rest)) :
    m.instruction = item.instruction := by
  cases item with
  | immediate op operand =>
    rw [instruction, here.atCounter]
    exact ofByte_immediateOpcode op
  | shift direction ring =>
    rw [instruction, here.atCounter]
    exact ofByte_shiftOpcode direction ring
  | push =>
    rw [instruction, here.atCounter]
    rfl

private theorem AtCode.read_operand {op : Alu.Operation} {operand : Byte}
    (here : m.AtCode p start ((Item.immediate op operand).bytes ++ rest)) :
    m.read (m.counter + 1) = operand := by
  have holds := here.holds
  simp only [Item.bytes, List.cons_append, List.length_cons, Bus.readEach_succ] at holds
  have counter : m.counter = start := (congrArg m.register here.selected).trans here.counter
  rw [counter]
  exact (List.cons.inj (List.cons.inj holds).2).1

private theorem AtCode.completes_item {item : Item} (here : m.AtCode p start (item.bytes ++ rest)) :
    m.instruction ≠ .saveContext := by
  rw [here.instruction_eq]
  cases item <;> exact nofun

private theorem AtCode.pushes_item {item : Item} (here : m.AtCode p start (item.bytes ++ rest)) :
    m.Pushes 1 item.bytes.length (item.pushed m.accumulator) m.step.state ∧
      m.step.state.accumulator = item.effect m.accumulator := by
  have decoded := here.instruction_eq
  have completes := here.completes_item
  have runs : m.Runs 1 m.step.state := .step (by rw [step_of_ne_saveContext m completes])
  have apart : m.x ≠ m.p := here.selected ▸ here.apart
  have state : m.step.state = { (m.fetched m.atCounter).execute item.instruction with
      count := ((m.fetched m.atCounter).execute item.instruction).count + 1 } := by
    rw [step_of_ne_saveContext m completes, ← decoded]
    rfl
  rw [state] at runs ⊢
  cases item with
  | immediate op operand =>
    constructor
    · refine .of_others runs rfl rfl apart (register_advance_fetched m m.atCounter 1) ?_ rfl
      intro j other
      exact (register_setRegister_of_ne _ _ other.symm).trans (register_fetched_of_ne m _ other)
    · show op.apply m.accumulator (m.fetched m.atCounter).atCounter = op.apply m.accumulator operand
      rw [atCounter_fetched, here.read_operand]
  | shift direction ring =>
    refine ⟨.of_others runs rfl rfl apart (register_fetched m m.atCounter) ?_ rfl, rfl⟩
    intro j other
    exact register_fetched_of_ne m m.atCounter other
  | push =>
    have pointer : (m.fetched m.atCounter).pointer = m.pointer :=
      register_fetched_of_ne m _ apart
    refine ⟨⟨runs, rfl, rfl, ?counter, ?pointer, ?others, ?memory⟩, rfl⟩
    case counter =>
      exact (register_setRegister_of_ne _ _ apart).trans (register_fetched m m.atCounter)
    case pointer =>
      rw [← pointer]
      exact (m.fetched m.atCounter).r.get_set_self m.x _
    case others =>
      intro j other notPointer
      exact (register_setRegister_of_ne _ _ notPointer.symm).trans
        (register_fetched_of_ne m _ other)
    case memory =>
      rw [← pointer]
      rfl

/-- Code on the machine pushes the bytes, and leaves the accumulator, that it is evaluated to, by
steps that execute its items. What comes behind the code is ahead then. -/
theorem AtCode.pushes_code {items : List Item} (here : m.AtCode p start (code items ++ rest))
    (clear : Bus.Apart m.pointer (evaluate m.accumulator items).1.length start
      (code items ++ rest).length) :
    ∃ m', m.Pushes items.length (code items).length (evaluate m.accumulator items).1 m' ∧
      m'.accumulator = (evaluate m.accumulator items).2 ∧
      m'.AtCode p (start + .ofNat 16 (code items).length) rest ∧
      ∀ s ∈ m.attempts items.length, ∃ item ∈ items, s.instruction = item.instruction := by
  -- On the items: the code left is ahead of the machine after each, for no byte was pushed there.
  induction items generalizing m start with
  | nil =>
    refine ⟨m, .refl m, rfl, ?_, fun s none => absurd none List.not_mem_nil⟩
    show m.AtCode p (start + 0#16) rest
    rwa [BitVec.add_zero]
  | cons item items ih =>
    rw [code_cons, List.append_assoc] at here clear
    rw [evaluate, List.length_append] at clear
    obtain ⟨first, effect⟩ := here.pushes_item
    have there := here.of_pushes first (clear.of_le (Nat.le_add_right _ _))
    have clearThere : Bus.Apart m.step.state.pointer
        (evaluate m.step.state.accumulator items).1.length
        (start + .ofNat 16 item.bytes.length) (code items ++ rest).length := by
      rw [first.pointer, effect]
      rw [List.length_append] at clear
      exact clear.rest
    obtain ⟨m', further, left, ahead, executed⟩ := ih there clearThere
    rw [effect] at further left
    have ok : m.step.result = .ok () := by rw [step_of_ne_saveContext m here.completes_item]
    refine ⟨m', ?_, left, ?_, ?_⟩
    · have both := first.trans further
      rw [Nat.add_comm, ← List.length_append, ← code_cons] at both
      exact both
    · rw [code_cons, List.length_append, BitVec.ofNat_add, ← BitVec.add_assoc]
      exact ahead
    · rw [List.length_cons, attempts_succ_of_ok ok]
      refine List.forall_mem_cons.mpr ⟨⟨item, List.mem_cons_self, here.instruction_eq⟩, ?_⟩
      intro s member
      obtain ⟨later, among, decoded⟩ := executed s member
      exact ⟨later, List.mem_cons_of_mem item among, decoded⟩

end Machine

end Cosmac
