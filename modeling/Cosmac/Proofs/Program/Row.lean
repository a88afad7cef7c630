import Cosmac.Proofs.Alu.Chain
import Cosmac.Proofs.Program.Accumulate

/-!
Programs for numbers of several bytes. At each place of a row a byte is loaded, taken through one
more item and pushed, plainly at the first place and with the `DF` of the place before at each later
one. Main statement: such a program completes and leaves the bytes of the chain, one below the other
in memory, and its `DF`, and changes nothing else.
-/

set_option autoImplicit false
set_option relaxedAutoImplicit false

namespace Cosmac

namespace Program

/-- What a program does at each place of a row: the byte that it loads and the item that it takes
this byte through. -/
structure Row (α : Type) where
  loaded : α → Byte
  item : Bool → α → Item
  /-- The bytes of code for a place. -/
  size : Nat
  length_bytes : ∀ chained x, (item chained x).bytes.length + 3 = size
  quiet : ∀ chained x, item chained x ≠ .push

namespace Row

variable {α : Type}

/-- Code for a row whose first item is `chained` or plain. -/
def program (row : Row α) (chained : Bool) : List α → List Item
  | [] => []
  | x :: rest =>
    .immediate .load (row.loaded x) :: row.item chained x :: .push :: row.program true rest

def chain (row : Row α) : Bool → Bool → List α → List Byte × Bool :=
  Alu.chain fun chained x df => (row.item chained x).effect ⟨row.loaded x, df⟩

variable (row : Row α)

private theorem length_program (chained : Bool) (xs : List α) :
    (row.program chained xs).length = 3 * xs.length := by
  induction xs generalizing chained with
  | nil => rfl
  | cons x rest ih =>
    simp only [program, List.length_cons, ih]
    omega

private theorem length_code_program (chained : Bool) (xs : List α) :
    (code (row.program chained xs)).length = row.size * xs.length := by
  induction xs generalizing chained with
  | nil => rfl
  | cons x rest ih =>
    have place := row.length_bytes chained x
    have loads : (Item.immediate .load (row.loaded x)).bytes.length = 2 := rfl
    have pushes : Item.push.bytes.length = 1 := rfl
    simp only [program, code_cons, List.length_append, List.length_cons, ih, loads, pushes,
      Nat.mul_succ]
    omega

private theorem pushed_item (chained : Bool) (x : α) (acc : Accumulator) :
    (row.item chained x).pushed acc = [] := by
  have quiet := row.quiet chained x
  cases kind : row.item chained x with
  | push => exact absurd kind quiet
  | immediate | shift => rfl

private theorem evaluate_program (chained : Bool) (acc : Accumulator) (xs : List α) :
    (evaluate acc (row.program chained xs)).1 = (row.chain chained acc.df xs).1 ∧
      (evaluate acc (row.program chained xs)).2.df = (row.chain chained acc.df xs).2 := by
  induction xs generalizing chained acc with
  | nil => exact ⟨rfl, rfl⟩
  | cons x rest ih =>
    obtain ⟨bytes, df⟩ := ih true ((row.item chained x).effect ⟨row.loaded x, acc.df⟩)
    simp only [program, evaluate, pushed_item, List.nil_append]
    exact ⟨congrArg (_ :: ·) bytes, df⟩

end Row

end Program

namespace Machine

open Program

variable {α : Type}

private theorem AtCode.pushes_row {row : Row α} {chained : Bool} {xs : List α}
    {m : Machine Bus.Flat} {p : Nibble} {start : Word}
    (here : m.AtCode p start (code (row.program chained xs)))
    (clear : Bus.Apart m.pointer xs.length start (row.size * xs.length)) :
    ∃ m', m.Pushes (3 * xs.length) (row.size * xs.length) (row.chain chained m.df xs).1 m' ∧
      m'.df = (row.chain chained m.df xs).2 := by
  obtain ⟨bytes, df⟩ := row.evaluate_program chained m.accumulator xs
  have length : (row.chain chained m.df xs).1.length = xs.length := Alu.length_chain ..
  have here : m.AtCode p start (code (row.program chained xs) ++ []) := by
    rwa [List.append_nil]
  have clear : Bus.Apart m.pointer (evaluate m.accumulator (row.program chained xs)).1.length
      start (code (row.program chained xs) ++ []).length := by
    rw [List.append_nil, row.length_code_program, bytes]
    exact length.symm ▸ clear
  obtain ⟨m', pushed, left, -, -⟩ := here.pushes_code clear
  rw [row.length_program, row.length_code_program, bytes] at pushed
  exact ⟨m', pushed, (congrArg Accumulator.df left).trans df⟩

/-- What a machine is left with that has run the program for a row: the bytes of the chain lie below
each other from the top, `DF` is that of the chain, and nothing else is changed. -/
structure Leaves (m : Machine Bus.Flat) (p x : Nibble) (start top : Word) (size : Nat)
    (chain : List Byte × Bool) (outcome : Outcome Nat (Machine Bus.Flat)) : Prop where
  result : outcome.result = .ok (3 * chain.1.length)
  bytes : ∀ i (inside : i < chain.1.length), outcome.state.read (top - .ofNat 16 i) = chain.1[i]
  df : outcome.state.df = chain.2
  counter : outcome.state.register p = start + .ofNat 16 (size * chain.1.length)
  pointer : outcome.state.register x = top - .ofNat 16 chain.1.length
  others : ∀ j, j ≠ p → j ≠ x → outcome.state.register j = m.register j
  memory : ∀ address, (∀ i < chain.1.length, address ≠ top - .ofNat 16 i) →
    outcome.state.read address = m.read address

theorem run_row (row : Row α) {xs : List α} {m : Machine Bus.Flat} {p x : Nibble}
    {start top : Word} (nonempty : xs ≠ [])
    (holds : Bus.readEach m.memory start (row.size * xs.length) = code (row.program false xs))
    (selected : m.p = p) (counter : m.register p = start)
    (pointing : m.x = x) (pointer : m.register x = top) (apart : x ≠ p)
    (clear : Bus.Apart top xs.length start (row.size * xs.length)) :
    m.Leaves p x start top row.size (row.chain false m.df xs) (m.run (3 * xs.length)) := by
  obtain rfl := selected
  obtain rfl := pointing
  obtain rfl := pointer
  have length : (row.chain false m.df xs).1.length = xs.length := Alu.length_chain ..
  have here : m.AtCode m.p start (code (row.program false xs)) := by
    refine ⟨rfl, counter, apart, ?_⟩
    rw [row.length_code_program]
    exact holds
  have place : 0 < row.size := by
    rw [← row.length_bytes false (xs.head nonempty)]
    exact Nat.succ_pos _
  have fits : xs.length ≤ addressCount :=
    Bus.Apart.le_addressCount clear (Nat.mul_pos place (List.length_pos_iff.mpr nonempty))
  obtain ⟨m', pushed, df⟩ := here.pushes_row clear
  have result := pushed.runs.result
  obtain rfl : (m.run (3 * xs.length)).state = m' := pushed.runs.state
  refine ⟨?_, fun i => pushed.read (length.symm ▸ fits), df, ?_, pushed.register_pointer,
    pushed.others, fun address => pushed.read_of_ne⟩
  · rw [length, result]
  · rw [length, pushed.register_counter]
    exact congrArg (· + _) counter

end Machine

end Cosmac
