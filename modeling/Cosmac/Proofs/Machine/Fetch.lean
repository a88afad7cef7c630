import Cosmac.Proofs.Machine.Frame

/-!
The program counter behind a fetched opcode. Main statements: where a branch, a long branch and a
long skip lead, told in terms of the machine before the fetch.
-/

set_option autoImplicit false
set_option relaxedAutoImplicit false

namespace Cosmac.Machine

open Isa

variable {σ : Type}

theorem register_fetched (m : Machine σ) (opcode : Byte) :
    (m.fetched opcode).register m.p = m.counter + 1 :=
  m.r.get_set_self m.p _

theorem register_fetched_of_ne (m : Machine σ) (opcode : Byte) {j : Nibble} (other : j ≠ m.p) :
    (m.fetched opcode).register j = m.register j :=
  register_setRegister_of_ne _ _ other.symm

theorem register_setCounter_fetched (m : Machine σ) (opcode : Byte) (address : Word) :
    ((m.fetched opcode).setCounter address).register m.p = address :=
  (m.fetched opcode).r.get_set_self m.p _

theorem register_advance_fetched (m : Machine σ) (opcode : Byte) (places : Word) :
    ((m.fetched opcode).advance m.p places).register m.p = m.counter + (1 + places) := by
  rw [← BitVec.add_assoc, ← register_fetched m opcode]
  exact (m.fetched opcode).r.get_set_self m.p _

theorem register_retreat_fetched (m : Machine σ) (opcode : Byte) :
    ((m.fetched opcode).retreat m.p).register m.p = m.counter := by
  rw [← BitVec.add_sub_cancel m.counter 1, ← register_fetched m opcode]
  exact (m.fetched opcode).r.get_set_self m.p _

theorem holds_fetched (m : Machine σ) (opcode : Byte) (test : Test) :
    test.holds (m.fetched opcode).toProcessor = test.holds m.toProcessor := by
  obtain ⟨condition, negated⟩ := test
  cases condition <;> rfl

theorem register_longSkip_fetched (m : Machine σ) (opcode : Byte) (test : Test) :
    ((m.fetched opcode).longSkip test).register m.p =
      if test.holds m.toProcessor then m.counter + 3 else m.counter + 1 := by
  rw [longSkip, holds_fetched]
  split
  · exact register_advance_fetched m opcode 2
  · exact register_fetched m opcode

variable [Bus σ]

theorem atCounter_fetched (m : Machine σ) (opcode : Byte) :
    (m.fetched opcode).atCounter = m.read (m.counter + 1) :=
  congrArg m.read (register_fetched m opcode)

/-- Where the program counter is the data pointer, what lies at it is the byte behind the opcode. -/
theorem atPointer_fetched_of_inline {m : Machine σ} (inline : m.x = m.p) :
    (m.fetched m.atCounter).atPointer = m.read (m.counter + 1) := by
  have pointer : (m.fetched m.atCounter).pointer = m.counter + 1 := by
    show (m.fetched m.atCounter).register m.x = _
    rw [inline, register_fetched]
  exact congrArg m.read pointer

theorem register_branch_fetched (m : Machine σ) (opcode : Byte) (test : Test) :
    ((m.fetched opcode).branch test).register m.p =
      if test.holds m.toProcessor then (m.counter + 1).withLow (m.read (m.counter + 1))
      else m.counter + 2 := by
  rw [branch, holds_fetched, atCounter_fetched, ← register_fetched m opcode]
  split
  · exact register_setCounter_fetched m opcode _
  · exact register_advance_fetched m opcode 1

theorem register_longBranch_fetched (m : Machine σ) (opcode : Byte) (test : Test) :
    ((m.fetched opcode).longBranch test).register m.p =
      if test.holds m.toProcessor then
        .ofBytes (m.read (m.counter + 1)) (m.read (m.counter + 1 + 1))
      else m.counter + 3 := by
  rw [longBranch, holds_fetched, atCounter_fetched, ← register_fetched m opcode]
  split
  · exact register_setCounter_fetched m opcode _
  · exact register_advance_fetched m opcode 2

end Cosmac.Machine
