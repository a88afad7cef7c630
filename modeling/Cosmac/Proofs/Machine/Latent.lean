import Cosmac.Machine.Step

/-!
The processor keeps some of its state beside the execution: `B` and `T`, the digits of the last
opcode, the count, and whether an observer listens. Main statements: an instruction leaves that
part alone, and what it does elsewhere does not depend on it.
-/

set_option autoImplicit false
set_option relaxedAutoImplicit false

namespace Cosmac

/-- The part of the processor's state that no instruction reads or writes. -/
structure Latent where
  b : Byte
  t : Byte
  n : Nibble
  i : Nibble
  count : BitVec 64
  observed : Bool

namespace Machine

variable {σ : Type}

def latent (m : Machine σ) : Latent where
  b := m.b
  t := m.t
  n := m.n
  i := m.i
  count := m.count
  observed := m.observed

def withLatent (m : Machine σ) (latent : Latent) : Machine σ :=
  { m with
    b := latent.b
    t := latent.t
    n := latent.n
    i := latent.i
    count := latent.count
    observed := latent.observed }

private theorem holds_withLatent (m : Machine σ) (latent : Latent) (test : Isa.Test) :
    test.holds (m.withLatent latent).toProcessor = test.holds m.toProcessor := by
  obtain ⟨condition, negated⟩ := test
  cases condition <;> rfl

variable [Bus σ]

theorem latent_execute (m : Machine σ) (i : Isa.Instruction) : (m.execute i).latent = m.latent := by
  cases i with
  | branch test | longBranch test | longSkip test =>
    simp only [execute, branch, longBranch, longSkip]
    split <;> rfl
  | compute op source => cases source <;> rfl
  | _ => rfl

theorem execute_withLatent (m : Machine σ) (latent : Latent) (i : Isa.Instruction) :
    (m.withLatent latent).execute i = (m.execute i).withLatent latent := by
  cases i with
  | branch test | longBranch test | longSkip test =>
    simp only [execute, branch, longBranch, longSkip, holds_withLatent]
    split <;> rfl
  | compute op source => cases source <;> rfl
  | _ => rfl

end Machine

end Cosmac
