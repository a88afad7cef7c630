import Cosmac.Proofs.Bus.Range
import Cosmac.Proofs.Isa.Listed
import Cosmac.Proofs.Machine.Latent

/-!
What an instruction leaves alone. Main statements: an instruction that neither redirects control
nor works on the program counter keeps it selected and moves it past its operand bytes only, and a
flat memory changes at no address but the one that the instruction writes to.
-/

set_option autoImplicit false
set_option relaxedAutoImplicit false

namespace Cosmac

namespace Isa.Instruction

/-- Whether an instruction can select another program counter, or send the program counter
elsewhere than past the operand bytes. -/
def redirects : Instruction → Bool
  | .idle | .branch _ | .longBranch _ | .longSkip _ | .restore _ | .selectCounter _
  | .saveContext => true
  | _ => false

def alters? : Instruction → Option Nibble
  | .loadAdvance n | .increment n | .decrement n | .putLow n | .putHigh n => some n
  | _ => none

def selects? : Instruction → Option Nibble
  | .selectPointer n => some n
  | _ => none

def movesPointer : Instruction → Bool
  | .popAdvance | .pushRetreat | .advancePointer | .output _ | .restore _ => true
  | _ => false

end Isa.Instruction

namespace Machine

open Isa

variable {σ : Type}

private theorem register_setRegister (m : Machine σ) (k j : Nibble) (value : Word) :
    (m.setRegister k value).register j = if k = j then value else m.register j :=
  m.r.get_set k j value

theorem register_setRegister_of_ne (m : Machine σ) {k j : Nibble} (value : Word) (other : k ≠ j) :
    (m.setRegister k value).register j = m.register j := by
  rw [register_setRegister, if_neg other]

variable [Bus σ]

theorem observed_execute (m : Machine σ) (i : Instruction) :
    (m.execute i).observed = m.observed :=
  congrArg Latent.observed (m.latent_execute i)

theorem count_execute (m : Machine σ) (i : Instruction) : (m.execute i).count = m.count :=
  congrArg Latent.count (m.latent_execute i)

theorem p_execute (m : Machine σ) {i : Instruction} (quiet : i.redirects = false) :
    (m.execute i).p = m.p := by
  cases i with
  | compute op source => cases source <;> rfl
  | idle | branch | longBranch | longSkip | restore | selectCounter | saveContext => contradiction
  | _ => rfl

theorem x_execute (m : Machine σ) {i : Instruction} (quiet : i.redirects = false) :
    (m.execute i).x = i.selects?.getD m.x := by
  cases i with
  | compute op source => cases source <;> rfl
  | idle | branch | longBranch | longSkip | restore | selectCounter | saveContext => contradiction
  | _ => rfl

private theorem register_execute_self (m : Machine σ) {i : Instruction}
    (quiet : i.redirects = false) (kept : i.alters? ≠ some m.p)
    (apart : i.movesPointer = true → m.x ≠ m.p) (inline : ∀ op, i ≠ .compute op .immediate) :
    (m.execute i).register m.p = m.register m.p := by
  cases i with
  | idle | branch | longBranch | longSkip | restore | selectCounter | saveContext => contradiction
  | compute op source =>
    cases source with
    | pointer => rfl
    | immediate => exact absurd rfl (inline op)
  | loadAdvance n | increment n | decrement n | putLow n | putHigh n =>
    have other : n ≠ m.p := fun same => kept (congrArg some same)
    exact register_setRegister_of_ne _ _ other
  | popAdvance | pushRetreat | advancePointer | output =>
    exact register_setRegister_of_ne _ _ (apart rfl)
  | _ => rfl

private theorem byteCount_eq_zero {i : Instruction} {entry : OpcodeInfo} (listed : entry ∈ i.listed)
    (quiet : i.redirects = false) (inline : ∀ op, i ≠ .compute op .immediate) :
    entry.operand.byteCount = 0 := by
  cases i with
  | idle | branch | longBranch | longSkip | restore | selectCounter | saveContext => contradiction
  | compute op source =>
    cases source with
    | pointer =>
      obtain rfl := List.mem_singleton.mp listed
      rfl
    | immediate => exact absurd rfl (inline op)
  | pass =>
    simp only [Instruction.listed, List.mem_cons, List.not_mem_nil, or_false] at listed
    rcases listed with rfl | rfl <;> rfl
  | setQ level =>
    cases level <;> obtain rfl := List.mem_singleton.mp listed <;> rfl
  | _ =>
    obtain rfl := List.mem_singleton.mp listed
    rfl

theorem counter_execute (m : Machine σ) {i : Instruction} {entry : OpcodeInfo}
    (listed : entry ∈ i.listed) (quiet : i.redirects = false) (kept : i.alters? ≠ some m.p)
    (apart : i.movesPointer = true → m.x ≠ m.p) :
    (m.execute i).register m.p = m.register m.p + .ofNat 16 entry.operand.byteCount := by
  by_cases inline : ∃ op, i = .compute op .immediate
  · obtain ⟨op, rfl⟩ := inline
    obtain rfl := List.mem_singleton.mp listed
    exact m.r.get_set_self m.p _
  · have inline (op : Alu.Operation) : i ≠ .compute op .immediate := fun same => inline ⟨op, same⟩
    rw [register_execute_self m quiet kept apart inline, byteCount_eq_zero listed quiet inline]
    exact (BitVec.add_zero _).symm

def written? (m : Machine σ) : Instruction → Option Word
  | .store n => some (m.register n)
  | .pushRetreat | .input _ => some m.pointer
  | _ => none

theorem read_execute (m : Machine Bus.Flat) {i : Instruction} {address : Word}
    (elsewhere : m.written? i ≠ some address) :
    (m.execute i).read address = m.read address := by
  cases i with
  | store n =>
    have other : m.register n ≠ address := fun same => elsewhere (congrArg some same)
    exact (Bus.Flat.read_write _ _ _ _).trans (if_neg other)
  | pushRetreat | input =>
    have other : m.pointer ≠ address := fun same => elsewhere (congrArg some same)
    exact (Bus.Flat.read_write _ _ _ _).trans (if_neg other)
  | branch test | longBranch test | longSkip test =>
    simp only [execute, branch, longBranch, longSkip]
    split <;> rfl
  | compute op source => cases source <;> rfl
  | _ => rfl

end Machine

end Cosmac
