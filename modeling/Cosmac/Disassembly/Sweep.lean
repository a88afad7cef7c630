import Cosmac.Bus.Basic
import Cosmac.Disassembly.Entry

/-!
The linear sweep: each entry starts where the one before it ends. Main statements: the sweep of no
bytes is empty, and the sweep of some bytes is their first entry followed by the sweep of the
bytes after it.
-/

set_option autoImplicit false
set_option relaxedAutoImplicit false

namespace Cosmac.Disassembly

/-- The entries of `bytes`, which start at `address`, behind those already found. -/
def sweepFrom (found : Array Entry) (address : Word) (bytes : List Byte) : List Entry :=
  match bytes with
  | [] => found.toList
  | opcode :: rest =>
    let entry := Entry.first address opcode rest
    sweepFrom (found.push entry) (address + BitVec.ofNat 16 entry.size) (rest.drop (entry.size - 1))
termination_by bytes.length
decreasing_by
  simp only [List.length_drop, List.length_cons]
  omega

/-- The entries of `bytes`, the first of which lies at `address`. -/
def sweep (address : Word) (bytes : List Byte) : List Entry :=
  sweepFrom #[] address bytes

theorem sweepFrom_eq_append (found : Array Entry) (address : Word) (bytes : List Byte) :
    sweepFrom found address bytes = found.toList ++ sweep address bytes := by
  induction h : bytes.length using Nat.strongRecOn generalizing found address bytes with
  | ind n ih =>
    subst h
    unfold sweep
    cases bytes with
    | nil => simp [sweepFrom]
    | cons opcode rest =>
      have shorter (k : Nat) : (rest.drop k).length < (opcode :: rest).length := by
        simp only [List.length_drop, List.length_cons]
        omega
      rw [sweepFrom, sweepFrom.eq_def #[]]
      simp only
      rw [ih _ (shorter _) _ _ _ rfl, ih _ (shorter _) (#[].push _) _ _ rfl]
      simp

@[simp] theorem sweep_nil (address : Word) : sweep address [] = [] := by
  simp [sweep, sweepFrom]

theorem sweep_cons (address : Word) (opcode : Byte) (rest : List Byte) :
    sweep address (opcode :: rest) =
      let entry := Entry.first address opcode rest
      entry :: sweep (address + BitVec.ofNat 16 entry.size) (rest.drop (entry.size - 1)) := by
  rw [sweep, sweepFrom]
  simp only
  rw [sweepFrom_eq_append]
  simp

/-- The addresses, first and one past the last, that `limit` instructions from `start` on can
reach: three bytes for each, up to the end of memory. -/
def window (start : Word) (limit : Nat) : Nat × Nat :=
  (start.toNat, min (start.toNat + 3 * limit) addressCount)

/-- The first `limit` entries of a memory from `start` on. -/
def ofMemory {σ : Type} [Bus σ] (memory : σ) (start : Word) (limit : Nat) : List Entry :=
  let (first, stop) := window start limit
  (sweep start (Bus.readEach memory start (stop - first))).take limit

end Cosmac.Disassembly
