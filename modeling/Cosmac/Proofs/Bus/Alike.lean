import Cosmac.Bus.Folded
import Cosmac.Bus.RomRam
import Cosmac.Proofs.Bus.Load

/-!
Memories that cannot be told apart over the bus. A relation between two kinds of memory qualifies
if related memories read the same and stay related under the same write. Main statements: folded
memory of full size qualifies against flat memory, whether bytes are written or images are loaded,
and so does any memory against itself, with what its writes cannot change held fixed.
-/

set_option autoImplicit false
set_option relaxedAutoImplicit false

namespace Cosmac

/-- Outcomes that answer and report the same and leave related states. -/
structure Outcome.Alike {α σ τ : Type} (related : σ → τ → Prop) (o : Outcome α σ)
    (o' : Outcome α τ) : Prop where
  result : o.result = o'.result
  state : related o.state o'.state
  log : o.log = o'.log
  events : o.events = o'.events

namespace Bus

/-- A relation between memories that read the same, and that writing to both keeps. -/
structure Alike {σ τ : Type} [Bus σ] [Bus τ] (related : σ → τ → Prop) : Prop where
  read : ∀ {a b}, related a b → ∀ address, Bus.read a address = Bus.read b address
  write : ∀ {a b}, related a b → ∀ address byte,
    related (Bus.write a address byte) (Bus.write b address byte)

variable {σ τ : Type} [Bus σ] [Bus τ] {related : σ → τ → Prop}

def LoadsAlike (related : σ → τ → Prop) (start : Word) (image : List Byte) : Prop :=
  ∀ {a b}, related a b → Outcome.Alike related (load a start image) (load b start image)

private theorem writeEach_alike (sound : Alike related) {a : σ} {b : τ} (alike : related a b)
    (address : Word) (bytes : List Byte) :
    related (writeEach write a address bytes) (writeEach write b address bytes) := by
  induction bytes generalizing a b address with
  | nil => exact alike
  | cons byte rest ih => exact ih (sound.write alike address byte) (address + 1)

private theorem loadEach_alike (sound : Alike related) {a : σ} {b : τ} (alike : related a b)
    (start : Word) (image : List Byte) :
    Outcome.Alike related (loadEach write a start image) (loadEach write b start image) := by
  unfold loadEach
  split
  · exact ⟨rfl, writeEach_alike sound alike start image, rfl, rfl⟩
  · exact ⟨rfl, alike, rfl, rfl⟩

/-! ### Folded memory of full size -/

private theorem Folded.size_write (memory : Folded) (address : Word) (byte : Byte) :
    (write memory address byte).cells.size = memory.cells.size :=
  Array.size_set (memory.cell address).isLt

/-- Folded memory with a cell for every address, and flat memory that holds the same. -/
structure Unfolded (a : Folded) (b : Flat) : Prop where
  size : a.cells.size = addressCount
  read : ∀ address, Bus.read a address = Bus.read b address

theorem Unfolded.zero : Unfolded (.zero addressCount) .zero where
  size := by
    rw [Folded.zero, Array.size_replicate]
    rfl
  read address := by
    rw [Flat.read_zero]
    exact Array.getElem_replicate _

theorem Unfolded.alike : Alike Unfolded where
  read unfolded := unfolded.read
  write {a b} unfolded address byte := by
    constructor
    · exact (a.size_write address byte).trans unfolded.size
    · intro other
      have same : address.toNat % a.cells.size = other.toNat % a.cells.size ↔ address = other := by
        rw [unfolded.size, addressCount, Nat.mod_eq_of_lt address.isLt,
          Nat.mod_eq_of_lt other.isLt]
        exact ⟨BitVec.eq_of_toNat_eq, congrArg _⟩
      simp only [Folded.read_write, Flat.read_write, same, unfolded.read]

theorem Unfolded.loadsAlike (start : Word) (image : List Byte) :
    LoadsAlike Unfolded start image := by
  intro a b unfolded
  show Outcome.Alike Unfolded (loadEach write a start image) (b.loadBlock start image)
  rw [Flat.loadBlock_eq_loadEach]
  exact loadEach_alike Unfolded.alike unfolded start image

/-! ### Read-only memory at the lower addresses -/

/-- A memory whose lower half ignores writes: none shows at an address below `0x8000`. -/
def LowReadOnly (σ : Type) [Bus σ] : Prop :=
  ∀ (memory : σ) (written : Word) (byte : Byte) (address : Word), address.toNat < 0x8000 →
    read (write memory written byte) address = read memory address

theorem RomRam.lowReadOnly : LowReadOnly RomRam := by
  intro memory written byte address low
  have below : address.msb = false := by
    rw [BitVec.msb_eq_decide]
    exact decide_eq_false (Nat.not_le.mpr low)
  cases upper : written.msb with
  | false => rw [write_low memory written byte upper]
  | true =>
    rw [read_write_high memory written address byte upper, if_neg]
    rintro rfl
    rw [upper] at below
    contradiction

/-- Two copies of one memory, with the content of the lower half at some time. -/
structure LowKept (start a b : σ) : Prop where
  same : a = b
  kept : ∀ address : Word, address.toNat < 0x8000 → read a address = read start address

theorem LowReadOnly.alike (ignores : LowReadOnly σ) (start : σ) : Alike (LowKept start) where
  read kept address := congrArg (read · address) kept.same
  write {a _} kept written byte := by
    refine ⟨congrArg (write · written byte) kept.same, fun address low => ?_⟩
    rw [ignores a written byte address low]
    exact kept.kept address low

end Bus

end Cosmac
