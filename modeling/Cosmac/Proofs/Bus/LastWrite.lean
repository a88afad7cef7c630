import Cosmac.Bus.Folded
import Cosmac.Bus.RomRam
import Cosmac.Proofs.Bus.Load
import Mathlib.Data.Set.Basic
import Mathlib.Order.Bounds.Defs

/-!
Loading memories whose addresses share their cells, or have none. A memory is described by the cell
behind each address. An image that is longer than the memory overwrites its own first bytes, and
bytes that meet no cell are lost. Main statement: an image that ends within the address space leaves
in each cell the last of its bytes that reaches the cell, and a longer one is refused unwritten.
-/

set_option autoImplicit false
set_option relaxedAutoImplicit false

namespace Cosmac.Bus

/-- A memory made of cells: writing at an address stores the byte in the cell behind it, if there
is one, and in no other. The cell may depend on the size of the memory, but not on its content. -/
structure CellMap (σ γ : Type) [Bus σ] where
  cell : σ → Word → Option γ
  content : σ → γ → Byte
  cell_write : ∀ (memory : σ) (written : Word) (byte : Byte) (address : Word),
    cell (write memory written byte) address = cell memory address
  content_write_self : ∀ (memory : σ) {address : Word} {c : γ} (byte : Byte),
    cell memory address = some c → content (write memory address byte) c = byte
  content_write_of_ne : ∀ (memory : σ) {address : Word} {c : γ} (byte : Byte),
    cell memory address ≠ some c → content (write memory address byte) c = content memory c

def Folded.cellMap : CellMap Folded Nat where
  cell memory address := some (memory.cell address)
  content memory c := memory.cells.getD c 0
  cell_write memory written byte address := by
    simp only [write, cell, Array.size_set]
  content_write_self memory address c byte same := by
    obtain rfl := Option.some.inj same
    simp [write]
  content_write_of_ne memory address c byte apart := by
    have apart : (memory.cell address).val ≠ c := fun same => apart (congrArg some same)
    simp [write, apart]

/-- The cells behind read-only and writable memory: one for each address, but none that a write to
the lower half would reach. -/
def RomRam.cellMap : CellMap RomRam Word where
  cell _ address := if address.msb then some address else none
  content := read
  cell_write _ _ _ _ := rfl
  content_write_self memory address c byte same := by
    obtain ⟨high, here⟩ := Option.ite_none_right_eq_some.mp same
    rw [read_write_high memory address c byte high, if_pos (Option.some.inj here)]
  content_write_of_ne memory address c byte apart := by
    cases half : address.msb with
    | false => rw [write_low memory address byte half]
    | true =>
      rw [if_pos half] at apart
      rw [read_write_high memory address c byte half, if_neg fun same => apart (congrArg some same)]

namespace CellMap

variable {σ γ : Type} [Bus σ] (map : CellMap σ γ)

/-- The offsets at which `count` bytes from `start` on reach a cell. -/
def hits (memory : σ) (start : Word) (count : Nat) (c : γ) : Set Nat :=
  {offset | offset < count ∧ map.cell memory (start + .ofNat 16 offset) = some c}

variable {map} {memory : σ} {start : Word} {image : List Byte} {c : γ}

private theorem zero_mem_hits {count : Nat} :
    0 ∈ map.hits memory start (count + 1) c ↔ map.cell memory start = some c := by
  simp [hits]

private theorem succ_mem_hits {count offset : Nat} (byte : Byte) :
    offset + 1 ∈ map.hits memory start (count + 1) c ↔
      offset ∈ map.hits (write memory start byte) (start + 1) count c := by
  have place : start + BitVec.ofNat 16 (offset + 1) = start + 1 + .ofNat 16 offset := by
    rw [Nat.add_comm, BitVec.ofNat_add, BitVec.add_assoc]
    rfl
  simp only [hits, Set.mem_ofPred_eq, map.cell_write, place, Nat.add_lt_add_iff_right]

private theorem content_writeEach_of_not_hit
    (none : ∀ offset, offset ∉ map.hits memory start image.length c) :
    map.content (writeEach write memory start image) c = map.content memory c := by
  induction image generalizing memory start with
  | nil => rfl
  | cons byte rest ih =>
    have first : map.cell memory start ≠ some c := fun reached => none 0 (zero_mem_hits.mpr reached)
    have later := ih fun offset hit => none (offset + 1) ((succ_mem_hits byte).mpr hit)
    exact later.trans (map.content_write_of_ne memory byte first)

private theorem getElem?_of_isGreatest_hits {last : Nat}
    (greatest : IsGreatest (map.hits memory start image.length c) last) :
    image[last]? = some (map.content (writeEach write memory start image) c) := by
  induction image generalizing memory start last with
  | nil => exact absurd greatest.1.1 (Nat.not_lt_zero last)
  | cons byte rest ih =>
    cases last with
    | zero =>
      -- No later byte reaches the cell, so it keeps the first one.
      have kept := content_writeEach_of_not_hit fun offset hit =>
        Nat.not_succ_le_zero offset (greatest.2 ((succ_mem_hits byte).mpr hit))
      have stored := map.content_write_self memory byte (zero_mem_hits.mp greatest.1)
      exact congrArg some (kept.trans stored).symm
    | succ last =>
      have later : IsGreatest (map.hits (write memory start byte) (start + 1) rest.length c) last :=
        ⟨(succ_mem_hits byte).mp greatest.1, fun offset hit =>
          Nat.le_of_succ_le_succ (greatest.2 ((succ_mem_hits byte).mpr hit))⟩
      exact ih later

/-- Byte by byte the last writer wins: an image is refused exactly if it would run past the last
address, however few cells there are, and then nothing changes; after any other image each cell
holds the byte at the greatest offset that reaches it, or what it held before if none does. -/
theorem loadEach_last_write_wins (map : CellMap σ γ) (memory : σ) (start : Word)
    (image : List Byte) :
    let loaded := loadEach write memory start image
    (loaded.result = .error (.imageTooLarge start image.length) ↔
        addressCount < start.toNat + image.length) ∧
      (addressCount < start.toNat + image.length → loaded.state = memory) ∧
      (start.toNat + image.length ≤ addressCount →
        loaded.result = .ok () ∧ ∀ c : γ,
          (∀ last, IsGreatest (map.hits memory start image.length c) last →
            image[last]? = some (map.content loaded.state c)) ∧
          (map.hits memory start image.length c = ∅ →
            map.content loaded.state c = map.content memory c)) := by
  intro loaded
  refine ⟨result_loadEach_eq_error_iff write memory, ?_, ?_⟩
  · intro long
    exact congrArg Outcome.state (loadEach_of_lt write memory long)
  · intro fits
    have taken : loaded = _ := loadEach_of_le write memory fits
    rw [taken]
    refine ⟨rfl, fun c => ⟨fun last => getElem?_of_isGreatest_hits, fun none => ?_⟩⟩
    exact content_writeEach_of_not_hit (Set.eq_empty_iff_forall_notMem.mp none)

/-- Five bytes in three cells, where the fourth comes over the first; and two bytes of which the
first meets read-only memory. -/
theorem loadEach_last_write_wins_of_shared_cell :
    let image : List Byte := [0x11, 0x22, 0x33, 0x44, 0x55]
    let folded := load (Folded.zero 3) 0xFFFB image
    let split := load (RomRam.ofRom [0x78]) 0x7FFF [0x12, 0x34]
    folded.result = .ok () ∧
      image[3]? = some (Folded.cellMap.content folded.state 2) ∧
      (load (Folded.zero 3) 0xFFFC image).state = .zero 3 ∧
      read split.state 0x7FFF = read (RomRam.ofRom [0x78]) 0x7FFF := by
  intro image folded split
  obtain ⟨-, -, taken⟩ := loadEach_last_write_wins Folded.cellMap (.zero 3) 0xFFFB image
  obtain ⟨-, refused, -⟩ := loadEach_last_write_wins Folded.cellMap (.zero 3) 0xFFFC image
  obtain ⟨-, -, halves⟩ :=
    loadEach_last_write_wins RomRam.cellMap (.ofRom [0x78]) 0x7FFF [0x12, 0x34]
  have greatest : IsGreatest (Folded.cellMap.hits (.zero 3) 0xFFFB 5 2) 3 := by
    have bound : ∀ offset < 5, Folded.cellMap.cell (.zero 3) (0xFFFB + .ofNat 16 offset) =
        some 2 → offset ≤ 3 := by decide
    exact ⟨⟨by decide, by decide⟩, fun offset hit => bound offset hit.1 hit.2⟩
  have unreached : RomRam.cellMap.hits (.ofRom [0x78]) 0x7FFF 2 0x7FFF = ∅ := by
    have missed : ∀ offset < 2, RomRam.cellMap.cell (.ofRom [0x78]) (0x7FFF + .ofNat 16 offset) ≠
        some 0x7FFF := by decide +kernel
    exact Set.eq_empty_iff_forall_notMem.mpr fun offset hit => missed offset hit.1 hit.2
  obtain ⟨ok, cells⟩ := taken (by decide)
  exact ⟨ok, (cells 2).1 3 greatest, refused (by decide),
    ((halves (by decide)).2 0x7FFF).2 unreached⟩

end CellMap

end Cosmac.Bus
