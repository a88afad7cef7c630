import Cosmac.Bus.Flat

/-!
Loading flat memory. Main statements: copying an image in as one block and writing its bytes one by
one come to the same; either way an image is refused whole exactly if it would run past the last
address, and is otherwise found from its first address on, with everything else as before.
-/

set_option autoImplicit false
set_option relaxedAutoImplicit false

namespace Cosmac.Bus

section Bytewise

variable {σ : Type} (write : σ → Word → Byte → σ) (memory : σ) {start : Word} {image : List Byte}

theorem loadEach_of_le (fits : start.toNat + image.length ≤ addressCount) :
    loadEach write memory start image =
      { result := .ok ()
        state := writeEach write memory start image
        log := [.loaded start image.length] } :=
  if_pos fits

theorem loadEach_of_lt (long : addressCount < start.toNat + image.length) :
    loadEach write memory start image = .refuse (.imageTooLarge start image.length) memory :=
  if_neg (Nat.not_le.mpr long)

theorem result_loadEach_eq_ok_iff :
    (loadEach write memory start image).result = .ok () ↔
      start.toNat + image.length ≤ addressCount := by
  unfold loadEach
  split <;> simp_all [Outcome.refuse]

theorem result_loadEach_eq_error_iff :
    (loadEach write memory start image).result = .error (.imageTooLarge start image.length) ↔
      addressCount < start.toNat + image.length := by
  unfold loadEach
  split <;> simp_all [Outcome.refuse]

end Bytewise

namespace Flat

private theorem read_writeEach (memory : Flat) (start : Word) (image : List Byte)
    (fits : image.length ≤ addressCount) (address : Word) :
    read (writeEach write memory start image) address =
      (image[(address - start).toNat]?).getD (read memory address) := by
  induction image generalizing memory start with
  | nil => rfl
  | cons byte rest ih =>
    have one : (1 : Word).toNat = 1 := rfl
    rw [List.length_cons, addressCount] at fits
    rw [writeEach, ih _ _ (Nat.le_of_succ_le fits), read_write]
    by_cases first : start = address
    · -- Seen from the second byte the first address is the last one, which the rest cannot reach.
      subst first
      have offset : (start - start).toNat = 0 := by simp
      have far : rest.length ≤ (start - (start + 1)).toNat := by
        rw [BitVec.toNat_sub, BitVec.toNat_add, one]
        have := start.isLt
        omega
      rw [if_pos rfl, offset, List.getElem?_eq_none far]
      rfl
    · have later : (address - start).toNat = (address - (start + 1)).toNat + 1 := by
        have apart : address.toNat ≠ start.toNat := fun same =>
          first (BitVec.eq_of_toNat_eq same.symm)
        have := start.isLt
        have := address.isLt
        rw [BitVec.toNat_sub, BitVec.toNat_sub, BitVec.toNat_add, one]
        omega
      rw [if_neg first, later, List.getElem?_cons_succ]

private theorem read_splice (memory : Flat) (start : Word) (image : List Byte)
    (fits : start.toNat + image.length ≤ addressCount) (address : Word) :
    read (⟨memory.cells.splice start.toNat image fits⟩ : Flat) address =
      (image[(address - start).toNat]?).getD (read memory address) := by
  have := address.isLt
  have := start.isLt
  have offset : (address - start).toNat = (65536 - start.toNat + address.toNat) % 65536 :=
    BitVec.toNat_sub address start
  unfold addressCount at fits
  by_cases inside : start.toNat ≤ address.toNat ∧ address.toNat < start.toNat + image.length
  · have within : (address - start).toNat < image.length := by omega
    have place : address.toNat = start.toNat + (address - start).toNat := by omega
    rw [List.getElem?_eq_getElem within, Option.getD_some]
    exact memory.cells.get_splice_of_mem _ _ fits address ⟨_, within⟩ place
  · have outside : image.length ≤ (address - start).toNat := by omega
    rw [List.getElem?_eq_none outside, Option.getD_none]
    exact memory.cells.get_splice_of_not_mem _ _ fits address (by omega)

theorem loadBlock_eq_loadEach (memory : Flat) (start : Word) (image : List Byte) :
    memory.loadBlock start image = loadEach write memory start image := by
  by_cases fits : start.toNat + image.length ≤ addressCount
  · rw [loadBlock, loadEach, dif_pos fits, if_pos fits]
    congr 1
    apply ext_read
    intro address
    rw [read_splice, read_writeEach _ _ _ (by omega)]
  · rw [loadBlock, loadEach, dif_neg fits, if_neg fits]

/-- A memory after an image was put into it at `start`: the image is found there, and what lies
elsewhere is as before. -/
structure Placed (before : Flat) (start : Word) (image : List Byte) (after : Flat) : Prop where
  inside : ∀ (offset : Nat) (within : offset < image.length),
    read after (start + .ofNat 16 offset) = image[offset]
  outside : ∀ address : Word, (∀ offset < image.length, address ≠ start + .ofNat 16 offset) →
    read after address = read before address

private theorem placed_writeEach (memory : Flat) (start : Word) (image : List Byte)
    (fits : image.length ≤ addressCount) :
    Placed memory start image (writeEach write memory start image) where
  inside offset within := by
    have back : (start + BitVec.ofNat 16 offset - start).toNat = offset := by
      unfold addressCount at fits
      rw [BitVec.add_comm, BitVec.add_sub_cancel, BitVec.toNat_ofNat, Nat.mod_eq_of_lt (by omega)]
    rw [read_writeEach _ _ _ fits, back, List.getElem?_eq_getElem within, Option.getD_some]
  outside address apart := by
    have far : image.length ≤ (address - start).toNat := by
      refine Nat.le_of_not_lt fun near => apart _ near ?_
      rw [BitVec.ofNat_toNat, BitVec.setWidth_eq, BitVec.add_comm, BitVec.sub_add_cancel]
    rw [read_writeEach _ _ _ fits, List.getElem?_eq_none far, Option.getD_none]

private theorem ofImage_eq_loadEach (image : List Byte) :
    ofImage image = loadEach write zero 0#16 image :=
  loadBlock_eq_loadEach zero 0#16 image

private theorem result_ofImage_eq_ok_iff (image : List Byte) :
    (ofImage image).result = .ok () ↔ image.length ≤ addressCount := by
  rw [ofImage_eq_loadEach, result_loadEach_eq_ok_iff, BitVec.toNat_zero, Nat.zero_add]

private theorem read_ofImage (image : List Byte) (fits : image.length ≤ addressCount)
    (address : Word) :
    read (ofImage image).state address = image.getD address.toNat 0 := by
  have below : (0#16).toNat + image.length ≤ addressCount := by
    rw [BitVec.toNat_zero, Nat.zero_add]
    exact fits
  rw [ofImage_eq_loadEach, loadEach_of_le write zero below]
  rw [read_writeEach _ _ _ fits, read_zero, BitVec.sub_zero, List.getD_eq_getElem?_getD]

/-- Flat memory takes an image as one block exactly as it would byte by byte. It refuses an image
that would run past the last address, and no other, without a change; any other image is found at
its place, with the rest of memory as before. So memory is made from any image that is not longer
than the address space, with zero behind it. -/
theorem load_eq_loadEach_and_placed (memory : Flat) (start : Word) (image : List Byte) :
    let loaded := load memory start image
    loaded = loadEach write memory start image ∧
      (loaded.result = .error (.imageTooLarge start image.length) ↔
        addressCount < start.toNat + image.length) ∧
      (addressCount < start.toNat + image.length → loaded.state = memory ∧ loaded.log = []) ∧
      (start.toNat + image.length ≤ addressCount →
        loaded.result = .ok () ∧ loaded.log = [.loaded start image.length] ∧
          Placed memory start image loaded.state) ∧
      ((ofImage image).result = .ok () ↔ image.length ≤ addressCount) ∧
      (image.length ≤ addressCount → ∀ address : Word,
        read (ofImage image).state address = image.getD address.toNat 0) := by
  intro loaded
  have same : loaded = loadEach write memory start image :=
    loadBlock_eq_loadEach memory start image
  refine ⟨same, ?_, ?_, ?_, result_ofImage_eq_ok_iff image, read_ofImage image⟩
  · rw [same, result_loadEach_eq_error_iff]
  · intro long
    rw [same, loadEach_of_lt write memory long]
    exact ⟨rfl, rfl⟩
  · intro fits
    rw [same, loadEach_of_le write memory fits]
    exact ⟨rfl, rfl, placed_writeEach memory start image (Nat.le_of_add_left_le fits)⟩

/-- The last two addresses can be loaded, and with one byte more nothing is. -/
theorem load_eq_loadEach_and_placed_at_end :
    let memory : Flat := write zero 0xFFFD 0x56
    let loaded := load memory 0xFFFE [0x12, 0x34]
    loaded.result = .ok () ∧ read loaded.state 0xFFFF = 0x34 ∧ read loaded.state 0xFFFD = 0x56 ∧
      (load memory 0xFFFE [0x12, 0x34, 0x78]).state = memory ∧
      read (ofImage [0x12, 0x34]).state 0x0002 = 0 := by
  intro memory loaded
  obtain ⟨-, -, -, taken, -, fresh⟩ := load_eq_loadEach_and_placed memory 0xFFFE [0x12, 0x34]
  obtain ⟨-, -, refused, -⟩ := load_eq_loadEach_and_placed memory 0xFFFE [0x12, 0x34, 0x78]
  obtain ⟨ok, -, placed⟩ := taken (by decide)
  have before : read loaded.state 0xFFFD = read memory 0xFFFD := placed.outside _ (by decide)
  refine ⟨ok, placed.inside 1 (by decide), ?_, (refused (by decide)).1, fresh (by decide) _⟩
  rw [before, read_write, if_pos rfl]

end Flat

end Cosmac.Bus
