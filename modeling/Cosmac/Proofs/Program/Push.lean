import Cosmac.Proofs.Machine.Steps
import Cosmac.Proofs.Machine.StraightLine

/-!
Programs that push bytes. Code that works on the accumulator and pushes it moves its two pointers,
writes the pushed bytes one below the other and leaves every other register and cell alone. Main
statements: what two such pieces of code leave one after the other, and where the pushed bytes are
found again.
-/

set_option autoImplicit false
set_option relaxedAutoImplicit false

namespace Cosmac

namespace Bus

/-- Writes the bytes one by one, each at the address below the one before. -/
def pushEach {σ : Type} [Bus σ] (memory : σ) (address : Word) : List Byte → σ
  | [] => memory
  | byte :: rest => pushEach (write memory address byte) (address - 1) rest

theorem sub_ofNat_add (address : Word) (m n : Nat) :
    address - .ofNat 16 (m + n) = address - .ofNat 16 m - .ofNat 16 n := by
  bv_omega

theorem pushEach_append {σ : Type} [Bus σ] (memory : σ) (address : Word) (bytes more : List Byte) :
    pushEach memory address (bytes ++ more) =
      pushEach (pushEach memory address bytes) (address - .ofNat 16 bytes.length) more := by
  induction bytes generalizing memory address with
  | nil =>
    show _ = pushEach memory (address - 0#16) more
    rw [BitVec.sub_zero]
    rfl
  | cons byte rest ih =>
    rw [List.cons_append, pushEach, ih, pushEach, List.length_cons, Nat.add_comm, sub_ofNat_add]
    rfl

/-- Whether bytes pushed from `top` downward miss `size` bytes of code. -/
def Apart (top : Word) (pushed : Nat) (start : Word) (size : Nat) : Prop :=
  ∀ i < pushed, ∀ offset < size, top - .ofNat 16 i ≠ start + .ofNat 16 offset

theorem Apart.of_le {top start : Word} {pushed fewer size : Nat}
    (clear : Apart top pushed start size) (within : fewer ≤ pushed) :
    Apart top fewer start size :=
  fun i below => clear i (Nat.lt_of_lt_of_le below within)

theorem Apart.rest {top start : Word} {pushed more size further : Nat}
    (clear : Apart top (pushed + more) start (size + further)) :
    Apart (top - .ofNat 16 pushed) more (start + .ofNat 16 size) further := by
  intro i below offset inside
  rw [← sub_ofNat_add, BitVec.add_assoc, ← BitVec.ofNat_add]
  exact clear _ (Nat.add_lt_add_left below _) _ (Nat.add_lt_add_left inside _)

theorem Apart.le_addressCount {top start : Word} {pushed size : Nat}
    (clear : Apart top pushed start size) (nonempty : 0 < size) : pushed ≤ addressCount := by
  rw [← Nat.not_lt]
  intro many
  have inside : (top - start).toNat < pushed := Nat.lt_trans (top - start).isLt many
  have missed := clear _ inside 0 nonempty
  rw [BitVec.ofNat_toNat, BitVec.setWidth_eq] at missed
  bv_omega

namespace Flat

theorem read_pushEach_of_ne (memory : Flat) {top address : Word} {bytes : List Byte}
    (apart : ∀ i < bytes.length, address ≠ top - .ofNat 16 i) :
    read (pushEach memory top bytes) address = read memory address := by
  induction bytes generalizing memory top with
  | nil => rfl
  | cons byte rest ih =>
    have here := apart 0 (Nat.succ_pos _)
    rw [show top - .ofNat 16 0 = top from BitVec.sub_zero top] at here
    have below : ∀ i < rest.length, address ≠ top - 1 - .ofNat 16 i := by
      intro i inside
      have := apart (1 + i) (by rw [List.length_cons]; omega)
      rwa [sub_ofNat_add] at this
    rw [pushEach, ih _ below, read_write, if_neg here.symm]

theorem read_pushEach (memory : Flat) (top : Word) {bytes : List Byte}
    (fits : bytes.length ≤ addressCount) {i : Nat} (inside : i < bytes.length) :
    read (pushEach memory top bytes) (top - .ofNat 16 i) = bytes[i] := by
  induction bytes generalizing memory top i with
  | nil => contradiction
  | cons byte rest ih =>
    rw [List.length_cons] at fits inside
    cases i with
    | zero =>
      -- A later byte could only overwrite the first after a turn through all addresses.
      have apart : ∀ j < rest.length, top - .ofNat 16 0 ≠ top - 1 - .ofNat 16 j := by
        intro j below same
        unfold addressCount at fits
        bv_omega
      rw [pushEach, read_pushEach_of_ne _ apart, read_write, if_pos (BitVec.sub_zero top).symm]
      rfl
    | succ i =>
      have address : top - .ofNat 16 (i + 1) = top - 1 - .ofNat 16 i := by
        rw [Nat.add_comm, sub_ofNat_add]
        rfl
      rw [address]
      exact ih _ _ (by omega) (by omega)

end Flat

end Bus

namespace Machine

open Isa

variable {m m' m'' : Machine Bus.Flat} {p : Nibble} {start : Word}

/-- So many steps complete and run through `size` bytes of code, moving no register but the counter
and the data pointer. -/
structure Proceeds (m : Machine Bus.Flat) (steps size : Nat) (m' : Machine Bus.Flat) : Prop where
  runs : m.Runs steps m'
  selected : m'.p = m.p
  pointing : m'.x = m.x
  counter : m'.counter = m.counter + .ofNat 16 size
  others : ∀ j, j ≠ m.p → j ≠ m.x → m'.register j = m.register j

theorem Proceeds.refl (m : Machine Bus.Flat) : m.Proceeds 0 0 m where
  runs := .refl m
  selected := rfl
  pointing := rfl
  counter := (BitVec.add_zero _).symm
  others := fun _ _ _ => rfl

theorem Proceeds.trans {steps size steps' size' : Nat} (first : m.Proceeds steps size m')
    (second : m'.Proceeds steps' size' m'') :
    m.Proceeds (steps + steps') (size + size') m'' where
  runs := first.runs.trans second.runs
  selected := second.selected.trans first.selected
  pointing := second.pointing.trans first.pointing
  counter := by rw [second.counter, first.counter, BitVec.ofNat_add, BitVec.add_assoc]
  others := by
    intro j notCounter notPointer
    rw [← first.selected] at notCounter
    rw [← first.pointing] at notPointer
    exact (second.others j notCounter notPointer).trans
      (first.others j (first.selected ▸ notCounter) (first.pointing ▸ notPointer))

theorem Proceeds.register_counter {steps size : Nat} (proceeds : m.Proceeds steps size m') :
    m'.register m.p = m.counter + .ofNat 16 size := by
  rw [← proceeds.selected]
  exact proceeds.counter

theorem AtCode.of_proceeds {front rest : List Byte} {steps : Nat}
    (here : m.AtCode p start (front ++ rest)) (proceeds : m.Proceeds steps front.length m')
    (kept : Bus.readEach m'.memory (start + .ofNat 16 front.length) rest.length = rest) :
    m'.AtCode p (start + .ofNat 16 front.length) rest where
  selected := proceeds.selected.trans here.selected
  counter := by
    rw [← here.counter, ← here.selected]
    exact proceeds.register_counter
  apart := proceeds.pointing ▸ here.apart
  holds := kept

/-- So many steps complete, run through `size` bytes of code and push some bytes. -/
structure Pushes (m : Machine Bus.Flat) (steps size : Nat) (bytes : List Byte)
    (m' : Machine Bus.Flat) : Prop where
  runs : m.Runs steps m'
  selected : m'.p = m.p
  pointing : m'.x = m.x
  counter : m'.counter = m.counter + .ofNat 16 size
  pointer : m'.pointer = m.pointer - .ofNat 16 bytes.length
  others : ∀ j, j ≠ m.p → j ≠ m.x → m'.register j = m.register j
  memory : m'.memory = Bus.pushEach m.memory m.pointer bytes

theorem Pushes.proceeds {steps size : Nat} {bytes : List Byte}
    (pushed : m.Pushes steps size bytes m') : m.Proceeds steps size m' where
  runs := pushed.runs
  selected := pushed.selected
  pointing := pushed.pointing
  counter := pushed.counter
  others := pushed.others

theorem Pushes.refl (m : Machine Bus.Flat) : m.Pushes 0 0 [] m where
  runs := .refl m
  selected := rfl
  pointing := rfl
  counter := (BitVec.add_zero _).symm
  pointer := (BitVec.sub_zero _).symm
  others := fun _ _ _ => rfl
  memory := rfl

theorem Pushes.of_others {steps size : Nat} (runs : m.Runs steps m') (selected : m'.p = m.p)
    (pointing : m'.x = m.x) (apart : m.x ≠ m.p)
    (counter : m'.counter = m.counter + .ofNat 16 size)
    (others : ∀ j, j ≠ m.p → m'.register j = m.register j) (memory : m'.memory = m.memory) :
    m.Pushes steps size [] m' where
  runs := runs
  selected := selected
  pointing := pointing
  counter := counter
  pointer := by
    show m'.register m'.x = m.register m.x - 0#16
    rw [pointing, others m.x apart, BitVec.sub_zero]
  others := fun j other _ => others j other
  memory := memory

theorem Pushes.trans {steps size steps' size' : Nat} {bytes bytes' : List Byte}
    (first : m.Pushes steps size bytes m') (second : m'.Pushes steps' size' bytes' m'') :
    m.Pushes (steps + steps') (size + size') (bytes ++ bytes') m'' where
  runs := first.runs.trans second.runs
  selected := second.selected.trans first.selected
  pointing := second.pointing.trans first.pointing
  counter := (first.proceeds.trans second.proceeds).counter
  pointer := by
    rw [second.pointer, first.pointer, List.length_append, Bus.sub_ofNat_add]
  others := (first.proceeds.trans second.proceeds).others
  memory := by
    rw [second.memory, first.memory, first.pointer, Bus.pushEach_append]

theorem Pushes.read {steps size : Nat} {bytes : List Byte} (pushed : m.Pushes steps size bytes m')
    (fits : bytes.length ≤ addressCount) {i : Nat} (inside : i < bytes.length) :
    m'.read (m.pointer - .ofNat 16 i) = bytes[i] := by
  rw [Machine.read, pushed.memory]
  exact Bus.Flat.read_pushEach _ _ fits inside

theorem Pushes.read_of_ne {steps size : Nat} {bytes : List Byte} {address : Word}
    (pushed : m.Pushes steps size bytes m')
    (missed : ∀ i < bytes.length, address ≠ m.pointer - .ofNat 16 i) :
    m'.read address = m.read address := by
  rw [Machine.read, pushed.memory]
  exact Bus.Flat.read_pushEach_of_ne _ missed

theorem Pushes.register_counter {steps size : Nat} {bytes : List Byte}
    (pushed : m.Pushes steps size bytes m') :
    m'.register m.p = m.counter + .ofNat 16 size :=
  pushed.proceeds.register_counter

theorem Pushes.register_pointer {steps size : Nat} {bytes : List Byte}
    (pushed : m.Pushes steps size bytes m') :
    m'.register m.x = m.pointer - .ofNat 16 bytes.length := by
  rw [← pushed.pointing]
  exact pushed.pointer

theorem AtCode.of_pushes {front rest bytes : List Byte} {steps : Nat}
    (here : m.AtCode p start (front ++ rest)) (pushed : m.Pushes steps front.length bytes m')
    (clear : Bus.Apart m.pointer bytes.length start (front ++ rest).length) :
    m'.AtCode p (start + .ofNat 16 front.length) rest := by
  refine here.of_proceeds pushed.proceeds ?_
  refine (Bus.readEach_congr fun offset inside => ?_).trans here.holds_rest
  have missed : ∀ i < bytes.length,
      start + .ofNat 16 front.length + .ofNat 16 offset ≠ m.pointer - .ofNat 16 i := by
    intro i below
    rw [BitVec.add_assoc, ← BitVec.ofNat_add]
    refine (clear i below (front.length + offset) ?_).symm
    rw [List.length_append]
    exact Nat.add_lt_add_left inside _
  rw [pushed.memory]
  exact Bus.Flat.read_pushEach_of_ne _ missed

end Machine

end Cosmac
