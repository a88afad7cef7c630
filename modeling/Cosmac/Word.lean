/-!
The three widths of the machine: a nibble selects a register, a byte is what memory and the
accumulator hold, and a word is an address. Arithmetic on all three wraps around.
-/

set_option autoImplicit false
set_option relaxedAutoImplicit false

namespace Cosmac

/-- Four bits: the number of a scratchpad register, or one digit of an opcode. -/
abbrev Nibble := BitVec 4

abbrev Byte := BitVec 8

/-- Sixteen bits: an address, and the content of a scratchpad register. -/
abbrev Word := BitVec 16

namespace Byte

def high (b : Byte) : Nibble := b.extractLsb' 4 4

def low (b : Byte) : Nibble := b.setWidth 4

def ofNibbles (high low : Nibble) : Byte := high ++ low

theorem toNat_ofNibbles (h l : Nibble) : (ofNibbles h l).toNat = h.toNat * 16 + l.toNat := by
  have := l.isLt
  rw [ofNibbles, BitVec.toNat_append, ← Nat.shiftLeft_add_eq_or_of_lt this, Nat.shiftLeft_eq]

theorem toNat_high (b : Byte) : b.high.toNat = b.toNat / 16 := by
  have := b.isLt
  simp only [high, BitVec.extractLsb'_toNat, Nat.shiftRight_eq_div_pow]
  omega

theorem toNat_low (b : Byte) : b.low.toNat = b.toNat % 16 := by
  simp [low]

@[simp] theorem high_ofNibbles (h l : Nibble) : (ofNibbles h l).high = h := by
  have := l.isLt
  apply BitVec.eq_of_toNat_eq
  rw [toNat_high, toNat_ofNibbles]
  omega

@[simp] theorem low_ofNibbles (h l : Nibble) : (ofNibbles h l).low = l := by
  have := l.isLt
  apply BitVec.eq_of_toNat_eq
  rw [toNat_low, toNat_ofNibbles]
  omega

@[simp] theorem ofNibbles_high_low (b : Byte) : ofNibbles b.high b.low = b := by
  apply BitVec.eq_of_toNat_eq
  rw [toNat_ofNibbles, toNat_high, toNat_low]
  omega

end Byte

namespace Word

/-- The upper byte of a word: the number of its 256-byte page. -/
def highByte (a : Word) : Byte := a.extractLsb' 8 8

def lowByte (a : Word) : Byte := a.setWidth 8

def ofBytes (high low : Byte) : Word := high ++ low

theorem toNat_ofBytes (h l : Byte) : (ofBytes h l).toNat = h.toNat * 256 + l.toNat := by
  have := l.isLt
  rw [ofBytes, BitVec.toNat_append, ← Nat.shiftLeft_add_eq_or_of_lt this, Nat.shiftLeft_eq]

theorem toNat_highByte (a : Word) : a.highByte.toNat = a.toNat / 256 := by
  have := a.isLt
  simp only [highByte, BitVec.extractLsb'_toNat, Nat.shiftRight_eq_div_pow]
  omega

theorem toNat_lowByte (a : Word) : a.lowByte.toNat = a.toNat % 256 := by
  simp [lowByte]

@[simp] theorem highByte_ofBytes (h l : Byte) : (ofBytes h l).highByte = h := by
  have := l.isLt
  apply BitVec.eq_of_toNat_eq
  rw [toNat_highByte, toNat_ofBytes]
  omega

@[simp] theorem lowByte_ofBytes (h l : Byte) : (ofBytes h l).lowByte = l := by
  have := l.isLt
  apply BitVec.eq_of_toNat_eq
  rw [toNat_lowByte, toNat_ofBytes]
  omega

@[simp] theorem ofBytes_highByte_lowByte (a : Word) : ofBytes a.highByte a.lowByte = a := by
  apply BitVec.eq_of_toNat_eq
  rw [toNat_ofBytes, toNat_highByte, toNat_lowByte]
  omega

/-- The address in the same page as `a` with the given offset. -/
def withLow (a : Word) (low : Byte) : Word := ofBytes a.highByte low

def withHigh (a : Word) (high : Byte) : Word := ofBytes high a.lowByte

end Word

end Cosmac
