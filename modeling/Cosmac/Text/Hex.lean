import Cosmac.Word

/-!
Upper-case hexadecimal text of nibbles, bytes and words, and blanks that fill a column.
-/

set_option autoImplicit false
set_option relaxedAutoImplicit false

namespace Cosmac.Text.Hex

/-- The digit of a nibble, one of `0`–`9` and `A`–`F`. -/
def digit (n : Nibble) : Char :=
  Char.ofNat (if n.toNat < 10 then 48 + n.toNat else 55 + n.toNat)

def byte (b : Byte) : String :=
  String.ofList [digit b.high, digit b.low]

def word (a : Word) : String :=
  byte a.highByte ++ byte a.lowByte

def dump (bytes : List Byte) : String :=
  String.intercalate " " (bytes.map byte)

/-- The text with blanks after it up to the given width; a wider text is left as it is. -/
def fillTo (width : Nat) (text : String) : String :=
  text ++ String.ofList (List.replicate (width - text.length) ' ')

theorem digit_injective : ∀ m n : Nibble, digit m = digit n → m = n := by
  decide +kernel

@[simp] theorem toList_byte (b : Byte) : (byte b).toList = [digit b.high, digit b.low] := by
  simp [byte]

@[simp] theorem toList_word (a : Word) :
    (word a).toList =
      [digit a.highByte.high, digit a.highByte.low, digit a.lowByte.high, digit a.lowByte.low] := by
  simp [word]

end Cosmac.Text.Hex
