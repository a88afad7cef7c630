import Cosmac.Disassembly.Entry

/-!
Listings: a line for each entry, with its address, on request its bytes, and its text.
-/

set_option autoImplicit false
set_option relaxedAutoImplicit false

namespace Cosmac.Disassembly

open Text

/-- The width of the column of bytes, which holds three bytes and two blanks. -/
def dumpWidth : Nat := 10

/-- The line of an entry. The bytes are shown if `dump` is set, in a column that a longer text
overruns. -/
def Entry.line (dump : Bool) (entry : Entry) : String :=
  let column := if dump then Hex.fillTo dumpWidth (Hex.dump entry.bytes) else ""
  Hex.word entry.address ++ "  " ++ column ++ entry.text ++ "\n"

def listing (dump : Bool) (entries : List Entry) : String :=
  String.join (entries.map (Entry.line dump))

end Cosmac.Disassembly
