import Cosmac.Proofs.Disassembly.Text
import Mathlib.Data.List.Forall2

/-!
A listing with a column of bytes can be read back. A line is cut at fixed columns: the address, two
blanks, the bytes of the entry as pairs of digits in a field of ten characters, and the text. Main
statement: the fields of the lines hold, in order, the bytes that were swept, and without its field
each line is the line of the plain listing.
-/

set_option autoImplicit false
set_option relaxedAutoImplicit false

namespace Cosmac

namespace Text.Hex

/-- The nibble that a digit stands for; letters have to be upper-case. -/
def digit? (c : Char) : Option Nibble :=
  if '0' ≤ c ∧ c ≤ '9' then some (.ofNat 4 (c.toNat - '0'.toNat))
  else if 'A' ≤ c ∧ c ≤ 'F' then some (.ofNat 4 (10 + (c.toNat - 'A'.toNat)))
  else none

def byte? : List Char → Option Byte
  | [high, low] => do return .ofNibbles (← digit? high) (← digit? low)
  | _ => none

def word? (digits : List Char) : Option Word := do
  return .ofBytes (← byte? (digits.take 2)) (← byte? (digits.drop 2))

def parts (text : List Char) : List (List Char) :=
  (text.splitOn ' ').filter (· ≠ [])

def dump? (text : List Char) : Option (List Byte) :=
  (parts text).mapM byte?

def pairs (bytes : List Byte) : List Char :=
  [' '].intercalate (bytes.map fun b => (byte b).toList)

private theorem digit?_digit : ∀ n : Nibble, digit? (digit n) = some n := by
  decide +kernel

private theorem byte?_byte (b : Byte) : byte? (byte b).toList = some b := by
  rw [toList_byte]
  simp [byte?, digit?_digit]

private theorem word?_word (a : Word) : word? (word a).toList = some a := by
  have high := byte?_byte a.highByte
  have low := byte?_byte a.lowByte
  rw [toList_byte] at high low
  rw [toList_word]
  simp [word?, high, low]

private theorem toList_dump (bytes : List Byte) : (dump bytes).toList = pairs bytes := by
  rw [dump, String.toList_intercalate, List.map_map]
  rfl

private theorem pairs_cons (b : Byte) (bytes : List Byte) :
    pairs (b :: bytes) = (byte b).toList ++ bytes.flatMap fun c => ' ' :: (byte c).toList := by
  induction bytes generalizing b with
  | nil => simp [pairs]
  | cons c bytes ih =>
    rw [List.flatMap_cons, List.cons_append, ← ih]
    simp [pairs, List.intercalate_cons_cons]

private theorem length_pairs_le (bytes : List Byte) : (pairs bytes).length ≤ 3 * bytes.length := by
  cases bytes with
  | nil => simp [pairs]
  | cons b bytes =>
    rw [pairs_cons, List.length_append, List.length_flatMap]
    simp only [toList_byte, List.length_cons, List.length_nil, List.map_const',
      List.sum_replicate_nat]
    omega

private theorem eq_digit_of_mem_byte {b : Byte} {c : Char} (member : c ∈ (byte b).toList) :
    ∃ n, c = digit n := by
  rw [toList_byte] at member
  simp only [List.mem_cons, List.not_mem_nil, or_false] at member
  rcases member with high | low
  · exact ⟨b.high, high⟩
  · exact ⟨b.low, low⟩

private theorem eq_blank_or_digit_of_mem_pairs {bytes : List Byte} {c : Char}
    (member : c ∈ pairs bytes) :
    c = ' ' ∨ ∃ n, c = digit n := by
  cases bytes with
  | nil => exact absurd member List.not_mem_nil
  | cons b bytes =>
    rw [pairs_cons, List.mem_append, List.mem_flatMap] at member
    rcases member with first | ⟨d, -, later⟩
    · exact .inr (eq_digit_of_mem_byte first)
    · rcases List.mem_cons.mp later with blank | later
      · exact .inl blank
      · exact .inr (eq_digit_of_mem_byte later)

private theorem digit_ne_blank : ∀ n : Nibble, digit n ≠ ' ' := by
  decide +kernel

private theorem blank_not_mem_byte (b : Byte) : ' ' ∉ (byte b).toList := by
  rw [toList_byte]
  simp [(digit_ne_blank _).symm]

private theorem parts_append_blank (text rest : List Char) :
    parts (text ++ ' ' :: rest) = parts text ++ parts rest := by
  rw [parts, List.splitOn_append_cons_self, List.filter_append]
  rfl

private theorem parts_replicate_blank (count : Nat) : parts (List.replicate count ' ') = [] := by
  induction count with
  | zero => rfl
  | succ count ih => exact (parts_append_blank [] _).trans ih

private theorem parts_byte (b : Byte) : parts (byte b).toList = [(byte b).toList] := by
  rw [parts, List.splitOn_eq_singleton (blank_not_mem_byte b), toList_byte]
  rfl

private theorem parts_append_flatMap (text : List Char) (bytes : List Byte) :
    parts (text ++ bytes.flatMap fun b => ' ' :: (byte b).toList) =
      parts text ++ bytes.map fun b => (byte b).toList := by
  induction bytes generalizing text with
  | nil => simp
  | cons b bytes ih =>
    rw [List.flatMap_cons, List.cons_append, parts_append_blank, ih, parts_byte]
    rfl

private theorem parts_pairs (bytes : List Byte) :
    parts (pairs bytes) = bytes.map fun b => (byte b).toList := by
  cases bytes with
  | nil => rfl
  | cons b bytes =>
    rw [pairs_cons, parts_append_flatMap, parts_byte]
    rfl

private theorem mapM_byte? (bytes : List Byte) :
    (bytes.map fun b => (byte b).toList).mapM byte? = some bytes := by
  induction bytes with
  | nil => rfl
  | cons b bytes ih =>
    rw [List.map_cons, List.mapM_cons, ih, byte?_byte]
    rfl

private theorem dump?_rightpad_pairs (width : Nat) (bytes : List Byte) :
    dump? ((pairs bytes).rightpad width ' ') = some bytes := by
  have padded : parts ((pairs bytes).rightpad width ' ') = parts (pairs bytes) := by
    rw [List.rightpad]
    cases width - (pairs bytes).length with
    | zero => rw [List.replicate_zero, List.append_nil]
    | succ blanks =>
      rw [List.replicate_succ, parts_append_blank, parts_replicate_blank, List.append_nil]
  rw [dump?, padded, parts_pairs, mapM_byte?]

end Text.Hex

namespace Disassembly

open Text

def dumpColumn (row : List Char) : List Char := (row.drop 6).take 10

def withoutDump (row : List Char) : List Char := row.take 6 ++ row.drop 16

/-- A line of a listing with bytes, column by column: the address of an entry, two blanks, its
bytes in a field of ten characters, and its text. -/
structure Entry.Columns (entry : Entry) (row : List Char) : Prop where
  address : Hex.word? (row.take 4) = some entry.address
  gap : (row.drop 4).take 2 = [' ', ' ']
  dump : dumpColumn row = (Hex.pairs entry.bytes).rightpad 10 ' '
  bytes : Hex.dump? (dumpColumn row) = some entry.bytes
  text : row.drop 16 = entry.text.toList

def dumpRow (entry : Entry) : List Char :=
  (Hex.word entry.address).toList ++ [' ', ' '] ++ (Hex.pairs entry.bytes).rightpad 10 ' ' ++
    entry.text.toList

private theorem toList_listing_dump_cons (entry : Entry) (entries : List Entry) :
    (listing true (entry :: entries)).toList =
      dumpRow entry ++ '\n' :: (listing true entries).toList := by
  have column : (Hex.fillTo dumpWidth (Hex.dump entry.bytes)).toList =
      (Hex.pairs entry.bytes).rightpad 10 ' ' := by
    rw [Hex.fillTo, String.toList_append, String.toList_ofList, Hex.toList_dump, List.rightpad,
      ← Hex.toList_dump]
    rfl
  simp [listing, Entry.line, dumpRow, column]

private theorem digit_ne_newline : ∀ n : Nibble, Hex.digit n ≠ '\n' := by
  decide +kernel

private theorem newline_not_mem_dumpRow {entry : Entry} (formed : entry.WellFormed) :
    '\n' ∉ dumpRow entry := by
  have plain : '\n' ∉ row entry := fun inside =>
    absurd (ne_newline_of_mem_row formed _ inside) (by decide)
  have dump : '\n' ∉ (Hex.pairs entry.bytes).rightpad 10 ' ' := by
    intro inside
    rcases List.mem_append.mp inside with pair | blank
    · rcases Hex.eq_blank_or_digit_of_mem_pairs pair with blank | ⟨n, digit⟩
      · exact absurd blank (by decide)
      · exact digit_ne_newline n digit.symm
    · exact absurd (List.eq_of_mem_replicate blank) (by decide)
  simp only [row, List.mem_append, List.mem_cons, not_or] at plain
  obtain ⟨address, -, -, text⟩ := plain
  intro member
  simp only [dumpRow, List.mem_append] at member
  rcases member with ((inside | inside) | inside) | inside
  · exact address inside
  · exact absurd inside (by decide)
  · exact dump inside
  · exact text inside

private theorem columns_dumpRow {entry : Entry} (formed : entry.WellFormed) :
    entry.Columns (dumpRow entry) ∧ withoutDump (dumpRow entry) = row entry := by
  have address : (Hex.word entry.address).toList.length = 4 := by
    rw [Hex.toList_word]
    rfl
  have dump : ((Hex.pairs entry.bytes).rightpad 10 ' ').length = 10 := by
    have short := Hex.length_pairs_le entry.bytes
    have few := formed.size_le_three
    rw [formed.length_bytes] at short
    rw [List.length_rightpad]
    omega
  have front : ((Hex.word entry.address).toList ++ [' ', ' ']).length = 6 := by
    rw [List.length_append, address]
    rfl
  have head : (dumpRow entry).take 6 = (Hex.word entry.address).toList ++ [' ', ' '] := by
    rw [dumpRow, List.append_assoc]
    exact List.take_left' front
  have column : dumpColumn (dumpRow entry) = (Hex.pairs entry.bytes).rightpad 10 ' ' := by
    rw [dumpColumn, dumpRow, List.append_assoc, List.drop_left' front]
    exact List.take_left' dump
  have text : (dumpRow entry).drop 16 = entry.text.toList := by
    rw [dumpRow]
    apply List.drop_left'
    rw [List.length_append, front, dump]
  refine ⟨⟨?address, ?gap, column, ?bytes, text⟩, ?plain⟩
  case address =>
    rw [dumpRow, List.append_assoc, List.append_assoc, List.take_left' address, Hex.word?_word]
  case gap =>
    rw [dumpRow, List.append_assoc, List.append_assoc, List.drop_left' address]
    rfl
  case bytes => rw [column, Hex.dump?_rightpad_pairs]
  case plain =>
    rw [withoutDump, head, text, row, List.append_assoc]
    rfl

private theorem splitOn_listing_dump {entries : List Entry}
    (formed : ∀ entry ∈ entries, entry.WellFormed) :
    (listing true entries).toList.splitOn '\n' = entries.map dumpRow ++ [[]] := by
  induction entries with
  | nil => rfl
  | cons entry entries ih =>
    obtain ⟨formedHead, formedTail⟩ := List.forall_mem_cons.mp formed
    have single := newline_not_mem_dumpRow formedHead
    rw [toList_listing_dump_cons, List.splitOn_append_cons_self_of_not_mem single, ih formedTail]
    rfl

private theorem mapM_dump?_dumpRow {entries : List Entry}
    (formed : ∀ entry ∈ entries, entry.WellFormed) :
    (entries.map dumpRow).mapM (fun row => Hex.dump? (dumpColumn row)) =
      some (entries.map Entry.bytes) := by
  induction entries with
  | nil => rfl
  | cons entry entries ih =>
    obtain ⟨formedHead, formedTail⟩ := List.forall_mem_cons.mp formed
    rw [List.map_cons, List.mapM_cons, (columns_dumpRow formedHead).1.bytes, ih formedTail]
    rfl

private theorem flatMap_withoutDump_dumpRow {entries : List Entry}
    (formed : ∀ entry ∈ entries, entry.WellFormed) :
    (entries.map dumpRow).flatMap (fun row => withoutDump row ++ ['\n']) =
      (listing false entries).toList := by
  induction entries with
  | nil => rfl
  | cons entry entries ih =>
    obtain ⟨formedHead, formedTail⟩ := List.forall_mem_cons.mp formed
    rw [List.map_cons, List.flatMap_cons, (columns_dumpRow formedHead).2, ih formedTail,
      toList_listing_cons, List.append_assoc]
    rfl

/-- A listing with bytes can be read back. It has one line for each entry, each ended by a line
break, with the address, the bytes and the text of the entry in their columns. What is read in the
columns of bytes is, line by line, what was swept; and without these columns the lines are those of
the listing without bytes. -/
theorem listing_dump_reads_back (start : Word) (bytes : List Byte) :
    let entries := sweep start bytes
    ∃ rows : List (List Char),
      (listing true entries).toList.splitOn '\n' = rows ++ [[]] ∧
        List.Forall₂ Entry.Columns entries rows ∧
        (rows.mapM fun row => Hex.dump? (dumpColumn row)).map List.flatten = some bytes ∧
        rows.flatMap (fun row => withoutDump row ++ ['\n']) = (listing false entries).toList := by
  intro entries
  have formed : ∀ entry ∈ entries, entry.WellFormed := wellFormed_of_mem_sweep start bytes
  refine ⟨entries.map dumpRow, splitOn_listing_dump formed, ?_, ?_,
    flatMap_withoutDump_dumpRow formed⟩
  · rw [List.forall₂_map_right_iff, List.forall₂_same]
    intro entry member
    exact (columns_dumpRow (formed entry member)).1
  · rw [mapM_dump?_dumpRow formed]
    exact congrArg some (flatMap_bytes_sweep start bytes)

example : listing true (sweep 0 [0xC0, 0x12, 0x34, 0x68]) =
    "0000  C0 12 34  LBR $1234\n0003  68        .byte $68\n" := by
  decide +kernel

end Disassembly

end Cosmac
