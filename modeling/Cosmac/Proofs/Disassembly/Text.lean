import Cosmac.Disassembly.Listing
import Cosmac.Proofs.Disassembly.Lossless
import Cosmac.Proofs.Isa.Naming
import Mathlib.Data.List.Basic

/-!
A listing without a column of bytes still determines the bytes. A line ends at the first character
before the blank, a mnemonic at the first character that does not come after it, so both are found
in the text; an opcode is known from its mnemonic and number, and operand bytes from their digits.
Main statements: equal listings are of equal bytes, from equal addresses on if there are any; and
nothing that a sweep finds is written with a placeholder.
-/

set_option autoImplicit false
set_option relaxedAutoImplicit false

namespace Cosmac.Disassembly

open Isa Text

private theorem split_unique {p : Char → Bool} {xs ys rest others : List Char}
    (allXs : ∀ c ∈ xs, p c = true) (allYs : ∀ c ∈ ys, p c = true)
    (restStops : rest.takeWhile p = []) (othersStops : others.takeWhile p = [])
    (same : xs ++ rest = ys ++ others) : xs = ys ∧ rest = others := by
  have taken := congrArg (List.takeWhile p) same
  rw [List.takeWhile_append_of_pos allXs, List.takeWhile_append_of_pos allYs, restStops,
    othersStops, List.append_nil, List.append_nil] at taken
  subst taken
  exact ⟨rfl, List.append_cancel_left same⟩

private theorem blank_lt_digit : ∀ n : Nibble, ' ' < Hex.digit n := by
  decide +kernel

private theorem digit_ne_dollar : ∀ n : Nibble, Hex.digit n ≠ '$' := by
  decide +kernel

private theorem byte_injective {b c : Byte} (same : (Hex.byte b).toList = (Hex.byte c).toList) :
    b = c := by
  rw [Hex.toList_byte, Hex.toList_byte] at same
  injection same with high tail
  injection tail with low
  rw [← Byte.ofNibbles_high_low b, ← Byte.ofNibbles_high_low c, Hex.digit_injective _ _ high,
    Hex.digit_injective _ _ low]

private theorem toList_word_eq_append (a : Word) :
    (Hex.word a).toList = (Hex.byte a.highByte).toList ++ (Hex.byte a.lowByte).toList :=
  String.toList_append

private theorem length_toList_byte (b : Byte) : (Hex.byte b).toList.length = 2 := by
  rw [Hex.toList_byte]
  rfl

private theorem word_injective {a b : Word} (same : (Hex.word a).toList = (Hex.word b).toList) :
    a = b := by
  rw [toList_word_eq_append, toList_word_eq_append] at same
  obtain ⟨high, low⟩ := List.append_inj same (by simp only [length_toList_byte])
  rw [← Word.ofBytes_highByte_lowByte a, ← Word.ofBytes_highByte_lowByte b, byte_injective high,
    byte_injective low]

private def digits (bytes : List Byte) : List Char :=
  bytes.flatMap fun b => (Hex.byte b).toList

private theorem digits_injective {bytes others : List Byte} (same : digits bytes = digits others) :
    bytes = others := by
  induction bytes generalizing others with
  | nil =>
    cases others with
    | nil => rfl
    | cons c others => simp [digits] at same
  | cons b bytes ih =>
    cases others with
    | nil => simp [digits] at same
    | cons c others =>
      obtain ⟨first, rest⟩ := List.append_inj same (by simp only [length_toList_byte])
      rw [byte_injective first, ih rest]

private theorem forall_mem_digits {p : Char → Prop} (digit : ∀ n, p (Hex.digit n))
    (bytes : List Byte) : ∀ c ∈ digits bytes, p c := by
  intro c member
  obtain ⟨b, -, member⟩ := List.mem_flatMap.mp member
  rw [Hex.toList_byte] at member
  simp only [List.mem_cons, List.not_mem_nil, or_false] at member
  rcases member with rfl | rfl
  · exact digit b.high
  · exact digit b.low

/-- The characters of an operand: digits of the bytes that follow the opcode, for a short branch
behind those of their page. -/
private def written (address : Word) (opcode : Byte) (operandBytes : List Byte) :
    OperandKind → List Char
  | .implied => []
  | .register => ['R', Hex.digit opcode.low]
  | .device => [Hex.digit ((opcode.setWidth 3).setWidth 4)]
  | .immediate => '#' :: '$' :: digits operandBytes
  | .shortBranch => '$' :: digits ((address + 1).highByte :: operandBytes)
  | .longBranch => '$' :: digits operandBytes

private theorem toList_device : ∀ device : BitVec 3,
    (toString (device.setWidth 4 : Nibble).toNat).toList = [Hex.digit (device.setWidth 4)] := by
  decide +kernel

private theorem toList_operandText {entry : Entry} (isInstruction : entry.isData = false)
    (complete : entry.operandBytes.length = entry.operand.byteCount) :
    entry.operandText.toList =
      written entry.address entry.opcode entry.operandBytes entry.operand := by
  unfold Entry.operandText
  rw [if_neg (Bool.eq_false_iff.mp isInstruction)]
  cases entry with | mk address opcode mnemonic operand operandBytes size =>
  cases operand with
  | implied => rfl
  | register =>
    show ("R" ++ String.singleton (Hex.digit opcode.low)).toList = ['R', Hex.digit opcode.low]
    rw [String.toList_append, String.toList_singleton]
    rfl
  | device => exact toList_device (opcode.setWidth 3)
  | immediate =>
    obtain ⟨value, rfl⟩ := List.length_eq_one_iff.mp complete
    show ("#$" ++ Hex.byte value).toList = '#' :: '$' :: digits [value]
    simp [digits]
  | shortBranch =>
    obtain ⟨low, rfl⟩ := List.length_eq_one_iff.mp complete
    show ("$" ++ Hex.word ((address + 1).withLow low)).toList =
      '$' :: digits [(address + 1).highByte, low]
    simp [digits, Word.withLow]
  | longBranch =>
    obtain ⟨high, low, rfl⟩ := List.length_eq_two.mp complete
    show ("$" ++ Hex.word (.ofBytes high low)).toList = '$' :: digits [high, low]
    simp [digits]

private theorem forall_mem_written {p : Char → Prop} (digit : ∀ n, p (Hex.digit n))
    (marks : p 'R' ∧ p '#' ∧ p '$') (address : Word) (opcode : Byte) (operandBytes : List Byte)
    (operand : OperandKind) : ∀ c ∈ written address opcode operandBytes operand, p c := by
  obtain ⟨register, number, dollar⟩ := marks
  cases operand with
  | implied => simp [written]
  | register => simp [written, register, digit]
  | device => simp [written, digit]
  | immediate =>
    simp only [written, List.forall_mem_cons]
    exact ⟨number, dollar, forall_mem_digits digit _⟩
  | shortBranch | longBranch =>
    simp only [written, List.forall_mem_cons]
    exact ⟨dollar, forall_mem_digits digit _⟩

private theorem number_eq_of_written {address : Word} {b c : Byte} {bs cs : List Byte}
    {kind other : OperandKind} (same : written address b bs kind = written address c cs other) :
    kind.number b.toNat = other.number c.toNat := by
  -- Only registers and devices have a number, and nothing else is written like either of them.
  cases kind with
  | register =>
    cases other with
    | register =>
      have low := Hex.digit_injective _ _ (List.cons.inj (List.cons.inj same).2).1
      show b.toNat % 16 = c.toNat % 16
      rw [← Byte.toNat_low, low, Byte.toNat_low]
    | _ => simp [written] at same
  | device =>
    cases other with
    | device =>
      have low := congrArg BitVec.toNat (Hex.digit_injective _ _ (List.cons.inj same).1)
      show b.toNat % 8 = c.toNat % 8
      simp only [BitVec.toNat_setWidth] at low
      omega
    | _ => simp [written, digit_ne_dollar] at same
  | _ =>
    cases other with
    | register => simp [written] at same
    | device => simp [written, (digit_ne_dollar _).symm] at same
    | _ => rfl

private theorem operandBytes_eq_of_written {address : Word} {b : Byte} {bs cs : List Byte}
    {kind : OperandKind} (completeBs : bs.length = kind.byteCount)
    (completeCs : cs.length = kind.byteCount)
    (same : written address b bs kind = written address b cs kind) : bs = cs := by
  cases kind with
  | implied | register | device =>
    rw [List.length_eq_zero_iff.mp completeBs, List.length_eq_zero_iff.mp completeCs]
  | immediate => exact digits_injective (List.cons.inj (List.cons.inj same).2).2
  | shortBranch => exact (List.cons.inj (digits_injective (List.cons.inj same).2)).2
  | longBranch => exact digits_injective (List.cons.inj same).2

private theorem toList_operandText_ofData (address : Word) (byte : Byte) :
    (Entry.ofData address byte).operandText.toList = '$' :: digits [byte] := by
  show ("$" ++ Hex.byte byte).toList = '$' :: digits [byte]
  simp [digits]

private theorem forall_mem_operandText {p : Char → Prop} (digit : ∀ n, p (Hex.digit n))
    (marks : p 'R' ∧ p '#' ∧ p '$') {entry : Entry} (formed : entry.WellFormed) :
    ∀ c ∈ entry.operandText.toList, p c := by
  cases formed with
  | data address byte =>
    rw [toList_operandText_ofData, List.forall_mem_cons]
    exact ⟨marks.2.2, forall_mem_digits digit _⟩
  | instruction address opcode operandBytes isDefined complete =>
    rw [toList_operandText (Entry.isData_ofInstruction address opcode operandBytes) complete]
    exact forall_mem_written digit marks _ _ _ _

private theorem blank_lt_of_mem_name {entry : Entry} (formed : entry.WellFormed) :
    ∀ c ∈ entry.mnemonic.toList, ' ' < c := by
  cases formed with
  | data =>
    show ∀ c ∈ Entry.dataMnemonic.toList, ' ' < c
    have pass : Entry.dataMnemonic.toList.all (' ' < ·) = true := by decide
    simpa only [List.all_eq_true, decide_eq_true_eq] using pass
  | instruction address opcode operandBytes isDefined complete =>
    exact blank_lt_of_mem_mnemonic opcode

private def spaced : List Char → List Char
  | [] => []
  | operand => ' ' :: operand

private theorem spaced_injective {operand other : List Char}
    (same : spaced operand = spaced other) : operand = other := by
  cases operand with
  | nil =>
    cases other with
    | nil => rfl
    | cons => contradiction
  | cons =>
    cases other with
    | nil => contradiction
    | cons => exact (List.cons.inj same).2

private theorem takeWhile_spaced (operand : List Char) :
    (spaced operand).takeWhile (' ' < ·) = [] := by
  cases operand <;> rfl

private theorem eq_or_mem_of_mem_spaced {operand : List Char} {c : Char}
    (member : c ∈ spaced operand) : c = ' ' ∨ c ∈ operand := by
  cases operand with
  | nil => contradiction
  | cons => exact List.mem_cons.mp member

private theorem toList_text (entry : Entry) :
    entry.text.toList = entry.mnemonic.toList ++ spaced entry.operandText.toList := by
  unfold Entry.text
  cases chars : entry.operandText.toList with
  | nil =>
    have empty : entry.operandText = "" := String.toList_inj.mp chars
    simp [empty, spaced]
  | cons c cs =>
    have nonempty : entry.operandText.isEmpty = false := by
      rw [String.isEmpty_eq_false_iff]
      intro empty
      rw [empty] at chars
      contradiction
    simp [nonempty, spaced, chars]

theorem Entry.WellFormed.eq_of_text {entry other : Entry} (formed : entry.WellFormed)
    (formed' : other.WellFormed) (address : entry.address = other.address)
    (text : entry.text = other.text) : entry = other := by
  obtain ⟨mnemonic, operand⟩ : entry.mnemonic.toList = other.mnemonic.toList ∧
      entry.operandText.toList = other.operandText.toList := by
    have same := congrArg String.toList text
    rw [toList_text, toList_text] at same
    have parts := split_unique (p := (' ' < ·))
      (by simpa using blank_lt_of_mem_name formed) (by simpa using blank_lt_of_mem_name formed')
      (takeWhile_spaced _) (takeWhile_spaced _) same
    exact ⟨parts.1, spaced_injective parts.2⟩
  cases formed with
  | data a b =>
    cases formed' with
    | data a' c =>
      rw [toList_operandText_ofData, toList_operandText_ofData] at operand
      obtain rfl : a = a' := address
      obtain rfl : b = c := (List.cons.inj (digits_injective (List.cons.inj operand).2)).1
      rfl
    | instruction a' c cs =>
      exact absurd (String.toList_inj.mp mnemonic).symm (Entry.mnemonic_ne_dataMnemonic c)
  | instruction a b bs isDefined complete =>
    cases formed' with
    | data a' c => exact absurd (String.toList_inj.mp mnemonic) (Entry.mnemonic_ne_dataMnemonic b)
    | instruction a' c cs isDefined' complete' =>
      rw [toList_operandText (Entry.isData_ofInstruction a b bs) complete,
        toList_operandText (Entry.isData_ofInstruction a' c cs) complete'] at operand
      obtain rfl : a = a' := address
      obtain rfl : b = c :=
        eq_of_mnemonic_of_number (String.toList_inj.mp mnemonic) (number_eq_of_written operand)
      obtain rfl : bs = cs := operandBytes_eq_of_written complete complete' operand
      rfl

private theorem digit_ne_question : ∀ n : Nibble, Hex.digit n ≠ '?' := by
  decide +kernel

theorem Entry.WellFormed.question_not_mem_text {entry : Entry} (formed : entry.WellFormed) :
    '?' ∉ entry.text.toList := by
  rw [toList_text, List.mem_append, not_or]
  constructor
  · cases formed with
    | data =>
      show '?' ∉ Entry.dataMnemonic.toList
      decide
    | instruction address opcode operandBytes isDefined complete =>
      exact question_not_mem_mnemonic isDefined
  · intro member
    rcases eq_or_mem_of_mem_spaced member with blank | operand
    · exact absurd blank (by decide)
    · have marks : 'R' ≠ '?' ∧ '#' ≠ '?' ∧ '$' ≠ '?' := by decide
      exact forall_mem_operandText (p := (· ≠ '?')) digit_ne_question marks formed _ operand rfl

def row (entry : Entry) : List Char :=
  (Hex.word entry.address).toList ++ ' ' :: ' ' :: entry.text.toList

theorem toList_listing_cons (entry : Entry) (entries : List Entry) :
    (listing false (entry :: entries)).toList =
      row entry ++ '\n' :: (listing false entries).toList := by
  simp [listing, Entry.line, row]

private theorem blank_lt_or_eq_of_mem_row {entry : Entry} (formed : entry.WellFormed) :
    ∀ c ∈ row entry, ' ' < c ∨ c = ' ' := by
  intro c member
  have word : (Hex.word entry.address).toList =
      digits [entry.address.highByte, entry.address.lowByte] := by simp [digits]
  rw [row, word, toList_text] at member
  simp only [List.mem_append, List.mem_cons] at member
  rcases member with address | blank | blank | mnemonic | operand
  · exact .inl (forall_mem_digits blank_lt_digit _ c address)
  · exact .inr blank
  · exact .inr blank
  · exact .inl (blank_lt_of_mem_name formed c mnemonic)
  · rcases eq_or_mem_of_mem_spaced operand with blank | operand
    · exact .inr blank
    · exact .inl (forall_mem_operandText blank_lt_digit (by decide) formed c operand)

theorem ne_newline_of_mem_row {entry : Entry} (formed : entry.WellFormed) :
    ∀ c ∈ row entry, (c != '\n') = true := by
  intro c member
  rw [bne_iff_ne]
  rintro rfl
  exact absurd (blank_lt_or_eq_of_mem_row formed _ member) (by decide)

private theorem row_injective {entry other : Entry} (formed : entry.WellFormed)
    (formed' : other.WellFormed) (same : row entry = row other) : entry = other := by
  have width (a : Word) : (Hex.word a).toList.length = 4 := by rw [Hex.toList_word]; rfl
  obtain ⟨address, rest⟩ := List.append_inj same (by simp only [width])
  have text := (List.cons.inj (List.cons.inj rest).2).2
  exact formed.eq_of_text formed' (word_injective address) (String.toList_inj.mp text)

private theorem listing_cons_ne_nil (entry : Entry) (entries : List Entry) :
    listing false (entry :: entries) ≠ listing false [] := by
  intro same
  have lines := congrArg String.toList same
  rw [toList_listing_cons] at lines
  exact absurd lines (List.append_ne_nil_of_right_ne_nil _ (List.cons_ne_nil _ _))

private theorem head?_address_sweep {bytes : List Byte} (nonempty : bytes ≠ []) (start : Word) :
    (sweep start bytes).head?.map Entry.address = some start := by
  obtain ⟨opcode, rest, rfl⟩ := List.exists_cons_of_ne_nil nonempty
  obtain ⟨-, address, -⟩ := Entry.first_spec start opcode rest
  rw [sweep_cons]
  exact congrArg some address

theorem listing_injective {entries others : List Entry}
    (formed : ∀ entry ∈ entries, entry.WellFormed) (formed' : ∀ entry ∈ others, entry.WellFormed)
    (same : listing false entries = listing false others) : entries = others := by
  induction entries generalizing others with
  | nil =>
    cases others with
    | nil => rfl
    | cons other others => exact absurd same.symm (listing_cons_ne_nil other others)
  | cons entry entries ih =>
    cases others with
    | nil => exact absurd same (listing_cons_ne_nil entry entries)
    | cons other others =>
      obtain ⟨formedHead, formedTail⟩ := List.forall_mem_cons.mp formed
      obtain ⟨formedHead', formedTail'⟩ := List.forall_mem_cons.mp formed'
      have lines := congrArg String.toList same
      rw [toList_listing_cons, toList_listing_cons] at lines
      obtain ⟨rows, rest⟩ := split_unique (ne_newline_of_mem_row formedHead)
        (ne_newline_of_mem_row formedHead') rfl rfl lines
      have later := String.toList_inj.mp (List.cons.inj rest).2
      rw [row_injective formedHead formedHead' rows, ih formedTail formedTail' later]

/-- The text alone determines the machine code: equal listings are of equal bytes, from equal
addresses on if there are any, and no two entries at one address read alike unless their bytes
are equal. -/
theorem bytes_eq_of_listing_eq (start start' : Word) (bytes bytes' : List Byte) :
    (listing false (sweep start bytes) = listing false (sweep start' bytes') →
      bytes = bytes' ∧ (bytes ≠ [] → start = start')) ∧
    ∀ entry ∈ sweep start bytes, ∀ other ∈ sweep start' bytes',
      entry.address = other.address → entry.text = other.text → entry.bytes = other.bytes := by
  have formed := wellFormed_of_mem_sweep start bytes
  have formed' := wellFormed_of_mem_sweep start' bytes'
  constructor
  · intro same
    have entries := listing_injective formed formed' same
    have bytesEq : bytes = bytes' := by
      rw [← flatMap_bytes_sweep start bytes, entries, flatMap_bytes_sweep]
    refine ⟨bytesEq, fun nonempty => ?_⟩
    have first := head?_address_sweep nonempty start
    rw [entries, head?_address_sweep (bytesEq ▸ nonempty)] at first
    exact (Option.some.inj first).symm
  · intro entry member other member' address text
    rw [(formed entry member).eq_of_text (formed' other member') address text]

/-- A branch whose operand lies in the next page, swept alone and behind another instruction. -/
theorem bytes_eq_of_listing_eq_across_page :
    listing false (sweep 0x12FF [0x30, 0x40]) = "12FF  BR $1340\n" ∧
      ([0x30, 0x40] : List Byte) = [0x30] ++ [0x40] ∧ (0x12FF : Word) = 0x1300 - 1 ∧
      (Entry.ofInstruction 0x12FF 0x30 [0x40]).bytes =
        (Entry.first 0x12FF 0x30 [0x40]).bytes := by
  have alone := bytes_eq_of_listing_eq 0x12FF (0x1300 - 1) [0x30, 0x40] ([0x30] ++ [0x40])
  have behind := bytes_eq_of_listing_eq 0x12FF 0x12FE [0x30, 0x40] [0xC4, 0x30, 0x40]
  obtain ⟨bytes, start⟩ := alone.1 rfl
  refine ⟨by decide +kernel, bytes, start (List.cons_ne_nil _ _), ?_⟩
  exact behind.2 _ (by decide +kernel) _ (by decide +kernel) rfl (by decide +kernel)

end Cosmac.Disassembly
