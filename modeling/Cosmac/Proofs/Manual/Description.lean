import Cosmac.Machine.Basic

/-!
The instructions as a manual describes them: by their names in the opcode map, with registers and
memory cells that hold numbers, and with arithmetic on numbers whose remainder is kept. Nothing
here looks at how an opcode is decoded for execution. An instruction finds the machine as it is
when the opcode has been stepped over and its two digits are latched.
-/

set_option autoImplicit false
set_option relaxedAutoImplicit false

namespace Cosmac.Manual

open Isa

variable {σ : Type}

def reg (m : Machine σ) (k : Nibble) : Nat := (m.r.get k).toNat

def putReg (m : Machine σ) (k : Nibble) (v : Int) : Machine σ :=
  { m with r := m.r.set k (.ofInt 16 v) }

def putD (m : Machine σ) (v : Int) : Machine σ :=
  { m with d := .ofInt 8 v }

/-- What is left in `D`, as a number to be taken modulo 256, and in `DF`. -/
abbrev Result := Int × Bool

def putResult (m : Machine σ) (result : Result) : Machine σ :=
  { m with d := .ofInt 8 result.1, df := result.2 }

/-- The result of an addition: `DF` is set if a ninth bit is needed. -/
def sum (v : Nat) : Result := (v, decide (256 ≤ v))

/-- The result of a subtraction: `DF` is set if nothing had to be borrowed. -/
def difference (v : Int) : Result := (v, decide (0 ≤ v))

def combine (d : Nat) (df : Bool) (v : Nat) : String → Option Result
  | "LDX" | "LDI" => some (v, df)
  | "OR" | "ORI" => some ((d ||| v : Nat), df)
  | "AND" | "ANI" => some ((d &&& v : Nat), df)
  | "XOR" | "XRI" => some ((d ^^^ v : Nat), df)
  | "ADD" | "ADI" => some (sum (d + v))
  | "ADC" | "ADCI" => some (sum (d + v + df.toNat))
  | "SD" | "SDI" => some (difference (v - d))
  | "SDB" | "SDBI" => some (difference (v - d - (1 - df.toNat)))
  | "SM" | "SMI" => some (difference (d - v))
  | "SMB" | "SMBI" => some (difference (d - v - (1 - df.toNat)))
  | _ => none

def shift (d : Nat) (df : Bool) : String → Option Result
  | "SHR" => some (d / 2, decide (d % 2 = 1))
  | "SHRC" => some (d / 2 + 128 * df.toNat, decide (d % 2 = 1))
  | "SHL" => some (2 * d, decide (128 ≤ d))
  | "SHLC" => some (2 * d + df.toNat, decide (128 ≤ d))
  | _ => none

def condition (m : Machine σ) : String → Option Bool
  | "BR" | "LBR" | "LSKP" => some true
  | "BQ" | "LBQ" | "LSQ" => some m.q
  | "BNQ" | "LBNQ" | "LSNQ" => some (!m.q)
  | "BZ" | "LBZ" | "LSZ" => some (decide (m.d.toNat = 0))
  | "BNZ" | "LBNZ" | "LSNZ" => some (decide (m.d.toNat ≠ 0))
  | "BDF" | "LBDF" | "LSDF" => some m.df
  | "BNF" | "LBNF" | "LSNF" => some (!m.df)
  | "B1" => some m.ef.ef1
  | "B2" => some m.ef.ef2
  | "B3" => some m.ef.ef3
  | "B4" => some m.ef.ef4
  | "BN1" => some (!m.ef.ef1)
  | "BN2" => some (!m.ef.ef2)
  | "BN3" => some (!m.ef.ef3)
  | "BN4" => some (!m.ef.ef4)
  | "LSIE" => some m.ie
  | _ => none

/-- Instructions on the registers; `n` is the register that the opcode names. -/
def registerOperation (m : Machine σ) (n : Nibble) : String → Option (Machine σ)
  | "INC" => some (putReg m n (reg m n + 1))
  | "DEC" => some (putReg m n (reg m n - 1))
  | "IRX" => some (putReg m m.x (reg m m.x + 1))
  | "GLO" => some (putD m (reg m n % 256))
  | "GHI" => some (putD m (reg m n / 256))
  | "PLO" => some (putReg m n (reg m n - reg m n % 256 + m.d.toNat))
  | "PHI" => some (putReg m n (256 * m.d.toNat + reg m n % 256))
  | _ => none

variable [Bus σ]

/-- The number in the memory cell at an address, which counts modulo 65536. -/
def cell (m : Machine σ) (a : Nat) : Nat := (Bus.read m.memory (.ofNat 16 a)).toNat

def putCell (m : Machine σ) (a : Nat) (v : Byte) : Machine σ :=
  { m with memory := Bus.write m.memory (.ofNat 16 a) v }

/-- Loads and stores, apart from those that share their operand with arithmetic. -/
def memoryReference (m : Machine σ) (n : Nibble) : String → Option (Machine σ)
  | "LDN" => some (putD m (cell m (reg m n)))
  | "LDA" => some (putReg (putD m (cell m (reg m n))) n (reg m n + 1))
  | "LDXA" => some (putReg (putD m (cell m (reg m m.x))) m.x (reg m m.x + 1))
  | "STR" => some (putCell m (reg m n) m.d)
  | "STXD" => some (putReg (putCell m (reg m m.x) m.d) m.x (reg m m.x - 1))
  | _ => none

/-- The operand of an instruction on `D`, and the machine once it is fetched: the byte after the
opcode, which is stepped over, or the byte at `R(X)`. -/
def operand (m : Machine σ) : OperandKind → Nat × Machine σ
  | .immediate => (cell m (reg m m.p), putReg m m.p (reg m m.p + 1))
  | _ => (cell m (reg m m.x), m)

/-- Where control goes, according to whether the condition holds: a short branch replaces the lower
byte of the operand's address, a long branch the whole of `R(P)`, and any other instruction with a
condition skips two bytes. -/
def transfer (m : Machine σ) : OperandKind → Bool → Machine σ
  | .shortBranch, true => putReg m m.p (reg m m.p / 256 * 256 + cell m (reg m m.p))
  | .shortBranch, false => putReg m m.p (reg m m.p + 1)
  | .longBranch, true => putReg m m.p (256 * cell m (reg m m.p) + cell m (reg m m.p + 1))
  | .longBranch, false => putReg m m.p (reg m m.p + 2)
  | _, true => putReg m m.p (reg m m.p + 2)
  | _, false => m

def restore (m : Machine σ) (enable : Bool) : Machine σ :=
  let t := cell m (reg m m.x)
  { putReg m m.x (reg m m.x + 1) with x := .ofNat 4 (t / 16), p := .ofNat 4 (t % 16), ie := enable }

def control (m : Machine σ) (n : Nibble) : String → Option (Machine σ)
  | "IDL" => some (putReg m m.p (reg m m.p - 1))
  | "NOP" | "???" => some m
  | "SKP" => some (putReg m m.p (reg m m.p + 1))
  | "SEP" => some { m with p := n }
  | "SEX" => some { m with x := n }
  | "RET" => some (restore m true)
  | "DIS" => some (restore m false)
  | "REQ" => some { m with q := false }
  | "SEQ" => some { m with q := true }
  | "OUT" => some { putReg m m.x (reg m m.x + 1) with bus := .ofNat 8 (cell m (reg m m.x)) }
  | "INP" => some { putCell m (reg m m.x) m.bus with d := m.bus }
  | _ => none

/-- What an instruction does that is listed under `entry` and names register `n`; nothing if it is
not described. -/
def describe (m : Machine σ) (n : Nibble) (entry : OpcodeInfo) : Option (Machine σ) :=
  registerOperation m n entry.mnemonic
    <|> memoryReference m n entry.mnemonic
    <|> (combine m.d.toNat m.df (operand m entry.operand).1 entry.mnemonic).map
      (putResult (operand m entry.operand).2)
    <|> (shift m.d.toNat m.df entry.mnemonic).map (putResult m)
    <|> (condition m entry.mnemonic).map (transfer m entry.operand)
    <|> control m n entry.mnemonic

def latched (m : Machine σ) (opcode : Nat) : Machine σ :=
  { putReg m m.p (reg m m.p + 1) with i := .ofNat 4 (opcode / 16), n := .ofNat 4 (opcode % 16) }

/-- One instruction by the book: the opcode at `R(P)` is looked up in the map, and what is
described under its entry is done and counted. An instruction that is not described is refused. -/
def step (m : Machine σ) : Except Fault Unit × Machine σ :=
  let opcode := cell m (reg m m.p)
  let entry := Isa.info (.ofNat 8 opcode)
  match describe (latched m opcode) (.ofNat 4 (opcode % 16)) entry with
  | some after => (.ok (), { after with count := after.count + 1 })
  | none => (.error (.unsupported (.ofNat 8 opcode) entry.mnemonic), latched m opcode)

end Cosmac.Manual
