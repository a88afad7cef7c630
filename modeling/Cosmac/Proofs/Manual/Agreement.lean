import Cosmac.Machine.Step
import Cosmac.Proofs.Isa.Listed
import Cosmac.Proofs.Manual.Description

/-!
The machine agrees with the manual. Arithmetic on numbers is joined to arithmetic on words first,
then every instruction to the description of each entry that it is listed under. Main statement: a
step gives the result and leaves the machine that the manual gives, whatever the memory and the
registers hold.
-/

set_option autoImplicit false
set_option relaxedAutoImplicit false

namespace Cosmac.Manual

open Isa

variable {σ : Type}

/-! ### Numbers and words -/

private theorem ofInt_toNat_add {w : Nat} (x : BitVec w) (v : Int) :
    BitVec.ofInt w (x.toNat + v) = x + BitVec.ofInt w v := by
  rw [BitVec.ofInt_add, BitVec.ofInt_natCast, BitVec.ofNat_toNat, BitVec.setWidth_eq]

private theorem ofInt_toNat {w : Nat} (x : BitVec w) : BitVec.ofInt w x.toNat = x := by
  rw [BitVec.ofInt_natCast, BitVec.ofNat_toNat, BitVec.setWidth_eq]

private theorem putReg_reg_add (m : Machine σ) (k : Nibble) (v : Int) :
    putReg m k (reg m k + v) = m.advance k (.ofInt 16 v) := by
  simp only [putReg, reg, ofInt_toNat_add, Machine.advance, Machine.setRegister, Machine.register]

private theorem putReg_reg_sub_one (m : Machine σ) (k : Nibble) :
    putReg m k (reg m k - 1) = m.retreat k := by
  rw [Int.sub_eq_add_neg, putReg_reg_add, BitVec.ofInt_neg, Machine.advance, Machine.retreat,
    BitVec.sub_eq_add_neg]
  rfl

private theorem putReg_page_add (m : Machine σ) (k : Nibble) (low : Byte) :
    putReg m k (reg m k / 256 * 256 + low.toNat) =
      m.setRegister k ((m.register k).withLow low) := by
  have value : BitVec.ofInt 16 ((reg m k : Int) / 256 * 256 + low.toNat) =
      (m.register k).withLow low := by
    apply BitVec.eq_of_toNat_eq
    have := (m.register k).isLt
    have := low.isLt
    simp only [BitVec.toNat_ofInt, Word.withLow, Word.toNat_ofBytes, Word.toNat_highByte, reg,
      Machine.register] at *
    omega
  rw [putReg, value, Machine.setRegister]

private theorem putReg_pair (m : Machine σ) (k : Nibble) (high low : Byte) :
    putReg m k (256 * high.toNat + low.toNat) = m.setRegister k (.ofBytes high low) := by
  have value : BitVec.ofInt 16 (256 * (high.toNat : Int) + low.toNat) = Word.ofBytes high low := by
    apply BitVec.eq_of_toNat_eq
    have := high.isLt
    have := low.isLt
    simp only [BitVec.toNat_ofInt, Word.toNat_ofBytes]
    omega
  rw [putReg, value, Machine.setRegister]

private theorem putReg_low (m : Machine σ) (k : Nibble) :
    putReg m k (reg m k - reg m k % 256 + m.d.toNat) =
      m.setRegister k ((m.register k).withLow m.d) := by
  rw [← putReg_page_add]
  congr 2
  omega

private theorem putReg_high (m : Machine σ) (k : Nibble) :
    putReg m k (256 * m.d.toNat + reg m k % 256) =
      m.setRegister k ((m.register k).withHigh m.d) := by
  rw [Word.withHigh, ← putReg_pair, Word.toNat_lowByte]
  rfl

private theorem putD_low (m : Machine σ) (k : Nibble) :
    putD m (reg m k % 256) = m.setD (m.register k).lowByte := by
  rw [← ofInt_toNat (m.register k).lowByte, Word.toNat_lowByte]
  rfl

private theorem putD_high (m : Machine σ) (k : Nibble) :
    putD m (reg m k / 256) = m.setD (m.register k).highByte := by
  rw [← ofInt_toNat (m.register k).highByte, Word.toNat_highByte]
  rfl

def Result.accumulator (result : Result) : Accumulator := ⟨.ofInt 8 result.1, result.2⟩

private theorem accumulator_sum (a b : Byte) (carry : Bool) :
    (sum (a.toNat + b.toNat + carry.toNat)).accumulator = Alu.sum a b carry := by
  simp only [Result.accumulator, sum, Alu.sum, BitVec.ofInt_natCast, Nat.lt_iff_add_one_le]

private theorem accumulator_difference (a b : Byte) (carry : Bool) :
    (difference (a.toNat - b.toNat - (1 - carry.toNat))).accumulator =
      Alu.sum a (~~~b) carry := by
  have := b.isLt
  have := carry.toNat_le
  have exact := Alu.toNat_sum_not a b carry
  have low := (Alu.sum a (~~~b) carry).d.isLt
  cases h : Alu.sum a (~~~b) carry with | mk d df =>
  simp only [h, Accumulator.toNat] at exact low
  simp only [Result.accumulator, difference, Accumulator.mk.injEq]
  constructor
  · apply BitVec.eq_of_toNat_eq
    rw [BitVec.toNat_ofInt]
    cases df <;> simp only [Bool.toNat_true, Bool.toNat_false] at exact <;> omega
  · cases df <;> simp only [Bool.toNat_true, Bool.toNat_false, decide_eq_true_eq,
      decide_eq_false_iff_not] at exact ⊢ <;> omega

private theorem accumulator_shiftRight (d : Byte) (entering : Bool) :
    Result.accumulator ((d.toNat : Int) / 2 + 128 * entering.toNat, decide (d.toNat % 2 = 1)) =
      ⟨(d.extractLsb' 1 7).cons entering, d.getLsbD 0⟩ := by
  simp only [Result.accumulator, Accumulator.mk.injEq]
  constructor
  · apply BitVec.eq_of_toNat_eq
    have := d.isLt
    have := entering.toNat_le
    rw [BitVec.toNat_ofInt, BitVec.toNat_cons', BitVec.extractLsb'_toNat, Nat.shiftLeft_eq,
      Nat.shiftRight_eq_div_pow]
    omega
  · rw [BitVec.getLsbD, Nat.testBit_zero]

private theorem accumulator_shiftLeft (d : Byte) (entering : Bool) :
    Result.accumulator (2 * (d.toNat : Int) + entering.toNat, decide (128 ≤ d.toNat)) =
      ⟨(d.setWidth 7).concat entering, d.msb⟩ := by
  simp only [Result.accumulator, Accumulator.mk.injEq]
  constructor
  · apply BitVec.eq_of_toNat_eq
    have := d.isLt
    have := entering.toNat_le
    rw [BitVec.toNat_ofInt, BitVec.toNat_concat, BitVec.toNat_setWidth]
    omega
  · rw [BitVec.msb_eq_decide]

/-! ### Names and meanings -/

private theorem combine_mnemonic (op : Alu.Operation) (source : Source) (acc : Accumulator)
    (v : Byte) :
    (combine acc.d.toNat acc.df v.toNat (source.mnemonic op)).map Result.accumulator =
      some (op.apply acc v) := by
  obtain ⟨d, df⟩ := acc
  have load : Result.accumulator (v.toNat, df) = ⟨v, df⟩ := by
    rw [Result.accumulator, ofInt_toNat]
  have or : Result.accumulator ((d.toNat ||| v.toNat : Nat), df) = ⟨d ||| v, df⟩ := by
    rw [← BitVec.toNat_or, Result.accumulator, ofInt_toNat]
  have and : Result.accumulator ((d.toNat &&& v.toNat : Nat), df) = ⟨d &&& v, df⟩ := by
    rw [← BitVec.toNat_and, Result.accumulator, ofInt_toNat]
  have xor : Result.accumulator ((d.toNat ^^^ v.toNat : Nat), df) = ⟨d ^^^ v, df⟩ := by
    rw [← BitVec.toNat_xor, Result.accumulator, ofInt_toNat]
  have difference_true (a b : Byte) :
      (difference (a.toNat - b.toNat)).accumulator = Alu.sum a (~~~b) true := by
    rw [← accumulator_difference]
    simp
  cases source <;> rcases op with _ | _ | _ | _ | chained | chained | chained <;>
    try cases chained
  all_goals apply congrArg some
  case pointer.load | immediate.load => exact load
  case pointer.or | immediate.or => exact or
  case pointer.and | immediate.and => exact and
  case pointer.xor | immediate.xor => exact xor
  case pointer.add.false | immediate.add.false => exact accumulator_sum d v false
  case pointer.add.true | immediate.add.true => exact accumulator_sum d v df
  case pointer.subtractOperand.false | immediate.subtractOperand.false =>
    exact difference_true d v
  case pointer.subtractOperand.true | immediate.subtractOperand.true =>
    exact accumulator_difference d v df
  case pointer.subtractAccumulator.false | immediate.subtractAccumulator.false =>
    exact difference_true v d
  case pointer.subtractAccumulator.true | immediate.subtractAccumulator.true =>
    exact accumulator_difference v d df

private theorem decide_toNat_eq_zero (d : Byte) : decide (d.toNat = 0) = (d == 0) := by
  rw [Bool.eq_iff_iff, decide_eq_true_iff, beq_iff_eq, BitVec.toNat_eq]
  rfl

private theorem latched_eq_fetched (m : Machine σ) (opcode : Byte) :
    latched m opcode.toNat = m.fetched opcode := by
  simp only [latched, Machine.fetched, putReg_reg_add, ← Byte.toNat_high, ← Byte.toNat_low,
    BitVec.ofNat_toNat, BitVec.setWidth_eq]
  rfl

variable [Bus σ]

private theorem cell_reg (m : Machine σ) (k : Nibble) :
    cell m (reg m k) = (m.read (m.register k)).toNat := by
  rw [cell, reg, BitVec.ofNat_toNat, BitVec.setWidth_eq]
  rfl

private theorem cell_reg_add_one (m : Machine σ) (k : Nibble) :
    cell m (reg m k + 1) = (m.read (m.register k + 1)).toNat := by
  rw [cell, reg, BitVec.ofNat_add, BitVec.ofNat_toNat, BitVec.setWidth_eq]
  rfl

private theorem putCell_reg (m : Machine σ) (k : Nibble) (v : Byte) :
    putCell m (reg m k) v = m.write (m.register k) v := by
  rw [putCell, reg, BitVec.ofNat_toNat, BitVec.setWidth_eq]
  rfl

private theorem putD_cell_reg (m : Machine σ) (k : Nibble) :
    putD m (cell m (reg m k)) = m.setD (m.read (m.register k)) := by
  rw [cell_reg, putD, ofInt_toNat]
  rfl

private theorem transfer_shortBranch (m : Machine σ) (test : Test) :
    transfer m .shortBranch (test.holds m.toProcessor) = m.branch test := by
  rw [Machine.branch]
  cases test.holds m.toProcessor with
  | true =>
    simp only [transfer, cell_reg, putReg_page_add, if_true]
    rfl
  | false =>
    simp only [transfer, putReg_reg_add, Bool.false_eq_true, if_false]
    rfl

private theorem transfer_longBranch (m : Machine σ) (test : Test) :
    transfer m .longBranch (test.holds m.toProcessor) = m.longBranch test := by
  rw [Machine.longBranch]
  cases test.holds m.toProcessor with
  | true =>
    simp only [transfer, cell_reg, cell_reg_add_one, putReg_pair, if_true]
    rfl
  | false =>
    simp only [transfer, putReg_reg_add, Bool.false_eq_true, if_false]
    rfl

private theorem transfer_implied (m : Machine σ) (test : Test) :
    transfer m .implied (test.holds m.toProcessor) = m.longSkip test := by
  rw [Machine.longSkip]
  cases test.holds m.toProcessor with
  | true =>
    simp only [transfer, putReg_reg_add, if_true]
    rfl
  | false => rfl

private theorem restore_eq (m : Machine σ) (enable : Bool) :
    restore m enable = m.restore enable := by
  simp only [restore, Machine.restore, cell_reg, putReg_reg_add, ← Byte.toNat_high,
    ← Byte.toNat_low, BitVec.ofNat_toNat, BitVec.setWidth_eq]
  rfl

private theorem condition_and_describe_of_named (m : Machine σ) (n : Nibble) (test : Test)
    (kind : OperandKind) {name : String}
    (named : name ∈ test.shortBranches ++ test.longBranches ++ test.longSkips) :
    condition m name = some (test.holds m.toProcessor) ∧
      describe m n ⟨name, kind⟩ = (condition m name).map (transfer m kind) := by
  obtain ⟨tested, negated⟩ := test
  rcases tested with _ | _ | _ | _ | flag | _ <;> cases negated <;> try cases flag
  case always.true | interruptsEnabled.true => cases named
  all_goals
    simp only [Test.shortBranches, Test.longBranches, Test.longSkips, List.cons_append,
      List.nil_append, List.mem_cons, List.not_mem_nil, or_false] at named
    simp only [Test.holds, Condition.holds, FlagLevels.level, Bool.bne_false, Bool.bne_true,
      ← decide_toNat_eq_zero, ← decide_not]
  case always.false | q.false | q.true | accumulatorZero.false | accumulatorZero.true |
      carry.false | carry.true =>
    rcases named with rfl | rfl | rfl <;> exact ⟨rfl, rfl⟩
  all_goals
    obtain rfl := named
    exact ⟨rfl, rfl⟩

theorem condition_of_named (m : Machine σ) (test : Test) (name : String)
    (named : name ∈ test.shortBranches ++ test.longBranches ++ test.longSkips) :
    condition m name = some (test.holds m.toProcessor) :=
  (condition_and_describe_of_named m 0 test .implied named).1

private theorem describe_test (m : Machine σ) (n : Nibble) (test : Test) (kind : OperandKind)
    {name : String} (named : name ∈ test.shortBranches ++ test.longBranches ++ test.longSkips) :
    describe m n ⟨name, kind⟩ = some (transfer m kind (test.holds m.toProcessor)) := by
  obtain ⟨condition, described⟩ := condition_and_describe_of_named m n test kind named
  rw [described, condition]
  rfl

private theorem describe_compute (m : Machine σ) (n : Nibble) (op : Alu.Operation)
    (source : Source) :
    describe m n ⟨source.mnemonic op, source.operandKind⟩ = some (m.compute op source) := by
  have found : describe m n ⟨source.mnemonic op, source.operandKind⟩ =
      (combine m.d.toNat m.df (operand m source.operandKind).1 (source.mnemonic op)).map
        (putResult (operand m source.operandKind).2) := by
    cases op with
    | load | or | and | xor => cases source <;> rfl
    | add chained | subtractOperand chained | subtractAccumulator chained =>
      cases source <;> cases chained <;> rfl
  have combined := combine_mnemonic op source m.accumulator
  rw [found]
  cases source with
  | pointer =>
    simp only [Source.operandKind, operand, cell_reg]
    exact (Option.map_map m.setAccumulator _ _).symm.trans (congrArg _ (combined _))
  | immediate =>
    simp only [Source.operandKind, operand, cell_reg, putReg_reg_add]
    exact (Option.map_map (m.advance m.p 1).setAccumulator _ _).symm.trans
      (congrArg _ (combined _))

private theorem describe_shift (m : Machine σ) (n : Nibble) (direction : Alu.Direction)
    (ring : Bool) :
    describe m n ⟨shiftMnemonic direction ring, .implied⟩ =
      some (m.setAccumulator (Alu.shift direction ring m.accumulator)) := by
  have right := accumulator_shiftRight m.d
  have left := accumulator_shiftLeft m.d
  cases direction <;> cases ring
  case right.false => exact congrArg (fun acc => some (m.setAccumulator acc)) (right false)
  case right.true => exact congrArg (fun acc => some (m.setAccumulator acc)) (right m.df)
  case left.false => exact congrArg (fun acc => some (m.setAccumulator acc)) (left false)
  case left.true => exact congrArg (fun acc => some (m.setAccumulator acc)) (left m.df)

/-- What an instruction does is what is described under each entry that it is listed for. -/
theorem describe_eq_execute (m : Machine σ) (n : Nibble) {i : Instruction} {entry : OpcodeInfo}
    (listed : entry ∈ i.listed) (names : ∀ k, i.register? = some k → k = n)
    (described : i ≠ .saveContext) : describe m n entry = some (m.execute i) := by
  cases i with
  | idle =>
    obtain rfl := List.mem_singleton.mp listed
    exact congrArg some (putReg_reg_sub_one m m.p)
  | load k =>
    obtain rfl := names k rfl
    obtain rfl := List.mem_singleton.mp listed
    exact congrArg some (putD_cell_reg m k)
  | loadAdvance k =>
    obtain rfl := names k rfl
    obtain rfl := List.mem_singleton.mp listed
    apply congrArg some
    rw [putD_cell_reg]
    exact putReg_reg_add _ k 1
  | store k =>
    obtain rfl := names k rfl
    obtain rfl := List.mem_singleton.mp listed
    exact congrArg some (putCell_reg m k m.d)
  | popAdvance =>
    obtain rfl := List.mem_singleton.mp listed
    apply congrArg some
    rw [putD_cell_reg]
    exact putReg_reg_add _ m.x 1
  | pushRetreat =>
    obtain rfl := List.mem_singleton.mp listed
    apply congrArg some
    rw [putCell_reg]
    exact putReg_reg_sub_one _ m.x
  | increment k =>
    obtain rfl := names k rfl
    obtain rfl := List.mem_singleton.mp listed
    exact congrArg some (putReg_reg_add m k 1)
  | decrement k =>
    obtain rfl := names k rfl
    obtain rfl := List.mem_singleton.mp listed
    exact congrArg some (putReg_reg_sub_one m k)
  | advancePointer =>
    obtain rfl := List.mem_singleton.mp listed
    exact congrArg some (putReg_reg_add m m.x 1)
  | branch test =>
    rcases List.mem_append.mp listed with listed | listed
    · obtain ⟨name, named, rfl⟩ := List.mem_map.mp listed
      rw [describe_test m n test _ (by simp [named]), transfer_shortBranch]
      rfl
    -- A branch that is never taken steps over its operand byte: it is listed as a skip.
    · obtain ⟨rfl, rfl⟩ : test = ⟨.always, true⟩ ∧ entry = ⟨"SKP", .implied⟩ := by
        simpa using listed
      exact congrArg some (putReg_reg_add m m.p 1)
  | longBranch test =>
    obtain ⟨name, named, rfl⟩ := List.mem_map.mp listed
    rw [describe_test m n test _ (by simp [named]), transfer_longBranch]
    rfl
  | longSkip test =>
    obtain ⟨name, named, rfl⟩ := List.mem_map.mp listed
    rw [describe_test m n test _ (by simp [named]), transfer_implied]
    rfl
  | output device =>
    obtain rfl := List.mem_singleton.mp listed
    apply congrArg some
    rw [putReg_reg_add, cell_reg, BitVec.ofNat_toNat, BitVec.setWidth_eq]
    rfl
  | input device =>
    obtain rfl := List.mem_singleton.mp listed
    apply congrArg some
    rw [putCell_reg]
    rfl
  | restore enable =>
    cases enable <;> obtain rfl := List.mem_singleton.mp listed <;>
      exact congrArg some (restore_eq m _)
  | setQ level =>
    cases level <;> obtain rfl := List.mem_singleton.mp listed <;> rfl
  | compute op source =>
    obtain rfl := List.mem_singleton.mp listed
    exact describe_compute m n op source
  | shift direction ring =>
    obtain rfl := List.mem_singleton.mp listed
    exact describe_shift m n direction ring
  | getLow k =>
    obtain rfl := names k rfl
    obtain rfl := List.mem_singleton.mp listed
    exact congrArg some (putD_low m k)
  | getHigh k =>
    obtain rfl := names k rfl
    obtain rfl := List.mem_singleton.mp listed
    exact congrArg some (putD_high m k)
  | putLow k =>
    obtain rfl := names k rfl
    obtain rfl := List.mem_singleton.mp listed
    exact congrArg some (putReg_low m k)
  | putHigh k =>
    obtain rfl := names k rfl
    obtain rfl := List.mem_singleton.mp listed
    exact congrArg some (putReg_high m k)
  | selectCounter k =>
    obtain rfl := names k rfl
    obtain rfl := List.mem_singleton.mp listed
    rfl
  | selectPointer k =>
    obtain rfl := names k rfl
    obtain rfl := List.mem_singleton.mp listed
    rfl
  | pass =>
    simp only [Instruction.listed, List.mem_cons, List.not_mem_nil, or_false] at listed
    rcases listed with rfl | rfl <;> rfl
  | saveContext => contradiction

private theorem describe_saveContext (m : Machine σ) (n : Nibble) {entry : OpcodeInfo}
    (listed : entry ∈ Instruction.saveContext.listed) : describe m n entry = none := by
  simp only [Instruction.listed, List.mem_cons, List.not_mem_nil, or_false] at listed
  rcases listed with rfl | rfl <;> rfl

/-- A step does what the manual describes under the entry of the opcode at the program counter:
it gives the same result and leaves the same machine. -/
theorem step_eq_manual (m : Machine σ) : (m.step.result, m.step.state) = step m := by
  have opcode : cell m (reg m m.p) = m.atCounter.toNat := cell_reg m m.p
  have byte : BitVec.ofNat 8 m.atCounter.toNat = m.atCounter := by
    rw [BitVec.ofNat_toNat, BitVec.setWidth_eq]
  have low : BitVec.ofNat 4 (m.atCounter.toNat % 16) = m.atCounter.low := by
    rw [← Byte.toNat_low, BitVec.ofNat_toNat, BitVec.setWidth_eq]
  have listed : info m.atCounter ∈ m.instruction.listed := info_mem_listed m.atCounter
  simp only [step, opcode, byte, low, latched_eq_fetched]
  by_cases refused : m.instruction = .saveContext
  · rw [Machine.step_of_saveContext m refused]
    rw [refused] at listed
    rw [describe_saveContext _ _ listed]
  · rw [Machine.step_of_ne_saveContext m refused]
    rw [describe_eq_execute _ _ listed (fun _ => eq_low_of_register?) refused]
    rfl

end Cosmac.Manual
