import Cosmac.Proofs.Alu.Chain

/-!
Shifts as arithmetic. Ring shifts turn `DF` and `D` as one word of nine bits. Shifts of several
bytes, one after another, carry the bit that leaves one byte into the next: from the lowest byte
upward they double a number, and from the highest byte downward they halve it. Main statement: the
bytes are exact, and the last `DF` is the bit that is lost from them.
-/

set_option autoImplicit false
set_option relaxedAutoImplicit false

namespace Cosmac

/-- `DF` and `D` as one word, `DF` at the top. -/
def Accumulator.word (acc : Accumulator) : BitVec 9 := acc.d.cons acc.df

namespace Alu

/-! ### Rotations -/

private theorem getLsbD_rotateLeft_of_lt (w : BitVec 9) (places : Nat) {i : Nat} (inside : i < 9) :
    (w.rotateLeft places).getLsbD i = w.getLsbD ((i + 8 * places) % 9) := by
  rw [BitVec.getLsbD_rotateLeft]
  by_cases around : i < places % 9
  · have source : 9 - places % 9 + i = (i + 8 * places) % 9 := by omega
    rw [decide_eq_true around, cond_true, source]
  · have source : i - places % 9 = (i + 8 * places) % 9 := by omega
    rw [decide_eq_false around, cond_false, decide_eq_true inside, Bool.true_and, source]

theorem rotateLeft_rotateLeft (w : BitVec 9) (places more : Nat) :
    (w.rotateLeft places).rotateLeft more = w.rotateLeft (places + more) := by
  apply BitVec.eq_of_getLsbD_eq
  intro i inside
  have source : ((i + 8 * more) % 9 + 8 * places) % 9 = (i + 8 * (places + more)) % 9 := by omega
  rw [getLsbD_rotateLeft_of_lt _ _ inside, getLsbD_rotateLeft_of_lt _ _ (Nat.mod_lt _ (by decide)),
    getLsbD_rotateLeft_of_lt _ _ inside, source]

theorem rotateLeft_zero (w : BitVec 9) : w.rotateLeft 0 = w := by
  apply BitVec.eq_of_getLsbD_eq
  intro i inside
  rw [getLsbD_rotateLeft_of_lt _ _ inside, Nat.mul_zero, Nat.add_zero, Nat.mod_eq_of_lt inside]

/-- The places by which a ring shift turns the nine bits to the left. -/
def Direction.places : Direction → Nat
  | .left => 1
  | .right => 8

private theorem getLsbD_word (acc : Accumulator) (i : Nat) :
    acc.word.getLsbD i = if i = 8 then acc.df else acc.d.getLsbD i :=
  BitVec.getLsbD_cons ..

theorem word_shift_ring (direction : Direction) (acc : Accumulator) :
    (shift direction true acc).word = acc.word.rotateLeft direction.places := by
  apply BitVec.eq_of_getLsbD_eq
  intro i inside
  rw [getLsbD_rotateLeft_of_lt _ _ inside, getLsbD_word, getLsbD_word]
  cases direction with
  | left =>
    show (if i = 8 then acc.d.msb else ((acc.d.setWidth 7).concat acc.df).getLsbD i) = _
    cases i with
    | zero => exact BitVec.getLsbD_concat_zero
    | succ i =>
      have source : (i + 1 + 8 * 1) % 9 = i := by omega
      have below : i ≠ 8 := by omega
      rw [Direction.places, source, if_neg below, BitVec.getLsbD_concat_succ,
        BitVec.getLsbD_setWidth]
      by_cases top : i = 7
      · subst top
        rfl
      · rw [if_neg (by omega), decide_eq_true (by omega), Bool.true_and]
  | right =>
    show (if i = 8 then acc.d.getLsbD 0 else ((acc.d.extractLsb' 1 7).cons acc.df).getLsbD i) = _
    rw [BitVec.getLsbD_cons, BitVec.getLsbD_extractLsb', Direction.places]
    by_cases around : i = 8
    · subst around
      rfl
    · have source : (i + 8 * 8) % 9 = i + 1 := by omega
      rw [source, if_neg around]
      by_cases top : i = 7
      · subst top
        rfl
      · rw [if_neg top, if_neg (by omega), decide_eq_true (by omega), Bool.true_and, Nat.add_comm]

/-! ### Numbers of several bytes -/

private theorem toNat_shift_left (d : Byte) (df : Bool) :
    (shift .left true ⟨d, df⟩).d.toNat + 256 * (shift .left true ⟨d, df⟩).df.toNat =
      2 * d.toNat + df.toNat := by
  have := d.isLt
  have := df.toNat_le
  simp only [shift, Bool.true_and, BitVec.toNat_concat, BitVec.toNat_setWidth, BitVec.msb_eq_decide]
  by_cases top : 2 ^ 7 ≤ d.toNat
  · simp only [Nat.add_one_sub_one, top, decide_true, Bool.toNat_true]
    omega
  · simp only [Nat.add_one_sub_one, top, decide_false, Bool.toNat_false]
    omega

private theorem toNat_shift_right (d : Byte) (df : Bool) :
    2 * (shift .right true ⟨d, df⟩).d.toNat + (shift .right true ⟨d, df⟩).df.toNat =
      d.toNat + 256 * df.toNat := by
  have := d.isLt
  have := df.toNat_le
  simp only [shift, Bool.true_and, BitVec.toNat_cons', BitVec.extractLsb'_toNat, Nat.shiftLeft_eq,
    Nat.shiftRight_eq_div_pow, BitVec.getLsbD, Nat.testBit_zero]
  by_cases odd : d.toNat % 2 = 1
  · simp only [odd, decide_true, Bool.toNat_true]
    omega
  · simp only [odd, decide_false, Bool.toNat_false]
    omega

private theorem littleEndian_append (bytes more : List Byte) :
    littleEndian (bytes ++ more) = littleEndian bytes + 256 ^ bytes.length * littleEndian more := by
  rw [littleEndian, List.map_append, Nat.ofDigits_append, List.length_map]
  rfl

private theorem littleEndian_reverse_cons (byte : Byte) (bytes : List Byte) :
    littleEndian (byte :: bytes).reverse =
      littleEndian bytes.reverse + 256 ^ bytes.length * byte.toNat := by
  rw [List.reverse_cons, littleEndian_append, List.length_reverse, littleEndian_cons,
    littleEndian_nil, Nat.mul_zero, Nat.add_zero]

namespace Direction

def chain (direction : Direction) : Bool → Bool → List Byte → List Byte × Bool :=
  Alu.chain fun ring byte df => shift direction ring ⟨byte, df⟩

private theorem chain_plain (direction : Direction) (df : Bool) {bytes : List Byte}
    (nonempty : bytes ≠ []) :
    direction.chain false df bytes = direction.chain true false bytes := by
  obtain ⟨byte, rest, rfl⟩ := List.exists_cons_of_ne_nil nonempty
  cases direction <;> rfl

private theorem littleEndian_chain_left (df : Bool) (bytes : List Byte) :
    littleEndian (chain .left true df bytes).1 +
        256 ^ bytes.length * (chain .left true df bytes).2.toNat =
      2 * littleEndian bytes + df.toNat := by
  induction bytes generalizing df with
  | nil => simp [chain, Alu.chain]
  | cons byte bytes ih =>
    have lowest := toNat_shift_left byte df
    have higher := ih (shift .left true ⟨byte, df⟩).df
    simp only [chain, Alu.chain, littleEndian_cons, List.length_cons] at higher ⊢
    linear_combination lowest + 256 * higher

private theorem littleEndian_chain_right (df : Bool) (bytes : List Byte) :
    2 * littleEndian (chain .right true df bytes).1.reverse +
        (chain .right true df bytes).2.toNat =
      littleEndian bytes.reverse + 256 ^ bytes.length * df.toNat := by
  induction bytes generalizing df with
  | nil => simp [chain, Alu.chain]
  | cons byte bytes ih =>
    have highest := toNat_shift_right byte df
    have lower := ih (shift .right true ⟨byte, df⟩).df
    simp only [chain, Alu.chain, littleEndian_reverse_cons, List.length_cons, length_chain]
      at lower ⊢
    linear_combination 256 ^ bytes.length * highest + lower

/-- The bytes of a number in the order in which a row of shifts takes them. -/
def order (bytes : List Byte) : Direction → List Byte
  | .left => bytes
  | .right => bytes.reverse

def exact (k v : Nat) : Direction → Nat
  | .left => 2 * v % 256 ^ k
  | .right => v / 2

/-- Whether `DF` is left set: by a double that needs more than `k` bytes, or by a remainder. -/
def Sets (k v : Nat) : Direction → Prop
  | .left => 256 ^ k ≤ 2 * v
  | .right => v % 2 = 1

/-- Which byte of `k`, counted from the lowest, is taken as number `i`. -/
def place (k i : Nat) : Direction → Nat
  | .left => i
  | .right => k - 1 - i

instance (k v : Nat) (direction : Direction) : Decidable (direction.Sets k v) :=
  match direction with
  | .left => inferInstanceAs (Decidable (256 ^ k ≤ 2 * v))
  | .right => inferInstanceAs (Decidable (v % 2 = 1))

theorem length_order (direction : Direction) (bytes : List Byte) :
    (direction.order bytes).length = bytes.length := by
  cases direction with
  | left => rfl
  | right => exact List.length_reverse

theorem toNat_getElem_of_order (direction : Direction) {bytes : List Byte} {i : Nat}
    (inside : i < bytes.length) :
    bytes[i].toNat =
      littleEndian (direction.order bytes) / 256 ^ direction.place bytes.length i % 256 := by
  cases direction with
  | left => exact (littleEndian_div_mod bytes i inside).symm
  | right =>
    have place : bytes.length - 1 - i < bytes.reverse.length := by
      rw [List.length_reverse]
      omega
    have back : bytes.length - 1 - (bytes.length - 1 - i) = i := by omega
    have digit := littleEndian_div_mod bytes.reverse _ place
    simp only [List.getElem_reverse, back] at digit
    exact digit.symm

theorem chain_exact (direction : Direction) (df : Bool) {bytes : List Byte}
    (nonempty : bytes ≠ []) :
    littleEndian (direction.order (direction.chain false df (direction.order bytes)).1) =
        direction.exact bytes.length (littleEndian bytes) ∧
      ((direction.chain false df (direction.order bytes)).2 = true ↔
        direction.Sets bytes.length (littleEndian bytes)) := by
  have ordered : direction.order bytes ≠ [] := by
    rwa [← List.length_pos_iff, direction.length_order, List.length_pos_iff]
  rw [direction.chain_plain df ordered]
  cases direction with
  | left =>
    have doubled := littleEndian_chain_left false bytes
    have bound := littleEndian_lt (chain .left true false bytes).1
    have length : (chain .left true false bytes).1.length = bytes.length := length_chain ..
    rw [length] at bound
    simp only [order, exact, Sets, Bool.toNat_false, Nat.add_zero] at doubled ⊢
    rw [← doubled]
    -- Above the bytes is one bit, and the bytes are below the power.
    cases (chain .left true false bytes).2 with
    | false =>
      simp only [Bool.toNat_false, Nat.mul_zero, Nat.add_zero, Bool.false_eq_true, false_iff]
      exact ⟨(Nat.mod_eq_of_lt bound).symm, Nat.not_le.mpr bound⟩
    | true =>
      simp only [Bool.toNat_true, Nat.mul_one, Nat.add_mod_right, true_iff]
      exact ⟨(Nat.mod_eq_of_lt bound).symm, Nat.le_add_left _ _⟩
  | right =>
    have halved := littleEndian_chain_right false bytes.reverse
    rw [List.reverse_reverse, Bool.toNat_false, Nat.mul_zero, Nat.add_zero] at halved
    have remainder := (chain .right true false bytes.reverse).2.toNat_le
    simp only [order, exact, Sets]
    refine ⟨by omega, ?_⟩
    rw [← Bool.toNat_eq_one]
    omega

end Direction

end Alu

end Cosmac
