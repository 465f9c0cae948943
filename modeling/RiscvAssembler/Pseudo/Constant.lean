import RiscvAssembler.Isa.Basic
import RiscvAssembler.Text.Numeral
import RiscvAssembler.Word.Basic

/-!
Loading of constants. A constant of 32 bits takes an upper and a low part; a wider one is the
constant of its upper bits, shifted, plus its low part. The low part is the low twelve bits as a
signed number, so the upper bits are rounded to the nearest multiple and each step leaves at least
twelve bits fewer.
-/

namespace RiscvAssembler

/-- An instruction that loads part of a constant. -/
inductive ConstantStep where
  /-- The upper twenty of 32 bits. -/
  | lui (rd upper : Nat)
  | addi (rd rs : Nat) (imm : Int64)
  /-- Addition of 32-bit values. -/
  | addiw (rd rs : Nat) (imm : Int64)
  | slli (rd rs amount : Nat)
deriving DecidableEq, Repr

namespace ConstantStep

/-- The mnemonic of a step. -/
def mnemonic : ConstantStep → String
  | .lui .. => "lui"
  | .addi .. => "addi"
  | .addiw .. => "addiw"
  | .slli .. => "slli"

/-- The operand text of two registers and a number. -/
def threeOperands (rd rs : Nat) (n : Int) : List Char :=
  'x' :: Text.decimal rd ++ ", x".toList ++ Text.decimal rs ++ ", ".toList ++ Text.decimal n

/-- The operand text of a step. -/
def operands : ConstantStep → List Char
  | .lui rd upper => 'x' :: Text.decimal rd ++ ", ".toList ++ Text.decimal upper
  | .addi rd rs imm => threeOperands rd rs imm.toInt
  | .addiw rd rs imm => threeOperands rd rs imm.toInt
  | .slli rd rs amount => threeOperands rd rs amount

end ConstantStep

/-! ### Parts of a constant -/

/-- The low twelve bits, as a signed number. -/
def lowPart (value : Int64) : Int64 :=
  Int64.ofBitVec ((value.toBitVec.setWidth 12).signExtend 64)

/-- What is left of a constant without its low part. -/
def upperPart (value : Int64) : Int64 :=
  value - lowPart value

/-- Whether 32 bits hold a constant as a signed number. -/
def fits32 (value : Int64) : Bool :=
  -0x80000000 ≤ value && value ≤ 0x7fffffff

/-- The lowest bit from 12 on that is set; 63 if none is. -/
def lowestUpperBit (upper : Int64) : Nat :=
  ((List.range' 12 51).find? fun i => upper.toBitVec.getLsbD i).getD 63

/-- The upper bits of a constant, without the zeros below them. -/
def significantPart (value : Int64) : Int64 :=
  let upper := upperPart value
  Int64.ofBitVec (upper.toBitVec.sshiftRight (lowestUpperBit upper))

theorem twelve_le_lowestUpperBit (upper : Int64) : 12 ≤ lowestUpperBit upper := by
  unfold lowestUpperBit
  cases h : (List.range' 12 51).find? fun i => upper.toBitVec.getLsbD i with
  | none => simp
  | some i =>
    have := List.mem_of_find?_eq_some h
    simp only [List.mem_range'_1] at this
    simpa using this.1

theorem toInt_lowPart_bounds (value : Int64) :
    -2048 ≤ (lowPart value).toInt ∧ (lowPart value).toInt < 2048 := by
  have low : (lowPart value).toInt = (value.toBitVec.setWidth 12).toInt := by
    rw [lowPart, Int64.toInt_ofBitVec, BitVec.toInt_signExtend_of_le (by decide)]
  have below := BitVec.toInt_lt (x := value.toBitVec.setWidth 12)
  have above := BitVec.le_toInt (value.toBitVec.setWidth 12)
  simp only [Nat.reduceSub, Int.reducePow, Int.reduceNeg] at below above
  omega

theorem natAbs_upperPart_le (value : Int64) :
    (upperPart value).toInt.natAbs ≤ value.toInt.natAbs + 2048 := by
  have low := toInt_lowPart_bounds value
  have above := value.le_toInt
  have below := value.toInt_lt
  rw [upperPart, Int64.toInt_sub, Int.bmod_def]
  split <;> omega

theorem natAbs_significantPart_le (value : Int64) :
    (significantPart value).toInt.natAbs ≤ ((upperPart value).toInt / 4096).natAbs := by
  have split : 2 ^ lowestUpperBit (upperPart value) =
      4096 * 2 ^ (lowestUpperBit (upperPart value) - 12) := by
    rw [show 4096 = 2 ^ 12 from rfl, ← Nat.pow_add,
      Nat.add_sub_cancel' (twelve_le_lowestUpperBit _)]
  rw [significantPart, Int64.toInt_ofBitVec, BitVec.toInt_sshiftRight, Int64.toInt_toBitVec,
    Int.shiftRight_eq_div_pow, split, Int.natCast_mul, ← Int.ediv_ediv_of_nonneg (by decide)]
  exact Int.natAbs_ediv_le_natAbs _ _

theorem natAbs_significantPart_lt {value : Int64} (h : fits32 value = false) :
    (significantPart value).toInt.natAbs < value.toInt.natAbs := by
  have upper := natAbs_upperPart_le value
  have shrink := natAbs_significantPart_le value
  have wide : value.toInt < -0x80000000 ∨ 0x7fffffff < value.toInt := by
    simp only [fits32, Bool.and_eq_false_iff, decide_eq_false_iff_not, Int64.le_iff_toInt_le] at h
    have low : (-0x80000000 : Int64).toInt = -0x80000000 := by decide
    have high : (0x7fffffff : Int64).toInt = 0x7fffffff := by decide
    omega
  omega

/-! ### Sequences -/

/-- The instructions that load a constant of 32 bits. -/
def loadNarrow (xlen : Xlen) (reg : Nat) (value : Int64) : List ConstantStep :=
  let low := lowPart value
  let upper := upperPart value
  let source := if upper = 0 then 0 else reg
  let load := if upper = 0 then [] else [.lui reg (upper.toBitVec.extractLsb' 12 20).toNat]
  let add :=
    if low = 0 ∧ source ≠ 0 then []
    else
      match xlen with
      | .rv32 => [.addi reg source low]
      | .rv64 => [.addiw reg source low]
  load ++ add

/-- The instructions that load a constant into a register. -/
def loadConstant (xlen : Xlen) (reg : Nat) (value : Int64) : List ConstantStep :=
  if h : xlen = .rv64 ∧ fits32 value = false then
    let low := lowPart value
    loadConstant xlen reg (significantPart value) ++
      .slli reg reg (lowestUpperBit (upperPart value)) ::
        (if low = 0 then [] else [.addi reg reg low])
  else loadNarrow xlen reg value
termination_by value.toInt.natAbs
decreasing_by exact natAbs_significantPart_lt h.2

end RiscvAssembler
