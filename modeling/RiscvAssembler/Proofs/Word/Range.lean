import Mathlib.Data.Int.ModEq
import RiscvAssembler.Proofs.Word.Immediate

/-!
What immediates a layout can hold. A layout read the other way round, with word and immediate
exchanged, is a layout again (`Immediate.flip`), so what is known of encoding holds of decoding too:
encoding restores the bits that were decoded (`Gapless.encode_extract`). The bits carried leave no
gaps, so the values of a layout are the multiples of its lowest bit in a range (`Immediate.Holds`).
These are the values that decoding gives and the only ones that fit (`Gapless.fits_iff`).
-/

namespace RiscvAssembler

/-- A signed number and the number that its bits make up differ by a multiple of the modulus. -/
theorem toInt_modEq_toNat {n : Nat} (x : BitVec n) : x.toInt ≡ x.toNat [ZMOD 2 ^ n] := by
  have hmod := Int.bmod_emod (x := x.toNat) (m := 2 ^ n)
  rw [← BitVec.toInt_eq_toNat_bmod] at hmod
  push_cast at hmod
  exact hmod

/-- A value has no low bits if it is a multiple of the power of two above them. -/
theorem extractLsb'_eq_zero_iff {k : Nat} (hk : k ≤ 64) (v : Int64) :
    v.toBitVec.extractLsb' 0 k = 0#k ↔ 2 ^ k ∣ v.toInt := by
  have hmod : v.toInt ≡ v.toBitVec.toNat [ZMOD 2 ^ k] := by
    rw [← Int64.toInt_toBitVec]
    exact (toInt_modEq_toNat _).of_dvd (pow_dvd_pow 2 hk)
  rw [hmod.dvd_iff, ← BitVec.toNat_inj, ← BitVec.setWidth_eq_extractLsb' hk, BitVec.toNat_setWidth,
    BitVec.toNat_zero, ← Nat.dvd_iff_mod_eq_zero]
  exact_mod_cast Iff.rfl

/-! ### Layouts the other way round -/

/-- The run with word and immediate exchanged. -/
def Segment.flip (s : Segment) : Segment :=
  ⟨s.wordBit, s.width, s.immBit⟩

namespace Immediate

/-- The layout with word and immediate exchanged: it encodes what the layout decodes. -/
def flip (l : Immediate) : Immediate :=
  ⟨l.segments.map Segment.flip, l.signed⟩

theorem encode_flip (l : Immediate) (v : Int64) : l.flip.encode v = l.raw v.toBitVec := by
  rw [encode, flip, List.foldr_map]
  rfl

theorem raw_flip (l : Immediate) (w : Word) : l.flip.raw w = l.encode (Int64.ofBitVec w) := by
  rw [raw, flip, List.foldr_map]
  rfl

theorem mask_flip (l : Immediate) : l.flip.mask = l.carried := by
  rw [mask, flip, List.foldr_map]
  rfl

theorem carried_flip (l : Immediate) : l.flip.carried = l.mask := by
  rw [carried, flip, List.foldr_map]
  rfl

/-- Encoding undoes decoding on the bits that a layout takes up. -/
theorem encode_raw {l : Immediate} (h : l.flip.Consistent) (w : Word) :
    l.encode (Int64.ofBitVec (l.raw w)) = w &&& l.mask := by
  have hflip := raw_encode h (Int64.ofBitVec w)
  rwa [encode_flip, raw_flip, carried_flip] at hflip

/-- Decoding gives no bits but those that a layout carries. -/
theorem raw_and_carried (l : Immediate) (w : Word) : l.raw w &&& l.carried = l.raw w := by
  have hflip := l.flip.encode_and_mask (Int64.ofBitVec w)
  rwa [encode_flip, mask_flip] at hflip

/-! ### Layouts without gaps -/

/-- The lowest immediate bit carried. -/
def low (l : Immediate) : Nat :=
  l.segments.foldr (fun s acc => min s.immBit acc) l.width

/-- A layout that carries every bit from `low` up to `width`, each at one place of the word. -/
structure Gapless (l : Immediate) : Prop where
  consistent : l.Consistent
  consistent_flip : l.flip.Consistent
  carried : l.carried = Word.lowMask l.width &&& ~~~Word.lowMask l.low
  low_le : l.low ≤ l.width
  width_pos : 0 < l.width
  width_lt : l.width < 64

instance (l : Immediate) : Decidable l.Gapless :=
  decidable_of_iff
    (l.Consistent ∧ l.flip.Consistent ∧
      l.carried = Word.lowMask l.width &&& ~~~Word.lowMask l.low ∧ l.low ≤ l.width ∧
      0 < l.width ∧ l.width < 64)
    ⟨fun ⟨h₁, h₂, h₃, h₄, h₅, h₆⟩ => ⟨h₁, h₂, h₃, h₄, h₅, h₆⟩,
      fun ⟨h₁, h₂, h₃, h₄, h₅, h₆⟩ => ⟨h₁, h₂, h₃, h₄, h₅, h₆⟩⟩

/-- The values that a layout stands for: multiples of its lowest bit, about zero if it is signed and
from zero on if not. -/
def Holds (l : Immediate) (x : Int) : Prop :=
  2 ^ l.low ∣ x ∧
    if l.signed then -2 ^ (l.width - 1) ≤ x ∧ x < 2 ^ (l.width - 1) else 0 ≤ x ∧ x < 2 ^ l.width

variable {l : Immediate}

/-- Values that a layout stands for are told apart by their low bits. -/
theorem Holds.eq_of_modEq {x y : Int} (hx : l.Holds x) (hy : l.Holds y) (hwidth : 0 < l.width)
    (h : x ≡ y [ZMOD 2 ^ l.width]) : x = y := by
  have hpow : (2 : Int) ^ l.width = 2 ^ (l.width - 1) * 2 := by
    rw [← pow_succ, Nat.sub_add_cancel hwidth]
  have hrange : -2 ^ l.width < y - x ∧ y - x < 2 ^ l.width := by
    obtain ⟨-, hx⟩ := hx
    obtain ⟨-, hy⟩ := hy
    split at hx <;> rename_i hsigned
    · rw [if_pos hsigned] at hy
      omega
    · rw [if_neg hsigned] at hy
      omega
  have hzero : y - x = 0 := Int.eq_zero_of_abs_lt_dvd h.dvd (abs_lt.2 hrange)
  omega

namespace Gapless

theorem getLsbD_carried (h : l.Gapless) (i : Nat) :
    l.carried.getLsbD i = (decide (l.low ≤ i) && decide (i < l.width)) := by
  have hwidth := h.width_lt
  rw [h.carried, BitVec.getLsbD_and, BitVec.getLsbD_not, Word.getLsbD_lowMask,
    Word.getLsbD_lowMask]
  grind

/-- The bits that a layout carries are a number with its high and its low bits cleared. -/
theorem toNat_and_carried (h : l.Gapless) (w : Word) :
    (w &&& l.carried).toNat = w.toNat % 2 ^ l.width / 2 ^ l.low * 2 ^ l.low := by
  rw [← Nat.shiftRight_eq_div_pow, ← Nat.shiftLeft_eq]
  apply Nat.eq_of_testBit_eq
  intro i
  rw [Nat.testBit_shiftLeft, Nat.testBit_shiftRight, Nat.testBit_mod_two_pow,
    ← BitVec.getLsbD, BitVec.getLsbD_and, h.getLsbD_carried, ← BitVec.getLsbD]
  by_cases hlow : l.low ≤ i
  · simp [hlow, Bool.and_comm]
  · simp [hlow]

/-! ### Words -/

/-- Only the bits that a layout carries count for encoding. -/
theorem encode_and_carried (h : l.Gapless) (v : Int64) :
    l.encode (Int64.ofBitVec (v.toBitVec &&& l.carried)) = l.encode v := by
  rw [← raw_encode h.consistent, encode_raw h.consistent_flip, encode_and_mask]

/-- The bits of a decoded value that count for encoding. -/
theorem extract_and_carried (h : l.Gapless) (w : Word) :
    (l.extract w).toBitVec &&& l.carried = l.raw w := by
  rw [← raw_and_carried]
  apply and_eq_and_of_getLsbD
  intro i hi
  rw [h.getLsbD_carried, Bool.and_eq_true, decide_eq_true_eq, decide_eq_true_eq] at hi
  have hwidth := h.width_lt
  unfold extract
  split
  · have hword : i < 64 := by omega
    rw [Int64.toBitVec_ofBitVec, BitVec.getLsbD_signExtend, BitVec.getLsbD_setWidth]
    simp [hi.2, hword]
  · rfl

/-- **Encoding undoes decoding**: it restores the bits that a layout takes up. -/
theorem encode_extract (h : l.Gapless) (w : Word) : l.encode (l.extract w) = w &&& l.mask := by
  rw [← h.encode_and_carried, h.extract_and_carried, encode_raw h.consistent_flip]

/-! ### Values -/

/-- A decoded value and the number that its bits make up differ in bits above the layout only. -/
theorem toInt_extract_modEq (h : l.Gapless) (w : Word) :
    (l.extract w).toInt ≡ (l.raw w).toNat [ZMOD 2 ^ l.width] := by
  have hwidth := h.width_lt
  unfold extract
  split
  · rw [Int64.toInt_ofBitVec, BitVec.toInt_signExtend_of_le (by omega)]
    refine (toInt_modEq_toNat _).trans ?_
    rw [BitVec.toNat_setWidth]
    push_cast
    exact Int.mod_modEq _ _
  · rw [Int64.toInt_ofBitVec]
    exact (toInt_modEq_toNat _).of_dvd (pow_dvd_pow 2 (by omega))

theorem toNat_raw (h : l.Gapless) (w : Word) :
    2 ^ l.low ∣ (l.raw w).toNat ∧ (l.raw w).toNat < 2 ^ l.width := by
  have hraw := h.toNat_and_carried (l.raw w)
  rw [raw_and_carried] at hraw
  constructor
  · rw [hraw]
    exact Nat.dvd_mul_left _ _
  · have hmod : (l.raw w).toNat % 2 ^ l.width < 2 ^ l.width := Nat.mod_lt _ (Nat.two_pow_pos _)
    have hdiv := Nat.div_mul_le_self ((l.raw w).toNat % 2 ^ l.width) (2 ^ l.low)
    omega

/-- **Decoding gives values of the layout only.** -/
theorem holds_extract (h : l.Gapless) (w : Word) : l.Holds (l.extract w).toInt := by
  have hwidth := h.width_lt
  obtain ⟨hdvd, hlt⟩ := h.toNat_raw w
  have hmod := (h.toInt_extract_modEq w).of_dvd (pow_dvd_pow 2 h.low_le)
  refine ⟨hmod.dvd_iff.2 (by exact_mod_cast hdvd), ?_⟩
  unfold extract
  split
  · rw [Int64.toInt_ofBitVec, BitVec.toInt_signExtend_of_le (by omega)]
    exact ⟨BitVec.le_toInt _, BitVec.toInt_lt⟩
  · have hword : 2 ^ l.width ≤ 2 ^ 63 := Nat.pow_le_pow_right (by decide) (by omega)
    rw [Int64.toInt_ofBitVec, BitVec.toInt_eq_toNat_of_lt (by omega)]
    exact ⟨by omega, by exact_mod_cast hlt⟩

/-- Encoding and decoding change a value by its bits below the layout and above it. -/
theorem extract_encode_modEq (h : l.Gapless) (v : Int64) :
    (l.extract (l.encode v)).toInt ≡ v.toInt - v.toInt % 2 ^ l.low [ZMOD 2 ^ l.width] := by
  have hwidth := h.width_lt
  have hvalue : v.toInt ≡ v.toBitVec.toNat [ZMOD 2 ^ 64] := by
    rw [← Int64.toInt_toBitVec]
    exact toInt_modEq_toNat _
  have hhigh : (v.toBitVec.toNat : Int) % 2 ^ l.width ≡ v.toInt [ZMOD 2 ^ l.width] :=
    (Int.mod_modEq _ _).trans (hvalue.of_dvd (pow_dvd_pow 2 (by omega))).symm
  have hlow : (v.toBitVec.toNat : Int) % 2 ^ l.width % 2 ^ l.low = v.toInt % 2 ^ l.low :=
    hhigh.of_dvd (pow_dvd_pow 2 h.low_le)
  have hcleared := eq_sub_of_add_eq' (Int.emod_add_mul_ediv
    ((v.toBitVec.toNat : Int) % 2 ^ l.width) (2 ^ l.low))
  refine (h.toInt_extract_modEq _).trans ?_
  rw [raw_encode h.consistent, h.toNat_and_carried]
  push_cast
  rw [mul_comm, hcleared, hlow]
  exact hhigh.sub_right _

/-- **What a value becomes** when it is encoded and decoded: the value of the layout that agrees
with it on all bits that the layout carries. -/
theorem toInt_extract_encode_iff (h : l.Gapless) (v : Int64) (x : Int) :
    (l.extract (l.encode v)).toInt = x ↔
      l.Holds x ∧ x ≡ v.toInt - v.toInt % 2 ^ l.low [ZMOD 2 ^ l.width] := by
  constructor
  · rintro rfl
    exact ⟨h.holds_extract _, h.extract_encode_modEq v⟩
  · rintro ⟨hx, hmod⟩
    exact (h.holds_extract _).eq_of_modEq hx h.width_pos
      ((h.extract_encode_modEq v).trans hmod.symm)

/-- **A value fits** exactly if it is one that the layout stands for. -/
theorem fits_iff (h : l.Gapless) (v : Int64) : l.fits v = true ↔ l.Holds v.toInt := by
  rw [fits, beq_iff_eq, ← Int64.toInt_inj, h.toInt_extract_encode_iff]
  refine ⟨And.left, fun hv => ⟨hv, ?_⟩⟩
  rw [Int.emod_eq_zero_of_dvd hv.1, sub_zero]

/-- A value that fits a layout of eleven bits lies in the range of twelve-bit immediates. -/
theorem range_of_fits (h : l.Gapless) (hwidth : l.width ≤ 11) {v : Int64} (hv : l.fits v = true) :
    -2048 ≤ v ∧ v ≤ 2047 := by
  have hlow : (2 : Int) ^ (l.width - 1) ≤ 2 ^ 11 := pow_le_pow_right₀ (by decide) (by omega)
  have hhigh : (2 : Int) ^ l.width ≤ 2 ^ 11 := pow_le_pow_right₀ (by decide) hwidth
  have hrange : -2048 ≤ v.toInt ∧ v.toInt ≤ 2047 := by
    obtain ⟨-, hrange⟩ := (h.fits_iff v).1 hv
    split at hrange <;> omega
  rw [Int64.le_iff_toInt_le, Int64.le_iff_toInt_le]
  exact hrange

end Gapless

/-! ### The layouts of the instruction formats -/

/-- Every layout. -/
def all : List Immediate :=
  [.i, .s, .b, .u, .j, .ci, .cSigned3, .cUnsigned8, .cAddi4spn, .cAddi16sp, .cLw, .cLd, .cLwsp,
    .cLdsp, .cSwsp, .cSdsp, .cBranch, .cJump]

theorem gapless_of_mem (h : l ∈ all) : l.Gapless := by
  have hall : ∀ l ∈ all, l.Gapless := by decide
  exact hall l h

/-- **Immediates are encoded and decoded exactly.** In each layout, for every value and every word:
encoding restores the bits that were decoded, and sets no bits but those of the layout; decoding
gives the one value of the layout that agrees with the value encoded, its bits below the layout
cleared, on the bits up to the highest one carried; and the values that fit are those of the
layout. -/
theorem immediates_code_exactly (hl : l ∈ all) (v : Int64) (w : Word) :
    l.encode (l.extract w) = w &&& l.mask ∧
    l.encode v &&& ~~~l.mask = 0 ∧
    (∀ x : Int, (l.extract (l.encode v)).toInt = x ↔
      l.Holds x ∧ x ≡ v.toInt - v.toInt % 2 ^ l.low [ZMOD 2 ^ l.width]) ∧
    (l.fits v = true ↔ l.Holds v.toInt) := by
  have hgapless := gapless_of_mem hl
  exact ⟨hgapless.encode_extract w, l.encode_and_not_mask v, hgapless.toInt_extract_encode_iff v,
    hgapless.fits_iff v⟩

/-- An odd value beyond the range of compressed jumps. -/
theorem immediates_code_exactly_cJump :
    cJump ∈ all ∧ cJump.encode (cJump.extract 0xffff) = 0xffff &&& cJump.mask ∧
      cJump.encode 6147 &&& ~~~cJump.mask = 0 ∧ cJump.Holds (-2046) ∧
      (-2046) ≡ 6147 - 6147 % 2 ^ cJump.low [ZMOD 2 ^ cJump.width] ∧ ¬cJump.Holds 6147 := by
  have hmem : cJump ∈ all := by decide
  obtain ⟨hword, hmask, hvalue, hfits⟩ := immediates_code_exactly hmem 6147 0xffff
  obtain ⟨hholds, hmod⟩ := (hvalue (-2046)).1 (by decide)
  exact ⟨hmem, hword, hmask, hholds, hmod, fun h => absurd (hfits.2 h) (by decide)⟩

end Immediate

end RiscvAssembler
