import Mathlib.Data.List.Basic
import RiscvAssembler.Proofs.Word.Slice
import RiscvAssembler.Template.Basic

/-!
Which templates are valid. Validity is a matter of single bits: those that are set, those that the
mask fixes, those that operands own and those that the word has (`validate_eq_ok_iff` and its
companions give the outcomes as equations of words, `eq_iff_getLsbD` takes these apart). A template
is accepted exactly if its bits within the word are consistent; set bits beyond the word are not
looked at (`stray_bit_is_accepted`).
-/

namespace RiscvAssembler

/-- Words are equal exactly if the same bits are set. -/
theorem eq_iff_getLsbD {v w : Word} :
    v = w ↔ ∀ i, v.getLsbD i = true ↔ w.getLsbD i = true := by
  constructor
  · rintro rfl i
    rfl
  · intro h
    apply BitVec.eq_of_getLsbD_eq
    intro i _
    exact Bool.eq_iff_iff.2 (h i)

namespace Template

variable {t : Template} {length : Option Nat} {n : Nat}

/-! ### Bits -/

/-- Whether an operand of the template owns a bit. -/
def Owns (t : Template) (i : Nat) : Prop :=
  ∃ op ∈ t.operands, op.bits.getLsbD i = true

/-- Whether the mask or an operand of the template accounts for a bit. -/
def Covers (t : Template) (i : Nat) : Prop :=
  t.maskBits.getLsbD i = true ∨ t.Owns i

theorem getLsbD_operandBits {ops : List Operand} {i : Nat} :
    (operandBits ops).getLsbD i = true ↔ ∃ op ∈ ops, op.bits.getLsbD i = true := by
  induction ops with
  | nil => simp [operandBits]
  | cons op ops ih =>
    rw [operandBits, List.foldr_cons, BitVec.getLsbD_or, Bool.or_eq_true, List.exists_mem_cons_iff]
    exact or_congr_right ih

theorem getLsbD_wordBits (hn : n ≤ 8) {i : Nat} :
    (wordBits n).getLsbD i = true ↔ i < 8 * n := by
  rw [wordBits, bitWidth, Word.getLsbD_lowMask]
  simp only [Bool.and_eq_true, decide_eq_true_eq]
  omega

/-- Operands own no bit of a word together exactly if none of them does. -/
theorem operandBits_and_eq_zero_iff {ops : List Operand} {w : Word} :
    operandBits ops &&& w = 0 ↔ ∀ op ∈ ops, op.bits &&& w = 0 := by
  simp only [eq_iff_getLsbD, BitVec.getLsbD_and, Bool.and_eq_true, getLsbD_operandBits]
  constructor
  · intro h op hop i
    simpa using fun hbit hw => (h i).1 ⟨⟨op, hop, hbit⟩, hw⟩
  · intro h i
    simpa using fun op hop hbit hw => (h op hop i).1 ⟨hbit, hw⟩

/-! ### Outcomes of the check -/

/-- What is checked of a template that is no pseudo-instruction. -/
theorem validate_eq_ok_iff (hreal : t.isPseudo = false)
    (hlength : length.getD (instructionLength t.matchBits) = n) :
    t.validate length = .ok () ↔
      t.maskBits &&& t.matchBits = t.matchBits &&& wordBits n ∧
        operandBits t.operands &&& t.maskBits = 0 ∧
        t.maskBits ||| operandBits t.operands = wordBits n := by
  unfold validate
  rw [hreal, hlength]
  grind

theorem validate_eq_fixedOperand_iff (hreal : t.isPseudo = false)
    (hlength : length.getD (instructionLength t.matchBits) = n) {mnemonic format : String}
    {overlap : Word} :
    t.validate length = .error (.fixedOperand mnemonic format overlap) ↔
      mnemonic = t.mnemonic ∧ format = t.format ∧
        t.maskBits &&& t.matchBits = t.matchBits &&& wordBits n ∧
        overlap ≠ 0 ∧ overlap = operandBits t.operands &&& t.maskBits := by
  unfold validate
  rw [hreal, hlength]
  grind

theorem validate_eq_uncoveredBits_iff (hreal : t.isPseudo = false)
    (hlength : length.getD (instructionLength t.matchBits) = n) {mnemonic format : String}
    {missing : Word} :
    t.validate length = .error (.uncoveredBits mnemonic format missing) ↔
      mnemonic = t.mnemonic ∧ format = t.format ∧
        t.maskBits &&& t.matchBits = t.matchBits &&& wordBits n ∧
        operandBits t.operands &&& t.maskBits = 0 ∧
        missing ≠ 0 ∧ missing = (t.maskBits ||| operandBits t.operands) ^^^ wordBits n := by
  unfold validate
  rw [hreal, hlength]
  grind [BitVec.xor_eq_zero_iff]

/-! ### Outcomes by their bits -/

/-- Of the bits that are set, the mask fixes those of a word of `n` bytes and no others. -/
def FixesSetBits (t : Template) (n : Nat) : Prop :=
  ∀ i, t.matchBits.getLsbD i = true → (t.maskBits.getLsbD i = true ↔ i < 8 * n)

theorem fixesSetBits_iff (hn : n ≤ 8) :
    t.maskBits &&& t.matchBits = t.matchBits &&& wordBits n ↔ t.FixesSetBits n := by
  simp only [eq_iff_getLsbD, BitVec.getLsbD_and, Bool.and_eq_true, getLsbD_wordBits hn]
  refine forall_congr' fun i => ?_
  tauto

theorem covers_iff_lt_iff (hn : n ≤ 8) :
    t.maskBits ||| operandBits t.operands = wordBits n ↔ ∀ i, t.Covers i ↔ i < 8 * n := by
  simp only [eq_iff_getLsbD, BitVec.getLsbD_or, Bool.or_eq_true, getLsbD_operandBits,
    getLsbD_wordBits hn]
  rfl

/-- What makes the bits of a template of `n` bytes consistent. -/
structure Consistent (t : Template) (n : Nat) : Prop where
  /-- Every bit that is set is fixed. -/
  fixed : t.matchBits &&& t.maskBits = t.matchBits
  /-- No operand owns a fixed bit. -/
  apart : ∀ op ∈ t.operands, op.bits &&& t.maskBits = 0
  /-- The mask and the operands make up the word. -/
  covered : ∀ i, t.Covers i ↔ i < 8 * n

/-- A template is consistent exactly if it is accepted and no bit is set beyond its word. -/
theorem consistent_iff_validate (hreal : t.isPseudo = false)
    (hlength : length.getD (instructionLength t.matchBits) = n) (hn : n ≤ 8) :
    t.Consistent n ↔
      t.validate length = .ok () ∧ ∀ i, t.matchBits.getLsbD i = true → i < 8 * n := by
  rw [validate_eq_ok_iff hreal hlength, fixesSetBits_iff hn, operandBits_and_eq_zero_iff,
    covers_iff_lt_iff hn]
  constructor
  · rintro ⟨hfixed, hapart, hcovered⟩
    simp only [eq_iff_getLsbD, BitVec.getLsbD_and, Bool.and_eq_true, and_iff_left_iff_imp] at hfixed
    have hwithin : ∀ i, t.matchBits.getLsbD i = true → i < 8 * n := fun i hi =>
      (hcovered i).1 (.inl (hfixed i hi))
    exact ⟨⟨fun i hi => iff_of_true (hfixed i hi) (hwithin i hi), hapart, hcovered⟩, hwithin⟩
  · rintro ⟨⟨hfixes, hapart, hcovered⟩, hwithin⟩
    refine ⟨?_, hapart, hcovered⟩
    simp only [eq_iff_getLsbD, BitVec.getLsbD_and, Bool.and_eq_true, and_iff_left_iff_imp]
    exact fun i hi => (hfixes i hi).2 (hwithin i hi)

/-- The template without the set bits beyond a word of `n` bytes. -/
def within (t : Template) (n : Nat) : Template :=
  { t with matchBits := t.matchBits &&& Word.lowMask (8 * n) }

theorem getLsbD_within (hn : n ≤ 8) {i : Nat} :
    (t.within n).matchBits.getLsbD i = true ↔ t.matchBits.getLsbD i = true ∧ i < 8 * n := by
  rw [within, BitVec.getLsbD_and, Word.getLsbD_lowMask, Bool.and_eq_true, Bool.and_eq_true,
    decide_eq_true_eq, decide_eq_true_eq]
  exact and_congr_right fun _ => and_iff_right_of_imp fun hi => by omega

/-- The check looks at the set bits of the word only. -/
theorem validate_eq_ok_iff_within (hreal : t.isPseudo = false)
    (hlength : length.getD (instructionLength t.matchBits) = n) (hn : n ≤ 8) :
    t.validate length = .ok () ↔ (t.within n).Consistent n := by
  have hfixed : (t.within n).matchBits &&& t.maskBits = (t.within n).matchBits ↔
      ∀ i, t.matchBits.getLsbD i = true → i < 8 * n → t.maskBits.getLsbD i = true := by
    simp only [eq_iff_getLsbD, BitVec.getLsbD_and, Bool.and_eq_true, and_iff_left_iff_imp,
      getLsbD_within hn, and_imp]
  rw [validate_eq_ok_iff hreal hlength, fixesSetBits_iff hn, operandBits_and_eq_zero_iff,
    covers_iff_lt_iff hn]
  constructor
  · rintro ⟨hfixes, hapart, hcovered⟩
    exact ⟨hfixed.2 fun i hi hlt => (hfixes i hi).2 hlt, hapart, hcovered⟩
  · rintro ⟨hset, hapart, hcovered⟩
    refine ⟨fun i hi => ⟨fun hmask => ?_, hfixed.1 hset i hi⟩, hapart, hcovered⟩
    exact (hcovered i).1 (.inl hmask)

/-- The bits that operands share with the mask. -/
theorem eq_overlap_iff {overlap : Word} :
    overlap = operandBits t.operands &&& t.maskBits ↔
      ∀ i, overlap.getLsbD i = true ↔ t.maskBits.getLsbD i = true ∧ t.Owns i := by
  simp only [eq_iff_getLsbD, BitVec.getLsbD_and, Bool.and_eq_true, getLsbD_operandBits,
    and_comm (a := t.maskBits.getLsbD _ = true)]
  rfl

/-- The bits in which what is covered differs from the word. -/
theorem eq_missing_iff (hn : n ≤ 8) {missing : Word} :
    missing = (t.maskBits ||| operandBits t.operands) ^^^ wordBits n ↔
      ∀ i, missing.getLsbD i = true ↔
        (i < 8 * n ∧ ¬ t.Covers i) ∨ (8 * n ≤ i ∧ t.Covers i) := by
  have hbit : ∀ i, ((t.maskBits ||| operandBits t.operands) ^^^ wordBits n).getLsbD i = true ↔
      ¬ (t.Covers i ↔ i < 8 * n) := by
    intro i
    rw [BitVec.getLsbD_xor, Bool.xor_iff_ne, ne_eq, Bool.eq_iff_iff, BitVec.getLsbD_or,
      Bool.or_eq_true, getLsbD_operandBits, getLsbD_wordBits hn]
    rfl
  rw [eq_iff_getLsbD]
  refine forall_congr' fun i => ?_
  rw [hbit]
  by_cases hi : i < 8 * n
  · simp [hi, Nat.not_le_of_lt hi]
  · simp [hi, Nat.le_of_not_lt hi]

/-- **The check of a template decides on its bits.** A template of two, four, six or eight bytes is
accepted exactly if it is consistent once its set bits beyond the word are left out; so it is
consistent as it stands exactly if it is accepted and has no such bits. If operands are reported to
lie under the mask, the bits are those that both claim. If the word is reported not to be covered,
the bits are those that are missing from the word and those that go beyond it. -/
theorem validate_decides_on_bits (hreal : t.isPseudo = false)
    (hlength : length.getD (instructionLength t.matchBits) = n) (hn : n ∈ [2, 4, 6, 8]) :
    (t.validate length = .ok () ↔ (t.within n).Consistent n) ∧
    (t.Consistent n ↔
      t.validate length = .ok () ∧ ∀ i, t.matchBits.getLsbD i = true → i < 8 * n) ∧
    (∀ mnemonic format overlap,
      t.validate length = .error (.fixedOperand mnemonic format overlap) ↔
        mnemonic = t.mnemonic ∧ format = t.format ∧ t.FixesSetBits n ∧ overlap ≠ 0 ∧
          ∀ i, overlap.getLsbD i = true ↔ t.maskBits.getLsbD i = true ∧ t.Owns i) ∧
    (∀ mnemonic format missing,
      t.validate length = .error (.uncoveredBits mnemonic format missing) ↔
        mnemonic = t.mnemonic ∧ format = t.format ∧ t.FixesSetBits n ∧
          (∀ op ∈ t.operands, op.bits &&& t.maskBits = 0) ∧ missing ≠ 0 ∧
          ∀ i, missing.getLsbD i = true ↔
            (i < 8 * n ∧ ¬ t.Covers i) ∨ (8 * n ≤ i ∧ t.Covers i)) := by
  have hle : n ≤ 8 := by
    simp only [List.mem_cons, List.not_mem_nil, or_false] at hn
    omega
  refine ⟨validate_eq_ok_iff_within hreal hlength hle, consistent_iff_validate hreal hlength hle,
    fun mnemonic format overlap => ?_, fun mnemonic format missing => ?_⟩
  · rw [validate_eq_fixedOperand_iff hreal hlength, fixesSetBits_iff hle, eq_overlap_iff]
  · rw [validate_eq_uncoveredBits_iff hreal hlength, fixesSetBits_iff hle,
      operandBits_and_eq_zero_iff, eq_missing_iff hle]

/-- An addition whose immediate was left out. -/
def bareAddition : Template :=
  ⟨"addi", none, .i, "d,s", 0x13, 0x707f, .opcode, none,
    [.register .integer .rd, .mark .comma, .register .integer .rs1], 4⟩

/-- The bits of the immediate are reported. -/
theorem validate_decides_on_bits_bare :
    bareAddition.validate none = .error (.uncoveredBits "addi" "d,s" 0xfff00000) ∧
      ∀ i, (0xfff00000 : Word).getLsbD i = true ↔
        (i < 8 * 4 ∧ ¬ bareAddition.Covers i) ∨ (8 * 4 ≤ i ∧ bareAddition.Covers i) := by
  have hreal : bareAddition.isPseudo = false := rfl
  have hlength : (none : Option Nat).getD (instructionLength bareAddition.matchBits) = 4 := by
    decide
  have hreport : bareAddition.validate none = .error (.uncoveredBits "addi" "d,s" 0xfff00000) := by
    decide
  have hbits := validate_decides_on_bits hreal hlength (by decide)
  exact ⟨hreport, ((hbits.2.2.2 _ _ _).1 hreport).2.2.2.2.2⟩

/-- An addition of four bytes with a bit set in the fifth. -/
def strayAddition : Template :=
  { bareAddition with
    format := "d,s,j"
    matchBits := 0x100000013
    operands := bareAddition.operands ++ [.mark .comma, .imm12 .arithmetic] }

/-- A set bit that the mask does not fix is accepted if it lies beyond the word. -/
theorem stray_bit_is_accepted :
    strayAddition.isPseudo = false ∧ strayAddition.validate (some 4) = .ok () ∧
      ¬ strayAddition.Consistent 4 := by
  refine ⟨rfl, by decide, fun h => ?_⟩
  have hfixed : strayAddition.matchBits &&& strayAddition.maskBits ≠ strayAddition.matchBits := by
    decide
  exact hfixed h.fixed

end Template

end RiscvAssembler
