import RiscvAssembler.Branch.Basic
import RiscvAssembler.Proofs.Machine.Decode
import RiscvAssembler.Proofs.Word.Immediate

/-!
Words of branches and jumps. A word decodes to one of them only by its opcode
(`decode32_control`, `decode16_control`), so adding a distance to the word changes the offset of the
instruction and nothing else, a flipped bit turns a branch into its opposite, and the wide form of a
compressed branch or jump is the same instruction.
-/

namespace RiscvAssembler

variable {x : Xlen}

/-- Whether an instruction is a branch or a jump by a distance. -/
def Instr.isControl : Instr → Bool
  | .branch .. | .jal .. => true
  | _ => false

/-! ### Wide words -/

theorem isControl_of_decodeOpImm {w : BitVec 32} {i : Instr} (h : decodeOpImm x w = some i) :
    i.isControl = false := by
  unfold decodeOpImm decodeOpImm.shiftBy at h
  repeat' split at h
  all_goals cases h
  all_goals rfl

theorem isControl_of_decodeOp {w : BitVec 32} {i : Instr} (h : decodeOp w = some i) :
    i.isControl = false := by
  unfold decodeOp at h
  repeat' split at h
  all_goals cases h
  all_goals rfl

theorem isControl_of_decodeOpWord {w : BitVec 32} {i : Instr} (h : decodeOpWord w = some i) :
    i.isControl = false := by
  unfold decodeOpWord at h
  repeat' split at h
  all_goals cases h
  all_goals rfl

theorem isControl_of_decodeSystem {w : BitVec 32} {i : Instr} (h : decodeSystem w = some i) :
    i.isControl = false := by
  unfold decodeSystem at h
  repeat' split at h
  all_goals cases h
  all_goals rfl

section Wide

open Wide

/-- The words of 32 bits that branch or jump by a distance. -/
theorem decode32_control {w : BitVec 32} {i : Instr} (h : decode32 x w = some i)
    (hi : i.isControl = true) :
    (opcode w = 0x63 ∧ ∃ c, Condition.ofFunct3? (funct3 w) = some c ∧
        i = .branch c (rs1 w) (rs2 w) (branchOffset w)) ∨
      opcode w = 0x6f ∧ i = .jal (rd w) (jumpOffset w) := by
  have hno {j : Instr} (hj : j.isControl = false) (hji : j = i) : False := by
    rw [hji, hi] at hj
    cases hj
  unfold decode32 at h
  split at h
  case h_1 hop =>
    obtain ⟨c, hc, rfl⟩ := Option.map_eq_some_iff.1 h
    exact .inl ⟨hop, c, hc, rfl⟩
  case h_2 hop =>
    cases h
    exact .inr ⟨hop, rfl⟩
  case h_5 => exact (hno (isControl_of_decodeOpImm h) rfl).elim
  case h_6 => exact (hno (isControl_of_decodeOp h) rfl).elim
  case h_7 | h_8 | h_9 | h_10 =>
    obtain ⟨size, -, hji⟩ := Option.map_eq_some_iff.1 h
    exact (hno rfl hji).elim
  case h_12 =>
    split at h
    · exact (hno (isControl_of_decodeOpWord h) rfl).elim
    · cases h
  case h_13 => exact (hno (isControl_of_decodeSystem h) rfl).elim
  all_goals
    repeat' split at h
    all_goals cases h
    all_goals cases hi

theorem decode32_eq_branch_iff {w : BitVec 32} {c : Condition} {r s : Reg} {o : BitVec 13} :
    decode32 x w = some (.branch c r s o) ↔
      opcode w = 0x63 ∧ Condition.ofFunct3? (funct3 w) = some c ∧ rs1 w = r ∧ rs2 w = s ∧
        branchOffset w = o := by
  constructor
  · intro h
    obtain ⟨hop, c', hc, heq⟩ | ⟨-, heq⟩ := decode32_control h rfl
    · cases heq
      exact ⟨hop, hc, rfl, rfl, rfl⟩
    · cases heq
  · rintro ⟨hop, hc, rfl, rfl, rfl⟩
    rw [decode32, hop, hc]
    rfl

theorem decode32_eq_jal_iff {w : BitVec 32} {r : Reg} {o : BitVec 21} :
    decode32 x w = some (.jal r o) ↔ opcode w = 0x6f ∧ rd w = r ∧ jumpOffset w = o := by
  constructor
  · intro h
    obtain ⟨-, c, -, heq⟩ | ⟨hop, heq⟩ := decode32_control h rfl
    · cases heq
    · cases heq
      exact ⟨hop, rfl, rfl⟩
  · rintro ⟨hop, rfl, rfl⟩
    rw [decode32, hop]
    rfl

theorem branchOffset_or (a b : BitVec 32) :
    branchOffset (a ||| b) = branchOffset a ||| branchOffset b := by
  simp only [branchOffset, BitVec.extractLsb'_or]
  iterate 4 rw [BitVec.or_append]
  rw [BitVec.or_self]

theorem jumpOffset_or (a b : BitVec 32) : jumpOffset (a ||| b) = jumpOffset a ||| jumpOffset b := by
  simp only [jumpOffset, BitVec.extractLsb'_or]
  iterate 4 rw [BitVec.or_append]
  rw [BitVec.or_self]

theorem branchOffset_encode {v : Int64} (hv : v.toBitVec.extractLsb' 0 1 = 0#1) :
    branchOffset ((Immediate.b.encode v).setWidth 32) = v.toBitVec.extractLsb' 0 13 := by
  simp (disch := decide) [branchOffset, Immediate.encode, Immediate.b, BitVec.extractLsb'_or]
  iterate 3 rw [extractLsb'_append_of_eq _ (by rfl)]
  rw [extractLsb'_append_zero hv]

theorem jumpOffset_encode {v : Int64} (hv : v.toBitVec.extractLsb' 0 1 = 0#1) :
    jumpOffset ((Immediate.j.encode v).setWidth 32) = v.toBitVec.extractLsb' 0 21 := by
  simp (disch := decide) [jumpOffset, Immediate.encode, Immediate.j, BitVec.extractLsb'_or]
  iterate 3 rw [extractLsb'_append_of_eq _ (by rfl)]
  rw [extractLsb'_append_zero hv]

/-- A distance added to the word of a branch is its offset. -/
theorem decode32_branch_or_encode {w : Word} {c : Condition} {r s : Reg} {v : Int64}
    (h : decode32 x (w.setWidth 32) = some (.branch c r s 0))
    (hv : v.toBitVec.extractLsb' 0 1 = 0#1) :
    decode32 x ((w ||| Immediate.b.encode v).setWidth 32) =
      some (.branch c r s (v.toBitVec.extractLsb' 0 13)) := by
  obtain ⟨hop, hc, hr, hs, ho⟩ := decode32_eq_branch_iff.1 h
  refine decode32_eq_branch_iff.2 ⟨?_, ?_, ?_, ?_, ?_⟩
  · rw [← hop]
    simp (disch := decide) only [opcode, extractLsb'_setWidth_of_le,
      Immediate.extractLsb'_or_encode_of_apart]
  · rw [← hc]
    simp (disch := decide) only [funct3, extractLsb'_setWidth_of_le,
      Immediate.extractLsb'_or_encode_of_apart]
  · rw [← hr]
    simp (disch := decide) only [rs1, extractLsb'_setWidth_of_le,
      Immediate.extractLsb'_or_encode_of_apart]
  · rw [← hs]
    simp (disch := decide) only [rs2, extractLsb'_setWidth_of_le,
      Immediate.extractLsb'_or_encode_of_apart]
  · rw [BitVec.setWidth_or, branchOffset_or, ho, branchOffset_encode hv]
    exact BitVec.zero_or

/-- A distance added to the word of a jump is its offset. -/
theorem decode32_jal_or_encode {w : Word} {r : Reg} {v : Int64}
    (h : decode32 x (w.setWidth 32) = some (.jal r 0)) (hv : v.toBitVec.extractLsb' 0 1 = 0#1) :
    decode32 x ((w ||| Immediate.j.encode v).setWidth 32) =
      some (.jal r (v.toBitVec.extractLsb' 0 21)) := by
  obtain ⟨hop, hr, ho⟩ := decode32_eq_jal_iff.1 h
  refine decode32_eq_jal_iff.2 ⟨?_, ?_, ?_⟩
  · rw [← hop]
    simp (disch := decide) only [opcode, extractLsb'_setWidth_of_le,
      Immediate.extractLsb'_or_encode_of_apart]
  · rw [← hr]
    simp (disch := decide) only [rd, extractLsb'_setWidth_of_le,
      Immediate.extractLsb'_or_encode_of_apart]
  · rw [BitVec.setWidth_or, jumpOffset_or, ho, jumpOffset_encode hv]
    exact BitVec.zero_or

/-- The lowest bit of the function field tells a condition from its opposite. -/
theorem Condition.ofFunct3?_xor_one (f : BitVec 3) :
    Condition.ofFunct3? (f ^^^ 1).toNat =
      (Condition.ofFunct3? f.toNat).map Condition.opposite := by
  revert f
  decide

/-- A branch on the opposite condition, over four more bytes. -/
theorem decode32_skip {w : Word} {c : Condition} {r s : Reg}
    (h : decode32 x (w.setWidth 32) = some (.branch c r s 0)) :
    decode32 x ((BranchWord.skip w).setWidth 32) = some (.branch c.opposite r s 8) := by
  have hflip : decode32 x ((w ^^^ 0x1000).setWidth 32) = some (.branch c.opposite r s 0) := by
    obtain ⟨hop, hc, hr, hs, ho⟩ := decode32_eq_branch_iff.1 h
    refine decode32_eq_branch_iff.2 ⟨?_, ?_, ?_, ?_, ?_⟩
    · simpa [opcode, BitVec.extractLsb'_xor] using hop
    · have hflip : funct3 ((w ^^^ 0x1000).setWidth 32) = (w.extractLsb' 12 3 ^^^ 1).toNat := by
        simp [funct3, BitVec.extractLsb'_xor]
      have hsame : (w.extractLsb' 12 3).toNat = funct3 (w.setWidth 32) := by
        rw [funct3, extractLsb'_setWidth_of_le _ (by decide)]
      rw [hflip, Condition.ofFunct3?_xor_one, hsame, hc]
      rfl
    · simpa [rs1, BitVec.extractLsb'_xor] using hr
    · simpa [rs2, BitVec.extractLsb'_xor] using hs
    · simpa [branchOffset, BitVec.extractLsb'_xor] using ho
  exact decode32_branch_or_encode hflip (by decide)

end Wide

/-! ### Compressed words -/

theorem isControl_of_decodeShortArithmetic {w : BitVec 16} {i : Instr}
    (h : decodeShortArithmetic x w = some i) : i.isControl = false := by
  unfold decodeShortArithmetic decodeShortShift at h
  repeat' split at h
  all_goals cases h
  all_goals rfl

theorem isControl_of_decodeShortRegister {w : BitVec 16} {i : Instr}
    (h : decodeShortRegister w = some i) : i.isControl = false := by
  unfold decodeShortRegister at h
  repeat' split at h
  all_goals cases h
  all_goals rfl

section Short

open Short

/-- The compressed words that branch or jump by a distance. -/
theorem decode16_control {w : BitVec 16} {i : Instr} (h : decode16 x w = some i)
    (hi : i.isControl = true) :
    quadrant w = 1 ∧
      (funct3 w = 0b110 ∧ i = .branch .eq (upperReg w) 0 ((branchOffset w).signExtend 13) ∨
        funct3 w = 0b111 ∧ i = .branch .ne (upperReg w) 0 ((branchOffset w).signExtend 13) ∨
        funct3 w = 0b101 ∧ i = .jal 0 ((jumpOffset w).signExtend 21) ∨
        x = .rv32 ∧ funct3 w = 0b001 ∧ i = .jal 1 ((jumpOffset w).signExtend 21)) := by
  unfold decode16 decodeShortShift at h
  split at h
  case h_9 hq hf =>
    split at h
    · cases h
      exact ⟨hq, .inr (.inr (.inr ⟨rfl, hf, rfl⟩))⟩
    · split at h <;> cases h
      cases hi
  case h_12 =>
    rw [isControl_of_decodeShortArithmetic h] at hi
    cases hi
  case h_13 hq hf =>
    cases h
    exact ⟨hq, .inr (.inr (.inl ⟨hf, rfl⟩))⟩
  case h_14 hq hf =>
    cases h
    exact ⟨hq, .inl ⟨hf, rfl⟩⟩
  case h_15 hq hf =>
    cases h
    exact ⟨hq, .inr (.inl ⟨hf, rfl⟩)⟩
  case h_20 =>
    rw [isControl_of_decodeShortRegister h] at hi
    cases hi
  all_goals
    repeat' split at h
    all_goals cases h
    all_goals cases hi

theorem decode16_eq_branch_iff {w : BitVec 16} {c : Condition} {r s : Reg} {o : BitVec 13} :
    decode16 x w = some (.branch c r s o) ↔
      quadrant w = 1 ∧ (funct3 w = 0b110 ∧ c = .eq ∨ funct3 w = 0b111 ∧ c = .ne) ∧
        upperReg w = r ∧ s = 0 ∧ (branchOffset w).signExtend 13 = o := by
  constructor
  · intro h
    obtain ⟨hq, ⟨hf, heq⟩ | ⟨hf, heq⟩ | ⟨-, heq⟩ | ⟨-, -, heq⟩⟩ := decode16_control h rfl
    · cases heq
      exact ⟨hq, .inl ⟨hf, rfl⟩, rfl, rfl, rfl⟩
    · cases heq
      exact ⟨hq, .inr ⟨hf, rfl⟩, rfl, rfl, rfl⟩
    · cases heq
    · cases heq
  · rintro ⟨hq, ⟨hf, rfl⟩ | ⟨hf, rfl⟩, rfl, rfl, rfl⟩
    · unfold decode16
      rw [hq, hf]
      rfl
    · unfold decode16
      rw [hq, hf]
      rfl

theorem decode16_eq_jal_iff {w : BitVec 16} {r : Reg} {o : BitVec 21} :
    decode16 x w = some (.jal r o) ↔
      quadrant w = 1 ∧ (funct3 w = 0b101 ∧ r = 0 ∨ x = .rv32 ∧ funct3 w = 0b001 ∧ r = 1) ∧
        (jumpOffset w).signExtend 21 = o := by
  constructor
  · intro h
    obtain ⟨hq, ⟨-, heq⟩ | ⟨-, heq⟩ | ⟨hf, heq⟩ | ⟨hx, hf, heq⟩⟩ := decode16_control h rfl
    · cases heq
    · cases heq
    · cases heq
      exact ⟨hq, .inl ⟨hf, rfl⟩, rfl⟩
    · cases heq
      exact ⟨hq, .inr ⟨hx, hf, rfl⟩, rfl⟩
  · rintro ⟨hq, ⟨hf, rfl⟩ | ⟨rfl, hf, rfl⟩, rfl⟩
    · unfold decode16
      rw [hq, hf]
      rfl
    · unfold decode16
      rw [hq, hf]
      rfl

theorem shortBranchOffset_or (a b : BitVec 16) :
    branchOffset (a ||| b) = branchOffset a ||| branchOffset b := by
  simp only [branchOffset, BitVec.extractLsb'_or]
  iterate 5 rw [BitVec.or_append]
  rw [BitVec.or_self]

theorem shortJumpOffset_or (a b : BitVec 16) :
    jumpOffset (a ||| b) = jumpOffset a ||| jumpOffset b := by
  simp only [jumpOffset, BitVec.extractLsb'_or]
  iterate 8 rw [BitVec.or_append]
  rw [BitVec.or_self]

theorem shortBranchOffset_encode {v : Int64} (hv : v.toBitVec.extractLsb' 0 1 = 0#1) :
    branchOffset ((Immediate.cBranch.encode v).setWidth 16) = v.toBitVec.extractLsb' 0 9 := by
  simp (disch := decide) [branchOffset, Immediate.encode, Immediate.cBranch, BitVec.extractLsb'_or]
  iterate 4 rw [extractLsb'_append_of_eq _ (by rfl)]
  rw [extractLsb'_append_zero hv]

theorem shortJumpOffset_encode {v : Int64} (hv : v.toBitVec.extractLsb' 0 1 = 0#1) :
    jumpOffset ((Immediate.cJump.encode v).setWidth 16) = v.toBitVec.extractLsb' 0 12 := by
  simp (disch := decide) [jumpOffset, Immediate.encode, Immediate.cJump, BitVec.extractLsb'_or]
  iterate 7 rw [extractLsb'_append_of_eq _ (by rfl)]
  rw [extractLsb'_append_zero hv]

/-- A distance added to the word of a compressed branch is its offset. -/
theorem decode16_branch_or_encode {w : Word} {c : Condition} {r s : Reg} {v : Int64}
    (h : decode16 x (w.setWidth 16) = some (.branch c r s 0))
    (hv : v.toBitVec.extractLsb' 0 1 = 0#1) :
    decode16 x ((w ||| Immediate.cBranch.encode v).setWidth 16) =
      some (.branch c r s ((v.toBitVec.extractLsb' 0 9).signExtend 13)) := by
  obtain ⟨hq, hc, hr, hs, ho⟩ := decode16_eq_branch_iff.1 h
  refine decode16_eq_branch_iff.2 ⟨?_, ?_, ?_, hs, ?_⟩
  · rw [← hq]
    simp (disch := decide) only [quadrant, extractLsb'_setWidth_of_le,
      Immediate.extractLsb'_or_encode_of_apart]
  · simpa (disch := decide) only [funct3, extractLsb'_setWidth_of_le,
      Immediate.extractLsb'_or_encode_of_apart] using hc
  · rw [← hr]
    simp (disch := decide) only [upperReg, extractLsb'_setWidth_of_le,
      Immediate.extractLsb'_or_encode_of_apart]
  · rw [BitVec.setWidth_or, shortBranchOffset_or, BitVec.signExtend_or, ho,
      shortBranchOffset_encode hv]
    exact BitVec.zero_or

/-- A distance added to the word of a compressed jump is its offset. -/
theorem decode16_jal_or_encode {w : Word} {r : Reg} {v : Int64}
    (h : decode16 x (w.setWidth 16) = some (.jal r 0)) (hv : v.toBitVec.extractLsb' 0 1 = 0#1) :
    decode16 x ((w ||| Immediate.cJump.encode v).setWidth 16) =
      some (.jal r ((v.toBitVec.extractLsb' 0 12).signExtend 21)) := by
  obtain ⟨hq, hr, ho⟩ := decode16_eq_jal_iff.1 h
  refine decode16_eq_jal_iff.2 ⟨?_, ?_, ?_⟩
  · rw [← hq]
    simp (disch := decide) only [quadrant, extractLsb'_setWidth_of_le,
      Immediate.extractLsb'_or_encode_of_apart]
  · simpa (disch := decide) only [funct3, extractLsb'_setWidth_of_le,
      Immediate.extractLsb'_or_encode_of_apart] using hr
  · rw [BitVec.setWidth_or, shortJumpOffset_or, BitVec.signExtend_or, ho,
      shortJumpOffset_encode hv]
    exact BitVec.zero_or

/-- A compressed branch on the opposite condition, over four more bytes. -/
theorem decode16_skipShort {w : Word} {c : Condition} {r s : Reg}
    (h : decode16 x (w.setWidth 16) = some (.branch c r s 0)) :
    decode16 x ((BranchWord.skipShort w).setWidth 16) = some (.branch c.opposite r s 6) := by
  have hflip : decode16 x ((w ^^^ 0x2000).setWidth 16) = some (.branch c.opposite r s 0) := by
    obtain ⟨hq, hc, hr, hs, ho⟩ := decode16_eq_branch_iff.1 h
    refine decode16_eq_branch_iff.2 ⟨?_, ?_, ?_, hs, ?_⟩
    · simpa [quadrant, BitVec.extractLsb'_xor] using hq
    · have hflip : funct3 ((w ^^^ 0x2000).setWidth 16) = (w.extractLsb' 13 3 ^^^ 1).toNat := by
        simp [funct3, BitVec.extractLsb'_xor]
      have hf : funct3 (w.setWidth 16) = (w.extractLsb' 13 3).toNat := by simp [funct3]
      rw [hflip]
      rw [hf] at hc
      rcases hc with ⟨hf, rfl⟩ | ⟨hf, rfl⟩
      · exact .inr ⟨by rw [BitVec.eq_of_toNat_eq (hf.trans rfl : _ = (6#3).toNat)]; rfl, rfl⟩
      · exact .inl ⟨by rw [BitVec.eq_of_toNat_eq (hf.trans rfl : _ = (7#3).toNat)]; rfl, rfl⟩
    · simpa [upperReg, BitVec.extractLsb'_xor] using hr
    · simpa [branchOffset, BitVec.extractLsb'_xor] using ho
  exact decode16_branch_or_encode hflip (by decide)

/-- The bits that tell compressed branches and jumps apart. -/
theorem and_eq_of_slices (w : Word) :
    (w &&& 0xe003 : Word) =
      (w.extractLsb' 13 3).setWidth 64 <<< 13 ||| (w.extractLsb' 0 2).setWidth 64 := by
  have hmask : ∀ i : Fin 64, (0xe003#64).getLsbD i =
      (decide (i.val < 2) || (decide (13 ≤ i.val) && decide (i.val < 16))) := by
    decide
  apply BitVec.eq_of_getLsbD_eq
  intro i hi
  rw [BitVec.getLsbD_and, BitVec.ofNat_eq_ofNat, hmask ⟨i, hi⟩, BitVec.getLsbD_or,
    BitVec.getLsbD_shiftLeft, BitVec.getLsbD_setWidth, BitVec.getLsbD_setWidth,
    BitVec.getLsbD_extractLsb', BitVec.getLsbD_extractLsb']
  grind

theorem toNat_and_eq_of_funct3 {w : Word} {q f : Nat} (hq : quadrant (w.setWidth 16) = q)
    (hf : funct3 (w.setWidth 16) = f) :
    (w &&& 0xe003 : Word).toNat = (BitVec.ofNat 64 f <<< 13 ||| BitVec.ofNat 64 q).toNat := by
  subst hq hf
  rw [and_eq_of_slices, quadrant, funct3, extractLsb'_setWidth_of_le _ (by decide),
    extractLsb'_setWidth_of_le _ (by decide), BitVec.ofNat_toNat, BitVec.ofNat_toNat]

/-- A register from 8 to 15 keeps its number in the wide word. -/
theorem rs1_insert_short (w base : Word) :
    Wide.rs1 ((Field.rs1.insert base (Field.shortRs1.extract w + 8)).setWidth 32) =
      upperReg (w.setWidth 16) := by
  rw [Wide.rs1, extractLsb'_setWidth_of_le _ (by decide),
    Field.extractLsb'_insert_of_within _ _ (by decide), upperReg,
    extractLsb'_setWidth_of_le _ (by decide), Field.extract_eq_setWidth]
  have hreg : ∀ r : BitVec 3, (r.setWidth 64 + 8 : Word).extractLsb' 0 5 = reg r := by decide
  exact hreg _

/-- The wide word of a compressed branch is the same branch. -/
theorem decode32_expand_branch {w : Word} {c : Condition} {r s : Reg}
    (h : decode16 x (w.setWidth 16) = some (.branch c r s 0)) :
    ∃ w', BranchWord.expand w = .ok w' ∧ decode32 x (w'.setWidth 32) = some (.branch c r s 0) := by
  obtain ⟨hq, ⟨hf, rfl⟩ | ⟨hf, rfl⟩, hr, rfl, -⟩ := decode16_eq_branch_iff.1 h
  · refine ⟨_, by rw [BranchWord.expand, toNat_and_eq_of_funct3 hq hf]; rfl, ?_⟩
    rw [decode32_eq_branch_iff, rs1_insert_short, hr]
    simp (disch := decide) only [Wide.opcode, Wide.funct3, Wide.rs2, Wide.branchOffset,
      extractLsb'_setWidth_of_le, Field.extractLsb'_insert_of_apart]
    exact ⟨rfl, rfl, trivial, rfl, rfl⟩
  · refine ⟨_, by rw [BranchWord.expand, toNat_and_eq_of_funct3 hq hf]; rfl, ?_⟩
    rw [decode32_eq_branch_iff, rs1_insert_short, hr]
    simp (disch := decide) only [Wide.opcode, Wide.funct3, Wide.rs2, Wide.branchOffset,
      extractLsb'_setWidth_of_le, Field.extractLsb'_insert_of_apart]
    exact ⟨rfl, rfl, trivial, rfl, rfl⟩

/-- The wide word of a compressed jump is the same jump. -/
theorem decode32_expand_jal {w : Word} {r : Reg}
    (h : decode16 x (w.setWidth 16) = some (.jal r 0)) :
    ∃ w', BranchWord.expand w = .ok w' ∧ decode32 x (w'.setWidth 32) = some (.jal r 0) := by
  obtain ⟨hq, ⟨hf, rfl⟩ | ⟨rfl, hf, rfl⟩, -⟩ := decode16_eq_jal_iff.1 h
  · exact ⟨_, by rw [BranchWord.expand, toNat_and_eq_of_funct3 hq hf]; rfl,
      decode32_eq_jal_iff.2 ⟨rfl, rfl, rfl⟩⟩
  · exact ⟨_, by rw [BranchWord.expand, toNat_and_eq_of_funct3 hq hf]; rfl,
      decode32_eq_jal_iff.2 ⟨rfl, rfl, rfl⟩⟩

end Short

end RiscvAssembler
