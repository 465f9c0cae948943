import Mathlib.Data.List.Forall2
import RiscvAssembler.Proofs.Encoding.FixedBits
import RiscvAssembler.Proofs.Word.Range

/-!
Templates that take the texts of another. An operand covers one that takes tokens only if it takes
every token that the other takes, so a template covers another operand by operand
(`encode_of_covers`). It is excluded by another if some operand of it refuses what that one takes
(`readOperands_of_excludes`): a register where the other has a constant, or an immediate too small for the
constant.
-/

namespace RiscvAssembler

/-- Whether the values of a compressed immediate lie in the range of twelve-bit immediates. -/
def CompressedImm.isNarrow : CompressedImm → Bool
  | .signed3 | .nonZero6 | .signed6 | .lw | .ld | .lwsp | .ldsp | .swsp | .sdsp | .addi4spn
  | .addi16sp => true
  | .shamt | .shamtWord | .unsigned8 | .lui | .luiValue => false

theorem CompressedImm.fits_of_allows {x : Xlen} {i : CompressedImm} (h : i.isNarrow = true)
    {v : Int64} (hv : i.allows x v = true) : i.immediate.fits v = true := by
  cases i with
  | signed3 | nonZero6 | addi4spn | addi16sp => exact (Bool.and_eq_true_iff.1 hv).2
  | signed6 | lw | ld | lwsp | ldsp | swsp | sdsp => exact hv
  | _ => cases h

theorem CompressedImm.range_of_allows {x : Xlen} {i : CompressedImm} (h : i.isNarrow = true)
    {v : Int64} (hv : i.allows x v = true) : -2048 ≤ v ∧ v ≤ 2047 := by
  have hlayout : i.immediate.Gapless ∧ i.immediate.width ≤ 11 := by
    cases i <;> decide
  exact hlayout.1.range_of_fits hlayout.2 (fits_of_allows h hv)

/-- A value that a compressed upper immediate loads: a multiple of 4096 other than zero. -/
theorem CompressedImm.of_allows_luiValue {x : Xlen} {v : Int64}
    (h : CompressedImm.luiValue.allows x v = true) :
    v ≠ 0 ∧ v.toBitVec.toNat % 4096 = 0 ∧
      Immediate.ci.fits (CompressedImm.luiValue.stored v) = true := by
  simp only [allows, Bool.and_eq_true, bne_iff_ne, ne_eq, beq_iff_eq] at h
  obtain ⟨⟨hne, hlow⟩, hfits⟩ := h
  refine ⟨hne, ?_, hfits⟩
  have hnat := congrArg BitVec.toNat hlow
  rw [BitVec.toNat_and] at hnat
  exact (Nat.and_two_pow_sub_one_eq_mod _ 12).symm.trans hnat

namespace Operand

/-- Whether the second operand takes every token that the first one takes. -/
def covers : Operand → Operand → Bool
  | .mark m, .mark m' => m == m'
  | .register bank _, .register bank' _ => bank == bank'
  | .shortRegister bank _, .register bank' _ => bank == bank'
  | .repeated _, .register bank _ => bank == .integer
  | .fixed _, .register bank _ => bank == .integer
  | .compressedImm .shamt, .ranged .shamt => true
  | .compressedImm .lui, .upper => true
  | .compressedImm .luiValue, .constant => true
  | .compressedImm i, .imm12 k =>
    i.isNarrow && (Operand.compressedImm i).mayBeOmitted == (Operand.imm12 k).mayBeOmitted
  | .zero, .imm12 k => k == .arithmetic
  | .target _, .target _ => true
  | _, _ => false

variable {x : Xlen} {op op' : Operand}

theorem mayBeOmitted_of_covers (h : covers op op' = true) :
    op.mayBeOmitted = op'.mayBeOmitted := by
  unfold covers at h
  split at h
  case h_9 => exact eq_of_beq (Bool.and_eq_true_iff.1 h).2
  case h_10 =>
    rw [eq_of_beq h]
    rfl
  all_goals first | rfl | cases h

theorem takes_of_covers (h : covers op op' = true) {word : Word} {τ : Token}
    (htakes : op.Takes x word τ) (word' : Word) : op'.Takes x word' τ := by
  unfold covers at h
  split at h
  case h_1 m m' => simpa [eq_of_beq h] using htakes
  case h_2 bank _ bank' _ => simpa [eq_of_beq h] using htakes
  case h_3 bank _ bank' _ =>
    obtain ⟨n, rfl, -⟩ := takes_shortRegister_iff.1 htakes
    exact eq_of_beq h
  case h_4 slot bank _ =>
    rw [takes_repeated_iff.1 htakes]
    exact (eq_of_beq h).symm
  case h_5 r bank _ =>
    rw [takes_fixed_iff.1 htakes]
    exact (eq_of_beq h).symm
  case h_6 =>
    obtain ⟨v, rfl, hv⟩ := takes_compressedImm_iff.1 htakes
    simp only [CompressedImm.allows, Bool.and_eq_true, decide_eq_true_eq] at hv
    exact ⟨Int64.le_trans (by decide) hv.1, hv.2⟩
  case h_7 =>
    obtain ⟨v, rfl, hv⟩ := takes_compressedImm_iff.1 htakes
    simp only [CompressedImm.allows, Bool.or_eq_true, Bool.and_eq_true, decide_eq_true_eq] at hv
    rcases hv with ⟨hlow, hhigh⟩ | ⟨hlow, hhigh⟩
    · exact ⟨Int64.le_trans (by decide) hlow,
        Int64.le_trans (Int64.le_of_lt hhigh) (by decide)⟩
    · exact ⟨Int64.le_trans (by decide) hlow, hhigh⟩
  case h_8 =>
    obtain ⟨v, rfl, -⟩ := takes_compressedImm_iff.1 htakes
    trivial
  case h_9 i k =>
    obtain ⟨v, rfl, hv⟩ := takes_compressedImm_iff.1 htakes
    exact CompressedImm.range_of_allows (Bool.and_eq_true_iff.1 h).1 hv
  case h_10 k =>
    rw [takes_zero_iff.1 htakes]
    exact ⟨by decide, by decide⟩
  case h_11 =>
    obtain ⟨name, addend, rfl⟩ := takes_target_iff.1 htakes
    trivial
  case h_12 => cases h

/-- Whether the second operand refuses every token that the first one takes. -/
def excludes : Operand → Operand → Bool
  | .compressedImm .luiValue, .imm12 .arithmetic => true
  | .compressedImm i, .register .integer _ => !(Operand.compressedImm i).mayBeOmitted
  | _, _ => false

theorem At.constant_of_not_omitted {ctx : Context} {s rest : List Char} {v : Int64}
    (h : (Token.constant v).At ctx false s rest) : ctx.expression s = some (.constant v, rest) := by
  simpa [Token.At] using h

theorem not_narrow_of_allows_luiValue {v : Int64}
    (h : CompressedImm.luiValue.allows x v = true) : ¬ (-2048 ≤ v ∧ v ≤ 2047) := by
  obtain ⟨hne, hmod, -⟩ := CompressedImm.of_allows_luiValue h
  have hzero : v.toInt ≠ 0 := fun hv => hne (Int64.toInt_inj.1 hv)
  have hint := toInt_eq_toNat_or v
  rw [Int64.le_iff_toInt_le, Int64.le_iff_toInt_le,
    show (-2048 : Int64).toInt = -2048 from rfl, show (2047 : Int64).toInt = 2047 from rfl]
  omega

theorem read_of_excludes {ctx : Context} (hev : ctx.evaluator.Separates ctx.reduced)
    (h : excludes op op' = true) {mnemonic : String} {word word' : Word} {s rest : List Char}
    {τ : Token} (hat : τ.At ctx op.mayBeOmitted s rest) (htakes : op.Takes ctx.isa.xlen word τ) :
    op'.read ctx mnemonic word' s = .error .differs := by
  unfold excludes at h
  split at h
  case h_1 =>
    obtain ⟨v, rfl, hv⟩ := takes_compressedImm_iff.1 htakes
    have hexpr := At.constant_of_not_omitted hat
    have hread : Reading.imm12 ctx .arithmetic s = .error .differs := by
      unfold Reading.imm12
      rw [Reading.modified_of_constant hev hexpr]
      exact if_neg (not_narrow_of_allows_luiValue hv)
    exact hread
  case h_2 i slot =>
    obtain ⟨v, rfl, -⟩ := takes_compressedImm_iff.1 htakes
    rw [Bool.not_eq_true'] at h
    rw [h] at hat
    obtain ⟨w, heval⟩ := Reading.evaluator_of_expression (At.constant_of_not_omitted hat)
    have hnone : ctx.register .integer s = none :=
      Option.not_isSome_iff_eq_none.1 fun hreg => hev.register s hreg w rest heval
    have hread : Reading.number (ctx.register .integer s) = .error .differs := by
      rw [hnone]
      rfl
    exact hread
  case h_3 => cases h

end Operand

/-! ### Templates -/

/-- Whether operands take the tokens of others, one by one. -/
def coversAll : List Operand → List Operand → Bool
  | [], [] => true
  | op :: ops, op' :: ops' => op.covers op' && coversAll ops ops'
  | _, _ => false

/-- Whether an operand refuses the token of the other at its place, and those before it do not. -/
def excludesAll : List Operand → List Operand → Bool
  | op :: ops, op' :: ops' => op.excludes op' || (op.covers op' && excludesAll ops ops')
  | _, _ => false

variable {ctx : Context} {ops ops' : List Operand} {s : List Char} {τs : List Token}

theorem spells_of_covers (h : coversAll ops ops' = true) (hspells : Spells ctx ops s τs) :
    Spells ctx ops' s τs := by
  induction ops generalizing ops' s τs with
  | nil =>
    cases ops' with
    | nil => exact hspells
    | cons op' ops' => cases h
  | cons op ops ih =>
    cases ops' with
    | nil => cases h
    | cons op' ops' =>
      obtain ⟨hop, hops⟩ := Bool.and_eq_true_iff.1 h
      obtain ⟨τ, rest, τs', rfl, hat, hspells⟩ := hspells
      rw [Operand.mayBeOmitted_of_covers hop] at hat
      exact ⟨τ, rest, τs', rfl, hat, ih hops hspells⟩

theorem takesAll_of_covers {x : Xlen} (h : coversAll ops ops' = true) {d : Draft}
    (htakes : TakesAll x d ops τs) (d' : Draft) : TakesAll x d' ops' τs := by
  induction ops generalizing ops' d d' τs with
  | nil =>
    cases ops' with
    | nil =>
      cases τs with
      | nil => trivial
      | cons τ τs => cases htakes
    | cons op' ops' => cases h
  | cons op ops ih =>
    cases ops' with
    | nil => cases h
    | cons op' ops' =>
      obtain ⟨hop, hops⟩ := Bool.and_eq_true_iff.1 h
      cases τs with
      | nil => cases htakes
      | cons τ τs =>
        obtain ⟨htake, htakes⟩ := htakes
        exact ⟨Operand.takes_of_covers hop htake d'.bits, ih hops htakes _⟩

theorem readOperands_of_excludes (hev : ctx.evaluator.Separates ctx.reduced) {mnemonic : String}
    (h : excludesAll ops ops' = true) (hspells : Spells ctx ops s τs) {d : Draft}
    (htakes : TakesAll ctx.isa.xlen d ops τs) (d' : Draft) :
    Template.readOperands ctx mnemonic d' ops' s = .error .differs := by
  induction ops generalizing ops' s d d' τs with
  | nil => cases h
  | cons op ops ih =>
    cases ops' with
    | nil => cases h
    | cons op' ops' =>
      obtain ⟨τ, rest, τs, rfl, hat, hspells⟩ := hspells
      obtain ⟨htake, htakes⟩ := htakes
      unfold Template.readOperands
      rcases Bool.or_eq_true_iff.1 h with hop | h
      · rw [Operand.read_of_excludes hev hop hat htake]
        rfl
      · obtain ⟨hop, hops⟩ := Bool.and_eq_true_iff.1 h
        rw [Operand.mayBeOmitted_of_covers hop] at hat
        rw [Operand.read_of_takes hev hat (Operand.takes_of_covers hop htake _)]
        simp only [bind, Except.bind]
        rw [ih hops hspells htakes]

namespace Template

/-- The instruction of a template that takes tokens. -/
def encoded (t : Template) (τs : List Token) : Encoded :=
  let d := t.start.addTokens t.operands τs
  ⟨t, d.bits, d.imm, d.reloc⟩

/-- Whether a template stands in every context: a pseudo-instruction, or a word of four bytes whose
fixed bits no operand touches. -/
def isSteady (t : Template) : Bool :=
  t.isPseudo ||
    (t.guard == .opcode && operandBits t.operands &&& t.maskBits == 0 && t.length != 2)

theorem accepts_of_isSteady {t : Template} (h : t.isSteady = true) (ctx : Context)
    (τs : List Token) : t.accepts ctx (t.encoded τs).bits = true := by
  unfold accepts
  rcases Bool.or_eq_true_iff.1 h with h | h
  · rw [h]
    rfl
  · simp only [Bool.and_eq_true, beq_iff_eq] at h
    obtain ⟨⟨hguard, hapart⟩, hlength⟩ := h
    rw [show t.admits (t.encoded τs).bits = true from admits_addTokens hguard hapart τs, hlength]
    simp

theorem encode_of_takesAll (hev : ctx.evaluator.Separates ctx.reduced) {t : Template}
    (hspells : Spells ctx t.operands s τs) (htakes : TakesAll ctx.isa.xlen t.start t.operands τs)
    (haccepts : t.accepts ctx (t.encoded τs).bits = true) : t.encode ctx s = .ok (t.encoded τs) := by
  unfold encode
  rw [readOperands_of_takesAll hev hspells htakes]
  exact if_pos haccepts

/-- **A template that covers another encodes the texts that the other takes.** -/
theorem encode_of_covers (hev : ctx.evaluator.Separates ctx.reduced) {t u : Template}
    (h : coversAll t.operands u.operands = true) (hsteady : u.isSteady = true)
    (hspells : Spells ctx t.operands s τs)
    (htakes : TakesAll ctx.isa.xlen t.start t.operands τs) :
    u.encode ctx s = .ok (u.encoded τs) :=
  encode_of_takesAll hev (spells_of_covers h hspells) (takesAll_of_covers h htakes u.start)
    (accepts_of_isSteady hsteady ctx τs)

end Template

end RiscvAssembler
