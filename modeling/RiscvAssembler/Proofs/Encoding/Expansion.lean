import RiscvAssembler.Proofs.Encoding.Cover
import RiscvAssembler.Proofs.Encoding.Words
import RiscvAssembler.Proofs.Machine.Effect

/-!
Compressed patterns and the patterns of 32 bits that they stand for. A pattern is what a word is
assembled from. A compressed pattern expands to a wide one (`Expands`) if all tokens that it takes
give words of the same effect in both, with the same target if they are branches and nothing left
open otherwise. The lemmas here say so format by format.
-/

namespace RiscvAssembler

/-- What a word is assembled from: operands, and the bits before any of them. -/
structure Pattern where
  operands : List Operand
  matchBits : Word
deriving DecidableEq, Repr

namespace Pattern

/-- The draft before any operand. -/
def start (p : Pattern) : Draft :=
  ⟨p.matchBits, none, none⟩

/-- The draft that tokens give. -/
def draft (p : Pattern) (τs : List Token) : Draft :=
  p.start.addTokens p.operands τs

end Pattern

/-- What a guard says about the registers of an assembled word. -/
def Guard.Holds : Guard → Word → Prop
  | .rdNonZero, w => w.extractLsb' 7 5 ≠ 0#5
  | .cAdd, w => w.extractLsb' 2 5 ≠ 0#5
  | .cLui, w => w.extractLsb' 7 5 ≠ 0#5 ∧ w.extractLsb' 7 5 ≠ 2#5
  | _, _ => True

/-- A compressed pattern stands for a wide one: tokens that it takes give words of the same effect,
and the same target if they are branches. Nothing else is left to be filled in. -/
def Expands (x : Xlen) (guard : Guard) (p q : Pattern) : Prop :=
  ∀ τs, TakesAll x p.start p.operands τs → guard.Holds (p.draft τs).bits →
    branchTarget? (p.draft τs).reloc (p.draft τs).imm =
        branchTarget? (q.draft τs).reloc (q.draft τs).imm ∧
      ∃ i j, decode16 x ((p.draft τs).bits.setWidth 16) = some i ∧
        decode32 x ((q.draft τs).bits.setWidth 32) = some j ∧
        i.Leaves true (p.draft τs).reloc (p.draft τs).imm ∧
        j.Leaves false (q.draft τs).reloc (q.draft τs).imm ∧ i.SameEffect x j

/-! ### Formats -/

namespace Operand

abbrev rd : Operand := .register .integer .rd
abbrev rs1 : Operand := .register .integer .rs1
abbrev rs2 : Operand := .register .integer .rs2
abbrev compressedRs2 : Operand := .register .integer .compressedRs2
abbrev shortRs1 : Operand := .shortRegister .integer .rs1
abbrev shortRs2 : Operand := .shortRegister .integer .rs2

end Operand

/-- Two operands. -/
def pair (a b : Operand) : List Operand :=
  [a, .mark .comma, b]

/-- Three operands. -/
def triple (a b c : Operand) : List Operand :=
  [a, .mark .comma, b, .mark .comma, c]

/-- A register, and an address as an offset from another one. -/
def addressed (r offset base : Operand) : List Operand :=
  [r, .mark .comma, offset, .mark .leftParen, base, .mark .rightParen]

section Formats

variable {x : Xlen} {d : Draft} {a b c : Operand} {τs : List Token}

theorem tokens_of_single (h : TakesAll x d [a] τs) : ∃ α, τs = [α] ∧ a.Takes x d.bits α := by
  match τs, h with
  | [α], ⟨hα, _⟩ => exact ⟨α, rfl, hα⟩

theorem tokens_of_pair (h : TakesAll x d (pair a b) τs) :
    ∃ α β, τs = [α, .mark .comma, β] ∧ a.Takes x d.bits α ∧
      b.Takes x (d.add a (a.reading α)).bits β := by
  match τs, h with
  | [α, μ, β], ⟨hα, hμ, hβ, _⟩ =>
    obtain rfl := Operand.takes_mark_iff.1 hμ
    exact ⟨α, β, rfl, hα, hβ⟩

theorem tokens_of_triple (h : TakesAll x d (triple a b c) τs) :
    ∃ α β γ, τs = [α, .mark .comma, β, .mark .comma, γ] ∧ a.Takes x d.bits α ∧
      b.Takes x (d.add a (a.reading α)).bits β ∧
      c.Takes x ((d.add a (a.reading α)).add b (b.reading β)).bits γ := by
  match τs, h with
  | [α, μ, β, ν, γ], ⟨hα, hμ, hβ, hν, hγ, _⟩ =>
    obtain rfl := Operand.takes_mark_iff.1 hμ
    obtain rfl := Operand.takes_mark_iff.1 hν
    exact ⟨α, β, γ, rfl, hα, hβ, hγ⟩

theorem tokens_of_addressed (h : TakesAll x d (addressed a b c) τs) :
    ∃ α β γ, τs = [α, .mark .comma, β, .mark .leftParen, γ, .mark .rightParen] ∧
      a.Takes x d.bits α ∧ b.Takes x (d.add a (a.reading α)).bits β ∧
      c.Takes x ((d.add a (a.reading α)).add b (b.reading β)).bits γ := by
  match τs, h with
  | [α, μ, β, ν, γ, ρ], ⟨hα, hμ, hβ, hν, hγ, hρ, _⟩ =>
    obtain rfl := Operand.takes_mark_iff.1 hμ
    obtain rfl := Operand.takes_mark_iff.1 hν
    obtain rfl := Operand.takes_mark_iff.1 hρ
    exact ⟨α, β, γ, rfl, hα, hβ, hγ⟩

end Formats

/-! ### Registers -/

section Registers

variable {x : Xlen} {n : Nat} {w : Word} {τ : Token}

theorem register_slice (bank : Bank) (n : Nat) :
    (Token.register bank n).value.toBitVec.extractLsb' 0 5 = BitVec.ofNat 5 n := by
  apply BitVec.eq_of_toNat_eq
  simp [Token.value]

theorem cases_of_short (hn : 8 ≤ n ∧ n < 16) :
    n = 8 ∨ n = 9 ∨ n = 10 ∨ n = 11 ∨ n = 12 ∨ n = 13 ∨ n = 14 ∨ n = 15 := by
  omega

theorem short_slice (bank : Bank) (hn : 8 ≤ n ∧ n < 16) :
    Short.reg (((Token.register bank n).value - 8).toBitVec.extractLsb' 0 3) =
      BitVec.ofNat 5 n := by
  change Short.reg ((Int64.ofNat n - 8).toBitVec.extractLsb' 0 3) = _
  rcases cases_of_short hn with rfl | rfl | rfl | rfl | rfl | rfl | rfl | rfl <;> rfl

@[simp] theorem bits_add_register (d : Draft) (bank bank' : Bank) (slot : RegisterSlot) (n : Nat) :
    (d.add (.register bank slot) ((Operand.register bank slot).reading (.register bank' n))).bits =
      slot.field.insert d.bits (Token.register bank' n).value.toBitVec := rfl

@[simp] theorem bits_add_shortRegister (d : Draft) (bank bank' : Bank) (slot : ShortSlot) (n : Nat) :
    (d.add (.shortRegister bank slot)
        ((Operand.shortRegister bank slot).reading (.register bank' n))).bits =
      slot.field.insert d.bits ((Token.register bank' n).value - 8).toBitVec := rfl

/-- The register that is written again is the one in the upper short slot. -/
theorem eq_of_takes_shortRs1 (h : (Operand.repeated .shortRs1).Takes x w τ)
    (hn : 8 ≤ n ∧ n < 16)
    (hw : w.extractLsb' 7 3 =
      ((Token.register .integer n).value - 8).toBitVec.extractLsb' 0 3) :
    τ = .register .integer n := by
  rw [Operand.takes_repeated_iff.1 h, RepeatedSlot.number, Field.extract_eq_setWidth]
  change Token.register .integer (((w.extractLsb' 7 3).setWidth 64).toNat + 8) = _
  rw [hw]
  rcases cases_of_short hn with rfl | rfl | rfl | rfl | rfl | rfl | rfl | rfl <;> rfl

theorem rd_slice (w v : Word) : (Field.rd.insert w v).extractLsb' 7 5 = v.extractLsb' 0 5 :=
  Field.extractLsb'_insert_of_within _ _ (by decide)

theorem compressedRs2_slice (w v : Word) :
    (Field.compressedRs2.insert w v).extractLsb' 2 5 = v.extractLsb' 0 5 :=
  Field.extractLsb'_insert_of_within _ _ (by decide)

theorem rd_slice_or {l : Immediate}
    (h : ∀ s ∈ l.segments, 7 + 5 ≤ s.wordBit ∨ s.wordBit + s.width ≤ 7) (w a : Word) (v : Int64) :
    (Field.rd.insert w a ||| l.encode v).extractLsb' 7 5 = a.extractLsb' 0 5 :=
  (Immediate.extractLsb'_or_encode_of_apart _ _ h).trans (rd_slice _ _)

/-- The register that is written again is the destination. -/
theorem exists_of_takes_rd {r : Reg} (h : (Operand.repeated .rd).Takes x w τ)
    (hw : w.extractLsb' 7 5 = r) : ∃ k, τ = .register .integer k ∧ BitVec.ofNat 5 k = r := by
  refine ⟨_, Operand.takes_repeated_iff.1 h, ?_⟩
  rw [← hw, RepeatedSlot.number, Field.extract_eq_setWidth]
  apply BitVec.eq_of_toNat_eq
  simp [Field.rd]

end Registers

/-! ### Operations on registers -/

section Operations

variable {x : Xlen} (m m' : Word) {o : Operation}

theorem expands_operation (hshort : (m, o) ∈ shortOperationWords) (hwide : (m', o) ∈ operationWords)
    (hx : o.isNarrow = true → x = .rv64) :
    Expands x .opcode ⟨triple .shortRs1 (.repeated .shortRs1) .shortRs2, m⟩
      ⟨triple .rd .rs1 .rs2, m'⟩ := by
  intro τs htakes _
  obtain ⟨α, β, γ, rfl, hα, hβ, hγ⟩ := tokens_of_triple htakes
  obtain ⟨n, rfl, hn⟩ := Operand.takes_shortRegister_iff.1 hα
  obtain rfl := eq_of_takes_shortRs1 hβ hn (by simp (disch := decide) [ShortSlot.field])
  obtain ⟨k, rfl, hk⟩ := Operand.takes_shortRegister_iff.1 hγ
  refine ⟨rfl, _, _, decode16_operation _ _ hshort hx, decode32_operation _ _ _ hwide hx,
    .nothing rfl, .nothing rfl, ?_⟩
  rw [short_slice _ hn, short_slice _ hk, register_slice, register_slice]
  exact .refl _

/-- Operations whose sources may stand in either order. -/
theorem expands_operation_swap (hshort : (m, o) ∈ shortOperationWords)
    (hwide : (m', o) ∈ operationWords) (hx : o.isNarrow = true → x = .rv64)
    (ho : o ≠ .sub ∧ o ≠ .subw) :
    Expands x .opcode ⟨triple .shortRs1 .shortRs2 (.repeated .shortRs1), m⟩
      ⟨triple .rd .rs1 .rs2, m'⟩ := by
  intro τs htakes _
  obtain ⟨α, β, γ, rfl, hα, hβ, hγ⟩ := tokens_of_triple htakes
  obtain ⟨n, rfl, hn⟩ := Operand.takes_shortRegister_iff.1 hα
  obtain ⟨k, rfl, hk⟩ := Operand.takes_shortRegister_iff.1 hβ
  obtain rfl := eq_of_takes_shortRs1 hγ hn (by simp (disch := decide) [ShortSlot.field])
  refine ⟨rfl, _, _, decode16_operation _ _ hshort hx, decode32_operation _ _ _ hwide hx,
    .nothing rfl, .nothing rfl, ?_⟩
  rw [short_slice _ hn, short_slice _ hk, register_slice, register_slice]
  exact .op_comm ho _ _ _

theorem expands_add :
    Expands x .cAdd ⟨triple .rd (.repeated .rd) .compressedRs2, 0x9002⟩
      ⟨triple .rd .rs1 .rs2, 0x33⟩ := by
  intro τs htakes hguard
  obtain ⟨α, β, γ, rfl, hα, hβ, hγ⟩ := tokens_of_triple htakes
  obtain ⟨n, rfl⟩ := Operand.takes_register_iff.1 hα
  obtain ⟨l, rfl, hl⟩ := exists_of_takes_rd hβ (rd_slice _ _)
  obtain ⟨k, rfl⟩ := Operand.takes_register_iff.1 hγ
  refine ⟨rfl, _, _, decode16_add _ _ fun h => hguard ((compressedRs2_slice _ _).trans h),
    decode32_operation _ _ _ (o := .add) (by decide) nofun, .nothing rfl, .nothing rfl, ?_⟩
  rw [register_slice, register_slice, register_slice, hl, register_slice]
  exact .refl _

theorem expands_add_swap :
    Expands x .cAdd ⟨triple .rd .compressedRs2 (.repeated .rd), 0x9002⟩
      ⟨triple .rd .rs1 .rs2, 0x33⟩ := by
  intro τs htakes hguard
  obtain ⟨α, β, γ, rfl, hα, hβ, hγ⟩ := tokens_of_triple htakes
  obtain ⟨n, rfl⟩ := Operand.takes_register_iff.1 hα
  obtain ⟨k, rfl⟩ := Operand.takes_register_iff.1 hβ
  obtain ⟨l, rfl, hl⟩ := exists_of_takes_rd hγ
    ((Field.extractLsb'_insert_of_apart _ _ (by decide)).trans (rd_slice _ _))
  refine ⟨rfl, _, _, decode16_add _ _ fun h => hguard ((compressedRs2_slice _ _).trans h),
    decode32_operation _ _ _ (o := .add) (by decide) nofun, .nothing rfl, .nothing rfl, ?_⟩
  rw [register_slice, register_slice, register_slice, hl, register_slice]
  exact .op_comm (by decide) _ _ _

theorem expands_add_zero :
    Expands x .cAdd ⟨triple .rd (.fixed .zero) .compressedRs2, 0x8002⟩
      ⟨triple .rd .rs1 .rs2, 0x33⟩ := by
  intro τs htakes hguard
  obtain ⟨α, β, γ, rfl, hα, hβ, hγ⟩ := tokens_of_triple htakes
  obtain ⟨n, rfl⟩ := Operand.takes_register_iff.1 hα
  obtain rfl := Operand.takes_fixed_iff.1 hβ
  obtain ⟨k, rfl⟩ := Operand.takes_register_iff.1 hγ
  refine ⟨rfl, _, _, decode16_move _ _ fun h => hguard ((compressedRs2_slice _ _).trans h),
    decode32_operation _ _ _ (o := .add) (by decide) nofun, .nothing rfl, .nothing rfl, ?_⟩
  exact .refl _

theorem expands_move :
    Expands x .cAdd ⟨pair .rd .compressedRs2, 0x8002⟩ ⟨pair .rd .rs1, 0x13⟩ := by
  intro τs htakes hguard
  obtain ⟨α, β, rfl, hα, hβ⟩ := tokens_of_pair htakes
  obtain ⟨n, rfl⟩ := Operand.takes_register_iff.1 hα
  obtain ⟨k, rfl⟩ := Operand.takes_register_iff.1 hβ
  exact ⟨rfl, _, _, decode16_move _ _ fun h => hguard ((compressedRs2_slice _ _).trans h),
    decode32_move _ _ (o := .add) (by decide) nofun, .nothing rfl, .nothing rfl, .move _ _⟩

/-- A register moved by adding zero to it. -/
theorem expands_move_zero :
    Expands x .cAdd ⟨triple .rd .compressedRs2 .zero, 0x8002⟩
      ⟨triple .rd .rs1 (.imm12 .arithmetic), 0x13⟩ := by
  intro τs htakes hguard
  obtain ⟨α, β, γ, rfl, hα, hβ, hγ⟩ := tokens_of_triple htakes
  obtain ⟨n, rfl⟩ := Operand.takes_register_iff.1 hα
  obtain ⟨k, rfl⟩ := Operand.takes_register_iff.1 hβ
  obtain rfl := Operand.takes_zero_iff.1 hγ
  exact ⟨rfl, _, _, decode16_move _ _ fun h => hguard ((compressedRs2_slice _ _).trans h),
    decode32_immediate _ _ _ (o := .add) (by decide) nofun, .nothing rfl, .nothing rfl, .move _ _⟩

end Operations

/-! ### Operations with a constant -/

section Constants

variable {x : Xlen} (m m' : Word) {o : Operation}

theorem expands_increment {i : CompressedImm} (hi : i = .signed6 ∨ i = .nonZero6)
    (hshort : (m, o) ∈ incrementWords) (hwide : (m', o) ∈ immediateWords)
    (hx : o.isNarrow = true → x = .rv64) :
    Expands x .rdNonZero ⟨triple .rd (.repeated .rd) (.compressedImm i), m⟩
      ⟨triple .rd .rs1 (.imm12 .arithmetic), m'⟩ := by
  intro τs htakes hguard
  obtain ⟨α, β, γ, rfl, hα, hβ, hγ⟩ := tokens_of_triple htakes
  obtain ⟨n, rfl⟩ := Operand.takes_register_iff.1 hα
  obtain ⟨l, rfl, hl⟩ := exists_of_takes_rd hβ (rd_slice _ _)
  obtain ⟨v, rfl, hv⟩ := Operand.takes_compressedImm_iff.1 hγ
  rw [register_slice] at hl
  have hfits : Immediate.ci.fits v = true := by
    rcases hi with rfl | rfl <;> exact CompressedImm.fits_of_allows rfl hv
  have hword : (Pattern.draft ⟨triple .rd (.repeated .rd) (.compressedImm i), m⟩
      [.register .integer n, .mark .comma, .register .integer l, .mark .comma, .constant v]).bits =
        Field.rd.insert m (Token.register .integer n).value.toBitVec ||| Immediate.ci.encode v := by
    rcases hi with rfl | rfl <;> rfl
  rw [hword] at hguard ⊢
  refine ⟨rfl, _, _, decode16_increment _ _ hshort hx hfits
    fun _ h => hguard ((rd_slice_or (by decide) _ _ _).trans h),
    decode32_immediate _ _ _ hwide hx, .nothing rfl, .nothing rfl, ?_⟩
  rw [register_slice, register_slice, hl]
  exact .refl _

/-- A register with nothing added to it, in two operands. -/
theorem expands_keep_narrow :
    Expands .rv64 .rdNonZero ⟨pair .rd (.repeated .rd), 0x2001⟩ ⟨pair .rd .rs1, 0x1b⟩ := by
  intro τs htakes hguard
  obtain ⟨α, β, rfl, hα, hβ⟩ := tokens_of_pair htakes
  obtain ⟨n, rfl⟩ := Operand.takes_register_iff.1 hα
  obtain ⟨l, rfl, hl⟩ := exists_of_takes_rd hβ (rd_slice _ _)
  refine ⟨rfl, _, _, decode16_keep _ (o := .addw) (by decide) (fun _ => rfl)
    fun _ h => hguard ((rd_slice _ _).trans h),
    decode32_move _ _ (o := .addw) (by decide) (fun _ => rfl), .nothing rfl, .nothing rfl, ?_⟩
  rw [register_slice, register_slice, hl, register_slice]
  exact .refl _

/-- A register with a literal zero added to it. -/
theorem expands_keep :
    Expands x .cNop ⟨triple .rd (.repeated .rd) .zero, 0x1⟩
      ⟨triple .rd .rs1 (.imm12 .arithmetic), 0x13⟩ := by
  intro τs htakes _
  obtain ⟨α, β, γ, rfl, hα, hβ, hγ⟩ := tokens_of_triple htakes
  obtain ⟨n, rfl⟩ := Operand.takes_register_iff.1 hα
  obtain ⟨l, rfl, hl⟩ := exists_of_takes_rd hβ (rd_slice _ _)
  obtain rfl := Operand.takes_zero_iff.1 hγ
  refine ⟨rfl, _, _, decode16_keep _ (o := .add) (by decide) nofun nofun,
    decode32_immediate _ _ _ (o := .add) (by decide) nofun, .nothing rfl, .nothing rfl, ?_⟩
  rw [register_slice, register_slice, hl, register_slice]
  exact .refl _

theorem expands_constant :
    Expands x .rdNonZero ⟨pair .rd (.compressedImm .signed6), 0x4001⟩
      ⟨pair .rd (.imm12 .arithmetic), 0x13⟩ := by
  intro τs htakes _
  obtain ⟨α, β, rfl, hα, hβ⟩ := tokens_of_pair htakes
  obtain ⟨n, rfl⟩ := Operand.takes_register_iff.1 hα
  obtain ⟨v, rfl, hv⟩ := Operand.takes_compressedImm_iff.1 hβ
  exact ⟨rfl, _, _, decode16_constant _ _ hv, decode32_constant _ _,
    .nothing rfl, .nothing rfl, .refl _⟩

theorem expands_constant_zero :
    Expands x .rdNonZero ⟨triple .rd (.fixed .zero) (.compressedImm .signed6), 0x4001⟩
      ⟨triple .rd .rs1 (.imm12 .arithmetic), 0x13⟩ := by
  intro τs htakes _
  obtain ⟨α, β, γ, rfl, hα, hβ, hγ⟩ := tokens_of_triple htakes
  obtain ⟨n, rfl⟩ := Operand.takes_register_iff.1 hα
  obtain rfl := Operand.takes_fixed_iff.1 hβ
  obtain ⟨v, rfl, hv⟩ := Operand.takes_compressedImm_iff.1 hγ
  exact ⟨rfl, _, _, decode16_constant _ _ hv,
    decode32_immediate _ _ _ (o := .add) (by decide) nofun, .nothing rfl, .nothing rfl, .refl _⟩

theorem expands_and :
    Expands x .opcode ⟨triple .shortRs1 (.repeated .shortRs1) (.compressedImm .signed6), 0x8801⟩
      ⟨triple .rd .rs1 (.imm12 .arithmetic), 0x7013⟩ := by
  intro τs htakes _
  obtain ⟨α, β, γ, rfl, hα, hβ, hγ⟩ := tokens_of_triple htakes
  obtain ⟨n, rfl, hn⟩ := Operand.takes_shortRegister_iff.1 hα
  obtain rfl := eq_of_takes_shortRs1 hβ hn (by simp (disch := decide) [ShortSlot.field])
  obtain ⟨v, rfl, hv⟩ := Operand.takes_compressedImm_iff.1 hγ
  refine ⟨rfl, _, _, decode16_and _ _ hv,
    decode32_immediate _ _ _ (o := .and) (by decide) nofun, .nothing rfl, .nothing rfl, ?_⟩
  rw [short_slice _ hn, register_slice]
  exact .refl _

theorem expands_stackAddress :
    Expands x .cAddi4spn ⟨triple .shortRs2 (.fixed .sp) (.compressedImm .addi4spn), 0x0⟩
      ⟨triple .rd .rs1 (.imm12 .arithmetic), 0x13⟩ := by
  intro τs htakes _
  obtain ⟨α, β, γ, rfl, hα, hβ, hγ⟩ := tokens_of_triple htakes
  obtain ⟨n, rfl, hn⟩ := Operand.takes_shortRegister_iff.1 hα
  obtain rfl := Operand.takes_fixed_iff.1 hβ
  obtain ⟨v, rfl, hv⟩ := Operand.takes_compressedImm_iff.1 hγ
  obtain ⟨hne, hfits⟩ := Bool.and_eq_true_iff.1 hv
  refine ⟨rfl, _, _, decode16_stackAddress _ _ hfits (bne_iff_ne.1 hne),
    decode32_immediate _ _ _ (o := .add) (by decide) nofun, .nothing rfl, .nothing rfl, ?_⟩
  rw [short_slice _ hn, register_slice]
  exact .refl _

theorem expands_stackAdjustment :
    Expands x .cAddi16sp ⟨triple (.fixed .sp) (.fixed .sp) (.compressedImm .addi16sp), 0x6101⟩
      ⟨triple .rd .rs1 (.imm12 .arithmetic), 0x13⟩ := by
  intro τs htakes _
  obtain ⟨α, β, γ, rfl, hα, hβ, hγ⟩ := tokens_of_triple htakes
  obtain rfl := Operand.takes_fixed_iff.1 hα
  obtain rfl := Operand.takes_fixed_iff.1 hβ
  obtain ⟨v, rfl, hv⟩ := Operand.takes_compressedImm_iff.1 hγ
  obtain ⟨hne, hfits⟩ := Bool.and_eq_true_iff.1 hv
  exact ⟨rfl, _, _, decode16_stackAdjustment _ hfits (bne_iff_ne.1 hne),
    decode32_immediate _ _ _ (o := .add) (by decide) nofun, .nothing rfl, .nothing rfl, .refl _⟩

/-- Upper immediates are written as twenty bits, and extend from six. -/
theorem signExtend_upper {v : Int64} (h : CompressedImm.lui.allows x v = true) :
    v.toBitVec.extractLsb' 0 6 ≠ 0#6 ∧
      (v.toBitVec.extractLsb' 0 6).signExtend 20 = v.toBitVec.setWidth 20 := by
  have hrange : (1 ≤ v.toInt ∧ v.toInt < 32) ∨ (0xfffe0 ≤ v.toInt ∧ v.toInt ≤ 0xfffff) := by
    simpa [CompressedImm.allows, Int64.le_iff_toInt_le, Int64.lt_iff_toInt_lt] using h
  have hnat := toNat_of_nonneg (v := v) (by omega)
  have hlow : (v.toBitVec.setWidth 20).toNat = v.toBitVec.toNat := by
    rw [BitVec.toNat_setWidth]
    omega
  have hextend : (v.toBitVec.extractLsb' 0 6).signExtend 20 = v.toBitVec.setWidth 20 := by
    have hint : -2 ^ 5 ≤ (v.toBitVec.setWidth 20).toInt ∧
        (v.toBitVec.setWidth 20).toInt < 2 ^ 5 := by
      rw [BitVec.toInt_eq_toNat_cond, hlow]
      split <;> omega
    rw [← extractLsb'_setWidth_of_le (m := 20) _ (by decide),
      signExtend_extractLsb' (by decide) (by decide) hint, BitVec.setWidth_eq]
  refine ⟨fun hzero => ?_, hextend⟩
  rw [hzero] at hextend
  have := congrArg BitVec.toNat hextend
  rw [hlow, BitVec.toNat_signExtend] at this
  simp at this
  omega

theorem expands_upper :
    Expands x .cLui ⟨pair .rd (.compressedImm .lui), 0x6001⟩ ⟨pair .rd .upper, 0x37⟩ := by
  intro τs htakes hguard
  obtain ⟨α, β, rfl, hα, hβ⟩ := tokens_of_pair htakes
  obtain ⟨n, rfl⟩ := Operand.takes_register_iff.1 hα
  obtain ⟨v, rfl, hv⟩ := Operand.takes_compressedImm_iff.1 hβ
  obtain ⟨hne, hextend⟩ := signExtend_upper hv
  refine ⟨rfl, _, _, decode16_upper _ _
    (fun h => hguard.2 ((rd_slice_or (by decide) _ _ _).trans h)) hne, decode32_upper _ _,
    .nothing rfl, .nothing rfl, ?_⟩
  rw [show (Token.constant v).value = v from rfl, ← hextend]
  exact .refl _

theorem shamt_lt {v : Int64} (h : CompressedImm.shamt.allows x v = true) :
    (v.toBitVec.extractLsb' 0 6).toNat < x.bits := by
  simp only [CompressedImm.allows, Bool.and_eq_true, decide_eq_true_eq] at h
  have hrange : 1 ≤ v.toInt ∧ v.toInt < x.bits := by
    obtain ⟨hlow, hhigh⟩ := h
    rw [Int64.le_iff_toInt_le] at hlow hhigh
    refine ⟨hlow, ?_⟩
    cases x with
    | rv32 => exact Int.lt_add_one_of_le hhigh
    | rv64 => exact Int.lt_add_one_of_le hhigh
  have hnat := toNat_of_nonneg (v := v) (by omega)
  rw [BitVec.extractLsb'_toNat, Nat.shiftRight_zero]
  have := Nat.mod_le v.toBitVec.toNat (2 ^ 6)
  omega

theorem expands_shiftLeft :
    Expands x .leftShift ⟨triple .rd (.repeated .rd) (.compressedImm .shamt), 0x2⟩
      ⟨triple .rd .rs1 (.ranged .shamt), 0x1013⟩ := by
  intro τs htakes _
  obtain ⟨α, β, γ, rfl, hα, hβ, hγ⟩ := tokens_of_triple htakes
  obtain ⟨n, rfl⟩ := Operand.takes_register_iff.1 hα
  obtain ⟨l, rfl, hl⟩ := exists_of_takes_rd hβ (rd_slice _ _)
  obtain ⟨v, rfl, hv⟩ := Operand.takes_compressedImm_iff.1 hγ
  refine ⟨rfl, _, _, decode16_shiftLeft _ _ rfl (shamt_lt hv),
    decode32_shift _ _ _ (s := .left) (by decide) rfl (shamt_lt hv), .nothing rfl, .nothing rfl, ?_⟩
  rw [register_slice, register_slice, hl, register_slice]
  exact .refl _

theorem expands_shiftRight {s : Shift} (hshort : (m, s) ∈ shortShiftWords)
    (hwide : (m', s) ∈ shiftWords) :
    Expands x .rightShift ⟨triple .shortRs1 (.repeated .shortRs1) (.compressedImm .shamt), m⟩
      ⟨triple .rd .rs1 (.ranged .shamt), m'⟩ := by
  intro τs htakes _
  obtain ⟨α, β, γ, rfl, hα, hβ, hγ⟩ := tokens_of_triple htakes
  obtain ⟨n, rfl, hn⟩ := Operand.takes_shortRegister_iff.1 hα
  obtain rfl := eq_of_takes_shortRs1 hβ hn (by simp (disch := decide) [ShortSlot.field])
  obtain ⟨v, rfl, hv⟩ := Operand.takes_compressedImm_iff.1 hγ
  refine ⟨rfl, _, _, decode16_shiftRight _ _ hshort rfl (shamt_lt hv),
    decode32_shift _ _ _ hwide rfl (shamt_lt hv), .nothing rfl, .nothing rfl, ?_⟩
  rw [short_slice _ hn, register_slice]
  exact .refl _

end Constants

/-! ### Jumps and branches -/

section Control

variable {x : Xlen} (m m' : Word)

theorem isJump?_of_mem_closedWords {h : BitVec 16} {w : BitVec 32} {i : Instr}
    (hmem : (h, w, i) ∈ closedWords) : i.isJump? = none :=
  (show ∀ c ∈ closedWords, c.2.2.isJump? = none by decide) _ hmem

theorem expands_closed {i : Instr} (h : (m.setWidth 16, m'.setWidth 32, i) ∈ closedWords) :
    Expands x .opcode ⟨[], m⟩ ⟨[], m'⟩ := by
  intro τs htakes _
  obtain ⟨hshort, hwide⟩ := decode_of_mem_closedWords h x
  have hclosed := isJump?_of_mem_closedWords h
  match τs, htakes with
  | [], _ => exact ⟨rfl, i, i, hshort, hwide, .nothing hclosed, .nothing hclosed, .refl i⟩

theorem expands_jump :
    Expands x .opcode ⟨[.target .shortJump], 0xa001⟩ ⟨[.target .jump], 0x6f⟩ := by
  intro τs htakes _
  obtain ⟨α, rfl, hα⟩ := tokens_of_single htakes
  obtain ⟨name, addend, rfl⟩ := Operand.takes_target_iff.1 hα
  have hshort : decode16 x ((0xa001 : Word).setWidth 16) = some (.jal 0 0) := by
    cases x <;> decide
  have hwide : decode32 x ((0x6f : Word).setWidth 32) = some (.jal 0 0) := by
    cases x <;> decide
  exact ⟨rfl, _, _, hshort, hwide, .target .shortJump rfl rfl _ _, .target .jump rfl rfl _ _,
    .refl _⟩

theorem expands_jumpRegister {r : Reg} (hshort : (m, r) ∈ shortJumpWords)
    (hwide : (m', r) ∈ jumpWords) : Expands x .rdNonZero ⟨[.rd], m⟩ ⟨[.rs1], m'⟩ := by
  intro τs htakes hguard
  obtain ⟨α, rfl, hα⟩ := tokens_of_single htakes
  obtain ⟨n, rfl⟩ := Operand.takes_register_iff.1 hα
  exact ⟨rfl, _, _, decode16_jump _ hshort fun h => hguard ((rd_slice _ _).trans h),
    decode32_jump _ hwide, .nothing rfl, .nothing rfl, .refl _⟩

theorem expands_branchZero {o : Condition} (hshort : (m, o) ∈ shortBranchWords)
    (hwide : (m', o) ∈ branchWords) :
    Expands x .opcode ⟨pair .shortRs1 (.target .shortBranch), m⟩
      ⟨pair .rs1 (.target .branch), m'⟩ := by
  intro τs htakes _
  obtain ⟨α, β, rfl, hα, hβ⟩ := tokens_of_pair htakes
  obtain ⟨n, rfl, hn⟩ := Operand.takes_shortRegister_iff.1 hα
  obtain ⟨name, addend, rfl⟩ := Operand.takes_target_iff.1 hβ
  obtain ⟨near, hnear⟩ := decode16_branch (x := x) _ hshort
  obtain ⟨far, hfar⟩ := decode32_branchZero (x := x) _ hwide
  refine ⟨rfl, _, _, hnear, hfar, .target .shortBranch rfl rfl _ _, .target .branch rfl rfl _ _, ?_⟩
  rw [short_slice _ hn, register_slice]
  exact fun _ _ _ => rfl

theorem expands_branch {o : Condition} (hshort : (m, o) ∈ shortBranchWords)
    (hwide : (m', o) ∈ branchWords) :
    Expands x .opcode ⟨triple .shortRs1 (.fixed .zero) (.target .shortBranch), m⟩
      ⟨triple .rs1 .rs2 (.target .branch), m'⟩ := by
  intro τs htakes _
  obtain ⟨α, β, γ, rfl, hα, hβ, hγ⟩ := tokens_of_triple htakes
  obtain ⟨n, rfl, hn⟩ := Operand.takes_shortRegister_iff.1 hα
  obtain rfl := Operand.takes_fixed_iff.1 hβ
  obtain ⟨name, addend, rfl⟩ := Operand.takes_target_iff.1 hγ
  obtain ⟨near, hnear⟩ := decode16_branch (x := x) _ hshort
  obtain ⟨far, hfar⟩ := decode32_branch (x := x) _ _ hwide
  refine ⟨rfl, _, _, hnear, hfar, .target .shortBranch rfl rfl _ _, .target .branch rfl rfl _ _, ?_⟩
  rw [short_slice _ hn, register_slice]
  exact fun _ _ _ => rfl

end Control

/-! ### Loads and stores -/

section Accesses

variable {x : Xlen} {bank : Bank} {size : AccessSize}

theorem AccessSize.fits_of_allows_shortOffset {v : Int64}
    (h : size.shortOffset.allows x v = true) : size.shortOffset.immediate.fits v = true := by
  cases size <;> exact h

theorem AccessSize.fits_of_allows_stackLoadOffset {v : Int64}
    (h : size.stackLoadOffset.allows x v = true) :
    size.stackLoadOffset.immediate.fits v = true := by
  cases size <;> exact h

theorem AccessSize.fits_of_allows_stackStoreOffset {v : Int64}
    (h : size.stackStoreOffset.allows x v = true) :
    size.stackStoreOffset.immediate.fits v = true := by
  cases size <;> exact h

theorem isJump?_loadInstr (bank : Bank) (size : AccessSize) (rd base : Reg) (offset : BitVec 12) :
    (loadInstr bank size rd base offset).isJump? = none := by
  cases bank <;> rfl

theorem isJump?_storeInstr (bank : Bank) (size : AccessSize) (rs base : Reg) (offset : BitVec 12) :
    (storeInstr bank size rs base offset).isJump? = none := by
  cases bank <;> rfl

theorem expands_load (haccess : IsShortAccess x bank size) :
    Expands x .opcode
      ⟨addressed (.shortRegister bank .rs2) (.compressedImm size.shortOffset) .shortRs1,
        shortLoadWord bank size⟩
      ⟨addressed (.register bank .rd) (.imm12 .loadOffset) .rs1, loadWord bank size⟩ := by
  intro τs htakes _
  obtain ⟨α, β, γ, rfl, hα, hβ, hγ⟩ := tokens_of_addressed htakes
  obtain ⟨n, rfl, hn⟩ := Operand.takes_shortRegister_iff.1 hα
  obtain ⟨v, rfl, hv⟩ := Operand.takes_compressedImm_iff.1 hβ
  obtain ⟨k, rfl, hk⟩ := Operand.takes_shortRegister_iff.1 hγ
  refine ⟨rfl, _, _, decode16_load _ _ _ haccess (AccessSize.fits_of_allows_shortOffset hv),
    decode32_load _ _ _ haccess, .nothing (isJump?_loadInstr ..),
    .nothing (isJump?_loadInstr ..), ?_⟩
  rw [short_slice _ hn, short_slice _ hk, register_slice, register_slice]
  exact .refl _

theorem expands_store (haccess : IsShortAccess x bank size) :
    Expands x .opcode
      ⟨addressed (.shortRegister bank .rs2) (.compressedImm size.shortOffset) .shortRs1,
        shortStoreWord bank size⟩
      ⟨addressed (.register bank .rs2) (.imm12 .storeOffset) .rs1, storeWord bank size⟩ := by
  intro τs htakes _
  obtain ⟨α, β, γ, rfl, hα, hβ, hγ⟩ := tokens_of_addressed htakes
  obtain ⟨n, rfl, hn⟩ := Operand.takes_shortRegister_iff.1 hα
  obtain ⟨v, rfl, hv⟩ := Operand.takes_compressedImm_iff.1 hβ
  obtain ⟨k, rfl, hk⟩ := Operand.takes_shortRegister_iff.1 hγ
  refine ⟨rfl, _, _, decode16_store _ _ _ haccess (AccessSize.fits_of_allows_shortOffset hv),
    decode32_store _ _ _ haccess, .nothing (isJump?_storeInstr ..),
    .nothing (isJump?_storeInstr ..), ?_⟩
  rw [short_slice _ hn, short_slice _ hk, register_slice, register_slice]
  exact .refl _

/-- Loads of integers from the stack have a destination other than `x0`. -/
def stackLoadGuard : Bank → Guard
  | .integer => .rdNonZero
  | .float => .opcode

theorem expands_stackLoad (haccess : IsShortAccess x bank size) :
    Expands x (stackLoadGuard bank)
      ⟨addressed (.register bank .rd) (.compressedImm size.stackLoadOffset) (.fixed .sp),
        stackLoadWord bank size⟩
      ⟨addressed (.register bank .rd) (.imm12 .loadOffset) .rs1, loadWord bank size⟩ := by
  intro τs htakes hguard
  obtain ⟨α, β, γ, rfl, hα, hβ, hγ⟩ := tokens_of_addressed htakes
  obtain ⟨n, rfl⟩ := Operand.takes_register_iff.1 hα
  obtain ⟨v, rfl, hv⟩ := Operand.takes_compressedImm_iff.1 hβ
  obtain rfl := Operand.takes_fixed_iff.1 hγ
  refine ⟨rfl, _, _, decode16_stackLoad _ _ haccess (AccessSize.fits_of_allows_stackLoadOffset hv) ?_,
    decode32_load _ _ _ haccess, .nothing (isJump?_loadInstr ..),
    .nothing (isJump?_loadInstr ..), .refl _⟩
  rintro rfl h
  exact hguard ((rd_slice_or (by cases size <;> decide) _ _ _).trans h)

theorem expands_stackStore (haccess : IsShortAccess x bank size) :
    Expands x .opcode
      ⟨addressed (.register bank .compressedRs2) (.compressedImm size.stackStoreOffset) (.fixed .sp),
        stackStoreWord bank size⟩
      ⟨addressed (.register bank .rs2) (.imm12 .storeOffset) .rs1, storeWord bank size⟩ := by
  intro τs htakes _
  obtain ⟨α, β, γ, rfl, hα, hβ, hγ⟩ := tokens_of_addressed htakes
  obtain ⟨n, rfl⟩ := Operand.takes_register_iff.1 hα
  obtain ⟨v, rfl, hv⟩ := Operand.takes_compressedImm_iff.1 hβ
  obtain rfl := Operand.takes_fixed_iff.1 hγ
  exact ⟨rfl, _, _, decode16_stackStore _ _ haccess (AccessSize.fits_of_allows_stackStoreOffset hv),
    decode32_store _ _ _ haccess, .nothing (isJump?_storeInstr ..),
    .nothing (isJump?_storeInstr ..), .refl _⟩

end Accesses

end RiscvAssembler
