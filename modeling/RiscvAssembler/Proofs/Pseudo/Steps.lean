import RiscvAssembler.Proofs.Encoding.Outcome
import RiscvAssembler.Proofs.Encoding.Target
import RiscvAssembler.Proofs.Pseudo.Forms

/-!
Expansions that hold. Every instruction that an expansion prints is encoded again
(`accepted_of_steps`), whatever the register width, the subsets and the options, for all registers
that the pseudo-instruction can name and for all constants; and every relocation of an expansion is
against a symbol (`bound_of_steps`). What the table has to provide for that is checked once
(`targets`, `isExpandable_of_mem`).
-/

namespace RiscvAssembler

/-! ### Constants -/

/-- What the steps that load a constant into `reg` look like. -/
def ConstantStep.Fits (xlen : Xlen) (reg : Nat) : ConstantStep → Prop
  | .lui rd upper => rd = reg ∧ upper ≤ 0xfffff
  | .addi rd rs imm => rd = reg ∧ (rs = 0 ∨ rs = reg) ∧ -2048 ≤ imm ∧ imm ≤ 2047
  | .addiw rd rs imm => xlen = .rv64 ∧ rd = reg ∧ (rs = 0 ∨ rs = reg) ∧ -2048 ≤ imm ∧ imm ≤ 2047
  | .slli rd rs amount => xlen = .rv64 ∧ rd = reg ∧ rs = reg ∧ amount ≤ 63

theorem lowPart_bounds (value : Int64) : -2048 ≤ lowPart value ∧ lowPart value ≤ 2047 := by
  have hbounds := toInt_lowPart_bounds value
  rw [Int64.le_iff_toInt_le, Int64.le_iff_toInt_le, show (-2048 : Int64).toInt = -2048 from rfl,
    show (2047 : Int64).toInt = 2047 from rfl]
  omega

theorem lowestUpperBit_le (upper : Int64) : lowestUpperBit upper ≤ 63 := by
  unfold lowestUpperBit
  cases h : (List.range' 12 51).find? fun i => upper.toBitVec.getLsbD i with
  | none => simp
  | some i =>
    have hmem := List.mem_of_find?_eq_some h
    simp only [List.mem_range'_1] at hmem
    simp only [Option.getD_some]
    omega

theorem fits_loadNarrow (xlen : Xlen) (reg : Nat) (value : Int64) :
    ∀ step ∈ loadNarrow xlen reg value, step.Fits xlen reg := by
  have hlow := lowPart_bounds value
  have hupper : ((upperPart value).toBitVec.extractLsb' 12 20).toNat ≤ 0xfffff := by
    have := ((upperPart value).toBitVec.extractLsb' 12 20).isLt
    omega
  have hsource : (if upperPart value = 0 then 0 else reg) = 0 ∨
      (if upperPart value = 0 then 0 else reg) = reg := by
    split
    · exact .inl rfl
    · exact .inr rfl
  intro step hstep
  dsimp only [loadNarrow] at hstep
  generalize (if upperPart value = 0 then 0 else reg) = source at hsource hstep
  rcases List.mem_append.1 hstep with hload | hadd
  · split at hload
    · cases hload
    · cases List.mem_singleton.1 hload
      exact ⟨rfl, hupper⟩
  · split at hadd
    · cases hadd
    · cases xlen with
      | rv32 =>
        cases List.mem_singleton.1 hadd
        exact ⟨rfl, hsource, hlow⟩
      | rv64 =>
        cases List.mem_singleton.1 hadd
        exact ⟨rfl, rfl, hsource, hlow⟩

/-- **Every step that loads a constant keeps to the ranges of its operands.** -/
theorem fits_loadConstant (xlen : Xlen) (reg : Nat) (value : Int64) :
    ∀ step ∈ loadConstant xlen reg value, step.Fits xlen reg := by
  fun_induction loadConstant xlen reg value with
  | case1 value h low ih =>
    intro step hstep
    rcases List.mem_append.1 hstep with hstep | hstep
    · exact ih step hstep
    · rcases List.mem_cons.1 hstep with rfl | hstep
      · exact ⟨h.1, rfl, rfl, lowestUpperBit_le _⟩
      · split at hstep
        · cases hstep
        · cases List.mem_singleton.1 hstep
          exact ⟨rfl, .inr rfl, lowPart_bounds value⟩
  | case2 value h => exact fits_loadNarrow xlen reg value

/-! ### What is printed -/

namespace Expansion

/-- The operands of upper immediates. -/
def upperOperands : List Operand :=
  [.register .integer .rd, .mark .comma, .upper]

/-- The operands of additions of an immediate. -/
def sumOperands : List Operand :=
  [.register .integer .rd, .mark .comma, .register .integer .rs1, .mark .comma, .imm12 .arithmetic]

/-- The operands of shifts by a constant. -/
def shiftOperands : List Operand :=
  [.register .integer .rd, .mark .comma, .register .integer .rs1, .mark .comma, .ranged .shamt]

/-- The operands of jumps to a register. -/
def jumpOperands : List Operand :=
  [.register .integer .rd, .mark .comma, .register .integer .rs1]

/-- The operands of loads. -/
def loadOperands (bank : Bank) : List Operand :=
  [.register bank .rd, .mark .comma, .imm12 .loadOffset, .mark .leftParen,
    .register .integer .rs1, .mark .rightParen]

/-- The operands of stores. -/
def storeOperands (bank : Bank) : List Operand :=
  [.register bank .rs2, .mark .comma, .imm12 .storeOffset, .mark .leftParen,
    .register .integer .rs1, .mark .rightParen]

theorem decimal_zero : Text.decimal 0 = ['0'] := by
  decide

theorem withZero_eq (r : Nat) :
    withZero r = printTokens [.register .integer r, .mark .comma, .constant 0] := by
  simp [withZero, printTokens, Token.print, Bank.print, decimal_zero]

theorem sumWithZero_eq (rd rs : Nat) :
    sumWithZero rd rs = printTokens [.register .integer rd, .mark .comma, .register .integer rs,
      .mark .comma, .constant 0] := by
  simp [sumWithZero, withZero, printTokens, Token.print, Bank.print, decimal_zero]

theorem access_eq (bank : Bank) (n base : Nat) :
    access (bank.print n) base = printTokens [.register bank n, .mark .comma, .constant 0,
      .mark .leftParen, .register .integer base, .mark .rightParen] := by
  simp [access, printTokens, Token.print, Bank.print, Mark.char, decimal_zero]

theorem jump_eq (rd rs : Nat) :
    integer rd ++ ", ".toList ++ integer rs =
      printTokens [.register .integer rd, .mark .comma, .register .integer rs] := by
  simp [printTokens, Token.print, Bank.print, integer]

end Expansion

theorem ConstantStep.threeOperands_eq (rd rs : Nat) (v : Int64) :
    threeOperands rd rs v.toInt = printTokens [.register .integer rd, .mark .comma,
      .register .integer rs, .mark .comma, .constant v] := by
  simp [threeOperands, printTokens, Token.print, Bank.print, Expansion.integer]

theorem ofNat_bounds {n k : Nat} (hn : n ≤ k) (hk : k < 2 ^ 63) :
    (Int64.ofNat n).toInt = n ∧ 0 ≤ Int64.ofNat n ∧ Int64.ofNat n ≤ Int64.ofNat k := by
  have hvalue : (Int64.ofNat n).toInt = n := Int64.toInt_ofNat_of_lt (by omega)
  have hbound : (Int64.ofNat k).toInt = k := Int64.toInt_ofNat_of_lt hk
  rw [Int64.le_iff_toInt_le, Int64.le_iff_toInt_le, hvalue, hbound, Int64.toInt_zero]
  omega

theorem ConstantStep.operands_lui {rd upper : Nat} (h : upper ≤ 0xfffff) :
    (ConstantStep.lui rd upper).operands = printTokens
      [.register .integer rd, .mark .comma, .constant (Int64.ofNat upper)] := by
  simp [operands, printTokens, Token.print, Bank.print, Expansion.integer,
    (ofNat_bounds h (by decide)).1]

theorem ConstantStep.operands_slli {rd rs amount : Nat} (h : amount ≤ 63) :
    (ConstantStep.slli rd rs amount).operands = printTokens [.register .integer rd, .mark .comma,
      .register .integer rs, .mark .comma, .constant (Int64.ofNat amount)] := by
  rw [← threeOperands_eq, (ofNat_bounds h (by decide)).1, operands]

/-! ### What is encoded again -/

/-- Where expansions take place: the tables of the assembler, the basic evaluator, and a base that
has the integer instructions. -/
structure Setting (cs : Catalogs) (ctx : Context) : Prop where
  standard : Catalogs.standard = .ok cs
  evaluator : ctx.evaluator = .basic
  base : ctx.isa.has "i" = true

/-- A text is encoded, whether it may be compressed or not. -/
def Encodes (cs : Catalogs) (ctx : Context) (mnemonic : String) (text : List Char) : Prop :=
  ∀ allow, ∃ e,
    cs.instructions.encode { ctx with allowCompressed := allow } mnemonic text = .ok e

namespace Expansion

/-- The instructions that expansions always count on. -/
structure Targets : Prop where
  lui : hasTarget "lui" upperOperands none .i = true
  auipc : hasTarget "auipc" upperOperands none .i = true
  addi : hasTarget "addi" sumOperands none .i = true
  addiw : hasTarget "addiw" sumOperands (some .rv64) .i = true
  slli : hasTarget "slli" shiftOperands none .i = true
  jalr : hasTarget "jalr" jumpOperands none .i = true
  lw : hasTarget "lw" (loadOperands .integer) none .i = true
  ld : hasTarget "ld" (loadOperands .integer) (some .rv64) .i = true

theorem targets : Targets := by
  have hall :
      (hasTarget "lui" upperOperands none .i && hasTarget "auipc" upperOperands none .i &&
        hasTarget "addi" sumOperands none .i && hasTarget "addiw" sumOperands (some .rv64) .i &&
        hasTarget "slli" shiftOperands none .i && hasTarget "jalr" jumpOperands none .i &&
        hasTarget "lw" (loadOperands .integer) none .i &&
        hasTarget "ld" (loadOperands .integer) (some .rv64) .i) = true := by
    simp only [hasTarget, standardTemplates_eq_map]
    decide +kernel
  simp only [Bool.and_eq_true] at hall
  obtain ⟨⟨⟨⟨⟨⟨⟨lui, auipc⟩, addi⟩, addiw⟩, slli⟩, jalr⟩, lw⟩, ld⟩ := hall
  exact ⟨lui, auipc, addi, addiw, slli, jalr, lw, ld⟩

variable {cs : Catalogs} {ctx : Context}

theorem encodes_of_hasTarget (hset : Setting cs ctx) {name : String} {ops : List Operand}
    {width : Option Xlen} {needs : InstructionClass} (h : hasTarget name ops width needs = true)
    (hwidth : width.all (· == ctx.isa.xlen) = true) (hneeds : needs.isPartOf ctx.isa ctx.rvc = true)
    {τs : List Token} (htakes : ∀ d, TakesAll ctx.isa.xlen d ops τs)
    (hlegible : ∀ τ ∈ τs, τ.Legible ctx) (hpunct : Punctuated τs) :
    Encodes cs ctx name (printTokens τs) := by
  intro allow
  have hev : { ctx with allowCompressed := allow }.evaluator = .basic := hset.evaluator
  exact encode_of_hasTarget hset.standard hev h hwidth hneeds htakes hlegible hpunct

theorem legible_zero : (Token.constant 0).Legible ctx :=
  ⟨by decide, by decide⟩

theorem legible_of_imm12 {v : Int64} (hv : -2048 ≤ v ∧ v ≤ 2047) : (Token.constant v).Legible ctx :=
  ⟨Int64.le_trans (by decide) hv.1, Int64.lt_of_le_of_lt hv.2 (by decide)⟩

theorem legible_source {reg rs : Nat} (hreg : (Token.register .integer reg).Legible ctx)
    (h : rs = 0 ∨ rs = reg) : (Token.register .integer rs).Legible ctx := by
  rcases h with rfl | rfl
  · exact ⟨by decide, fun _ _ => by decide⟩
  · exact hreg

theorem encodes_upper (hset : Setting cs ctx) {name : String}
    (h : hasTarget name upperOperands none .i = true) {r : Nat}
    (hr : (Token.register .integer r).Legible ctx) {v : Int64} (hv : 0 ≤ v ∧ v ≤ 0xfffff) :
    Encodes cs ctx name (printTokens [.register .integer r, .mark .comma, .constant v]) := by
  have hlegible : (Token.constant v).Legible ctx :=
    ⟨Int64.le_trans (by decide) hv.1, Int64.lt_of_le_of_lt hv.2 (by decide)⟩
  refine encodes_of_hasTarget hset h rfl hset.base ?_ ?_ ?_
  · intro d
    exact ⟨rfl, rfl, hv, trivial⟩
  · simp only [List.forall_mem_cons]
    exact ⟨hr, trivial, hlegible, List.forall_mem_nil _⟩
  · exact ⟨.inr rfl, .inl rfl, trivial⟩

theorem encodes_sum (hset : Setting cs ctx) {name : String} {width : Option Xlen}
    (h : hasTarget name sumOperands width .i = true)
    (hwidth : width.all (· == ctx.isa.xlen) = true) {rd rs : Nat}
    (hrd : (Token.register .integer rd).Legible ctx)
    (hrs : (Token.register .integer rs).Legible ctx) {v : Int64} (hv : -2048 ≤ v ∧ v ≤ 2047) :
    Encodes cs ctx name (printTokens [.register .integer rd, .mark .comma, .register .integer rs,
      .mark .comma, .constant v]) := by
  refine encodes_of_hasTarget hset h hwidth hset.base ?_ ?_ ?_
  · intro d
    exact ⟨rfl, rfl, rfl, rfl, hv, trivial⟩
  · simp only [List.forall_mem_cons]
    exact ⟨hrd, trivial, hrs, trivial, legible_of_imm12 hv, List.forall_mem_nil _⟩
  · exact ⟨.inr rfl, .inl rfl, .inr rfl, .inl rfl, trivial⟩

theorem encodes_shift (hset : Setting cs ctx) (hxlen : ctx.isa.xlen = .rv64) {rd rs : Nat}
    (hrd : (Token.register .integer rd).Legible ctx)
    (hrs : (Token.register .integer rs).Legible ctx) {v : Int64} (hv : 0 ≤ v ∧ v ≤ 63) :
    Encodes cs ctx "slli" (printTokens [.register .integer rd, .mark .comma, .register .integer rs,
      .mark .comma, .constant v]) := by
  have hlegible : (Token.constant v).Legible ctx :=
    ⟨Int64.le_trans (by decide) hv.1, Int64.lt_of_le_of_lt hv.2 (by decide)⟩
  refine encodes_of_hasTarget hset targets.slli rfl hset.base ?_ ?_ ?_
  · intro d
    rw [hxlen]
    exact ⟨rfl, rfl, rfl, rfl, hv, trivial⟩
  · simp only [List.forall_mem_cons]
    exact ⟨hrd, trivial, hrs, trivial, hlegible, List.forall_mem_nil _⟩
  · exact ⟨.inr rfl, .inl rfl, .inr rfl, .inl rfl, trivial⟩

theorem encodes_jump (hset : Setting cs ctx) {rd rs : Nat}
    (hrd : (Token.register .integer rd).Legible ctx)
    (hrs : (Token.register .integer rs).Legible ctx) :
    Encodes cs ctx "jalr"
      (printTokens [.register .integer rd, .mark .comma, .register .integer rs]) := by
  refine encodes_of_hasTarget hset targets.jalr rfl hset.base ?_ ?_ ?_
  · intro d
    exact ⟨rfl, rfl, rfl, trivial⟩
  · simp only [List.forall_mem_cons]
    exact ⟨hrd, trivial, hrs, List.forall_mem_nil _⟩
  · exact ⟨.inr rfl, .inl rfl, trivial⟩

/-- Loads and stores at the address in a base register. -/
theorem encodes_access (hset : Setting cs ctx) {name : String} {bank : Bank} {ops : List Operand}
    (hops : ops = loadOperands bank ∨ ops = storeOperands bank) {width : Option Xlen}
    {needs : InstructionClass} (h : hasTarget name ops width needs = true)
    (hwidth : width.all (· == ctx.isa.xlen) = true) (hneeds : needs.isPartOf ctx.isa ctx.rvc = true)
    {r base : Nat} (hr : (Token.register bank r).Legible ctx)
    (hbase : (Token.register .integer base).Legible ctx) :
    Encodes cs ctx name (access (bank.print r) base) := by
  rw [access_eq]
  refine encodes_of_hasTarget hset h hwidth hneeds ?_ ?_ ?_
  · intro d
    rcases hops with rfl | rfl
    · exact ⟨rfl, rfl, ⟨by decide, by decide⟩, rfl, rfl, rfl, trivial⟩
    · exact ⟨rfl, rfl, ⟨by decide, by decide⟩, rfl, rfl, rfl, trivial⟩
  · simp only [List.forall_mem_cons]
    exact ⟨hr, trivial, legible_zero, trivial, hbase, trivial, List.forall_mem_nil _⟩
  · exact ⟨.inr rfl, .inl rfl, .inr rfl, .inl rfl, .inr rfl, trivial⟩

end Expansion

/-! ### Steps -/

/-- A step is a label, or an instruction that is encoded again. -/
def Step.Accepted (cs : Catalogs) (ctx : Context) (step : Step) : Prop :=
  match step with
  | .insn mnemonic operands _ => ∃ e,
    cs.instructions.encode { ctx with allowCompressed := step.mayCompress } mnemonic operands =
      .ok e
  | .label _ => True

/-- A relocation that a step gives is against a symbol and is not that of a branch. -/
def Step.Bound : Step → Prop
  | .insn _ _ (some (kind, target)) =>
    (∃ name addend, target = .symbol name addend) ∧ BranchKind.ofReloc? kind = none
  | _ => True

namespace Expansion

variable {cs : Catalogs} {ctx : Context}

/-- The steps of a constant are encoded again. -/
theorem accepted_ofConstant (hset : Setting cs ctx) {reg : Nat}
    (hreg : (Token.register .integer reg).Legible ctx) {step : ConstantStep}
    (h : step.Fits ctx.isa.xlen reg) : (Step.ofConstant step).Accepted cs ctx := by
  cases step with
  | lui rd upper =>
    obtain ⟨rfl, hupper⟩ := h
    have hencodes :=
      encodes_upper hset targets.lui hreg (ofNat_bounds hupper (by decide)).2 true
    rw [← ConstantStep.operands_lui hupper] at hencodes
    exact hencodes
  | addi rd rs imm =>
    obtain ⟨rfl, hrs, hv⟩ := h
    have hencodes := encodes_sum hset targets.addi rfl hreg (legible_source hreg hrs) hv true
    rw [← ConstantStep.threeOperands_eq] at hencodes
    exact hencodes
  | addiw rd rs imm =>
    obtain ⟨hxlen, rfl, hrs, hv⟩ := h
    have hencodes :=
      encodes_sum hset targets.addiw (by rw [hxlen]; rfl) hreg (legible_source hreg hrs) hv true
    rw [← ConstantStep.threeOperands_eq] at hencodes
    exact hencodes
  | slli rd rs amount =>
    obtain ⟨hxlen, rfl, rfl, hamount⟩ := h
    have hencodes :=
      encodes_shift hset hxlen hreg hreg (ofNat_bounds hamount (by decide)).2 true
    rw [← ConstantStep.operands_slli hamount] at hencodes
    exact hencodes

/-- An address in two parts: the steps are encoded again if the second one is. -/
theorem accepted_throughUpper (hset : Setting cs ctx) {label : String} {base : Nat} {target : Expr}
    {upper low : RelocType} {mnemonic : String} {operands : List Char}
    (hbase : (Token.register .integer base).Legible ctx) (hlow : Encodes cs ctx mnemonic operands) :
    ∀ step ∈ throughUpper label base target upper low mnemonic operands,
      step.Accepted cs ctx := by
  have hupper := encodes_upper hset targets.auipc hbase (v := 0) ⟨by decide, by decide⟩
  rw [← withZero_eq] at hupper
  simp only [throughUpper, List.forall_mem_cons]
  exact ⟨trivial, hupper false, hlow false, List.forall_mem_nil _⟩

theorem bound_throughUpper {label : String} {base : Nat} {name : String} {addend : Int64}
    {upper low : RelocType} (hupper : BranchKind.ofReloc? upper = none)
    (hlow : BranchKind.ofReloc? low = none) {mnemonic : String} {operands : List Char} :
    ∀ step ∈ throughUpper label base (.symbol name addend) upper low mnemonic operands,
      step.Bound := by
  simp only [throughUpper, List.forall_mem_cons]
  exact ⟨trivial, ⟨⟨name, addend, rfl⟩, hupper⟩, ⟨⟨label, 0, rfl⟩, hlow⟩, List.forall_mem_nil _⟩

end Expansion

/-! ### What the table provides -/

namespace Template

/-- Whether nothing but an integer register sets the highest bit of a register field. -/
def namesInteger (t : Template) (f : Field) : Bool :=
  f.width == 5 && highRegisterBits.contains (f.shift + 4) &&
    !t.matchBits.getLsbD (f.shift + 4) &&
    t.operands.all fun op => !op.bits.getLsbD (f.shift + 4) || op.isInteger

/-- Whether there is an instruction for the access that an expansion ends with. -/
def hasAccess (t : Template) : PseudoKind → Bool
  | .load => hasTarget t.mnemonic (Expansion.loadOperands .integer) t.width t.needs
  | .floatLoad => hasTarget t.mnemonic (Expansion.loadOperands .float) t.width t.needs
  | .store => hasTarget t.mnemonic (Expansion.storeOperands t.sourceBank) t.width t.needs
  | _ => true

/-- Whether the expansions of a pseudo-instruction are sure to be encoded: its registers can be
printed, the access at their end exists, and what it leaves is a symbol that no branch goes to, or a
constant that is loaded. -/
def isExpandable (t : Template) (kind : PseudoKind) : Bool :=
  (t.integerFields kind).all t.namesInteger && t.hasAccess kind &&
    (kind.takesConstant || !t.operands.any Operand.leavesConstant) &&
    t.operands.all fun | .target _ => false | _ => true

theorem isExpandable_of_mem {t : Template} (h : t ∈ standardTemplates) {kind : PseudoKind}
    (hkind : t.pseudo = some kind) : t.isExpandable kind = true := by
  have ht := of_mem_standardTemplates (fun t => t.pseudo.all t.isExpandable) (by decide +kernel) h
  rw [hkind] at ht
  exact ht

end Template

/-! ### Expansions -/

section

open Expansion

variable {cs : Catalogs} {ctx : Context} {t : Template} {text : List Char} {e : Encoded}

/-- The registers of an encoded instruction can be printed again. -/
theorem Template.legible_of_encode (h : t.encode ctx text = .ok e) {f : Field}
    (hf : t.namesInteger f = true) :
    (Token.register .integer (f.extract e.bits).toNat).Legible ctx := by
  simp only [namesInteger, Bool.and_eq_true, beq_iff_eq, List.contains_iff_mem, Bool.not_eq_true',
    List.all_eq_true, Bool.or_eq_true] at hf
  obtain ⟨⟨⟨hwidth, hhigh⟩, hclear⟩, hops⟩ := hf
  obtain ⟨rs, rest, hwalks, -, hbits, -, -⟩ := exists_walk_of_encode h
  refine ⟨Field.toNat_extract_lt_32 hwidth _, ?_⟩
  intro hreduced _
  rw [hbits]
  exact Field.toNat_extract_lt hwidth
    (getLsbD_addReadings_of_reduced hreduced hwalks hhigh hops hclear)

theorem legible_float {f : Field} (hf : f.width = 5) (w : Word) :
    (Token.register .float (f.extract w).toNat).Legible ctx :=
  ⟨Field.toNat_extract_lt_32 hf w, fun _ h => by cases h⟩

/-- The integer registers of a pseudo-instruction can be printed again. -/
theorem Encoded.legible_register {e₀ : Encoded} (ht : e.template ∈ standardTemplates)
    {kind : PseudoKind} (hkind : e.template.pseudo = some kind)
    (h : e.template.encode ctx text = .ok e₀) (hbits : e.bits = e₀.bits) :
    ∀ f ∈ e.template.integerFields kind, (Token.register .integer (e.register f)).Legible ctx := by
  have hexpandable := Template.isExpandable_of_mem ht hkind
  simp only [Template.isExpandable, Bool.and_eq_true, List.all_eq_true] at hexpandable
  unfold Encoded.register
  rw [hbits]
  exact fun f hf => Template.legible_of_encode h (hexpandable.1.1.1 f hf)

/-- So can the register that a store is from, of either bank. -/
theorem Encoded.legible_source (e : Encoded)
    (hregister : ∀ f ∈ e.template.integerFields .store,
      (Token.register .integer (e.register f)).Legible ctx) :
    (Token.register e.template.sourceBank (e.register .rs2)).Legible ctx := by
  cases hbank : e.template.sourceBank with
  | float => exact legible_float rfl _
  | integer => exact hregister .rs2 (by simp [Template.integerFields, hbank])

/-- The base register of a low part can be printed again. -/
theorem PseudoKind.LowPart.legible {kind : PseudoKind} {xlen : Xlen} {base : Nat} {low : RelocType}
    {mnemonic : String} {operands : List Char}
    (h : kind.LowPart e xlen base low mnemonic operands)
    (hregister : ∀ f ∈ e.template.integerFields kind,
      (Token.register .integer (e.register f)).Legible ctx) :
    (Token.register .integer base).Legible ctx := by
  cases h with
  | sum names | address names => exact hregister .rd names
  | load => exact hregister .rd List.mem_cons_self
  | floatLoad => exact hregister .rs1 List.mem_cons_self
  | store => exact hregister .rs1 e.template.rs1_mem_integerFields_store

theorem accepted_constants (hset : Setting cs ctx) {reg : Nat}
    (hreg : (Token.register .integer reg).Legible ctx) (value : Int64) :
    ∀ step ∈ (loadConstant ctx.isa.xlen reg value).map Step.ofConstant, step.Accepted cs ctx := by
  intro step hstep
  obtain ⟨c, hc, rfl⟩ := List.mem_map.1 hstep
  exact accepted_ofConstant hset hreg (fits_loadConstant _ _ _ c hc)

/-- What a low part goes into is encoded again. -/
theorem PseudoKind.LowPart.encodes (hset : Setting cs ctx) {kind : PseudoKind} {base : Nat}
    {low : RelocType} {mnemonic : String} {operands : List Char}
    (h : kind.LowPart e ctx.isa.xlen base low mnemonic operands)
    (hregister : ∀ f ∈ e.template.integerFields kind,
      (Token.register .integer (e.register f)).Legible ctx)
    (haccess : e.template.hasAccess kind = true) (heligible : e.template.eligible ctx = true) :
    Encodes cs ctx mnemonic operands := by
  simp only [Template.eligible, Bool.and_eq_true] at heligible
  obtain ⟨⟨hwidth, hneeds⟩, -⟩ := heligible
  have hbase := h.legible hregister
  cases h with
  | sum =>
    rw [sumWithZero_eq]
    exact encodes_sum hset targets.addi rfl hbase hbase ⟨by decide, by decide⟩
  | address =>
    cases hxlen : ctx.isa.xlen with
    | rv32 => exact encodes_access hset (.inl rfl) targets.lw rfl hset.base hbase hbase
    | rv64 =>
      exact encodes_access hset (.inl rfl) targets.ld (by rw [hxlen]; rfl) hset.base hbase hbase
  | load => exact encodes_access hset (.inl rfl) haccess hwidth hneeds hbase hbase
  | floatLoad =>
    exact encodes_access hset (.inl rfl) haccess hwidth hneeds (legible_float rfl _) hbase
  | store =>
    exact encodes_access hset (.inr rfl) haccess hwidth hneeds (e.legible_source hregister) hbase

/-- **Every step of an expansion is encoded**, whatever the immediate. -/
theorem accepted_of_steps (hset : Setting cs ctx) {e₀ : Encoded}
    (ht : e.template ∈ standardTemplates) {kind : PseudoKind}
    (hkind : e.template.pseudo = some kind)
    (heligible : e.template.eligible ctx = true) (h : e.template.encode ctx text = .ok e₀)
    (hbits : e.bits = e₀.bits) {imm : Expr} {pic : Bool} {next next' : Nat} {steps : List Step}
    (hsteps : kind.steps e imm ctx.isa.xlen pic next = .ok (steps, next')) :
    ∀ step ∈ steps, step.Accepted cs ctx := by
  have hregister := Encoded.legible_register ht hkind h hbits
  cases PseudoKind.forms_of_steps hsteps with
  | constant takes value =>
    exact accepted_constants hset (hregister .rd (e.template.rd_mem_integerFields takes)) value
  | parts _ _ takesLow =>
    have hexpandable := Template.isExpandable_of_mem ht hkind
    simp only [Template.isExpandable, Bool.and_eq_true] at hexpandable
    exact accepted_throughUpper hset (takesLow.legible hregister)
      (takesLow.encodes hset hregister hexpandable.1.1.2 heligible)
  | call =>
    have hrd := hregister .rd List.mem_cons_self
    have hrs := hregister .rs1 (List.mem_cons_of_mem _ List.mem_cons_self)
    have hupper := encodes_upper hset targets.auipc hrs (v := 0) ⟨by decide, by decide⟩
    rw [← withZero_eq] at hupper
    have hjump := encodes_jump hset hrd hrs
    rw [← jump_eq] at hjump
    simp only [List.forall_mem_cons]
    exact ⟨hupper false, hjump true, List.forall_mem_nil _⟩

theorem bound_constants (xlen : Xlen) (reg : Nat) (value : Int64) :
    ∀ step ∈ (loadConstant xlen reg value).map Step.ofConstant, step.Bound := by
  intro step hstep
  obtain ⟨c, -, rfl⟩ := List.mem_map.1 hstep
  trivial

/-- What an expansion is left with that loads no constant is a symbol, and no branch goes to it. -/
theorem Template.symbol_of_leftover {kind : PseudoKind} (h : t.isExpandable kind = true) {imm : Expr}
    (hsymbolic : kind.takesConstant = true → ∀ value, imm ≠ .constant value)
    {reloc : Option RelocType} (hleft : Leftover t.operands (some imm) reloc) :
    ∃ name addend, imm = .symbol name addend ∧ BranchKind.ofReloc? (reloc.getD .call) = none := by
  simp only [isExpandable, Bool.and_eq_true, Bool.or_eq_true, Bool.not_eq_true'] at h
  obtain ⟨⟨-, hconstant⟩, hbranch⟩ := h
  cases hleft with
  | constant v hop =>
    rcases hconstant with htakes | hnone
    · exact absurd rfl (hsymbolic htakes v)
    · rw [List.any_eq_true.2 hop] at hnone
      cases hnone
  | symbol name addend kind' htarget =>
    refine ⟨name, addend, rfl, ?_⟩
    cases hk : BranchKind.ofReloc? kind' with
    | none => exact hk
    | some k => cases List.all_eq_true.1 hbranch _ (htarget k hk)

/-- **Every relocation of an expansion is against a symbol**, and none is that of a branch. -/
theorem bound_of_steps (ht : e.template ∈ standardTemplates) {kind : PseudoKind}
    (hkind : e.template.pseudo = some kind) {imm : Expr}
    (hleft : Leftover e.template.operands (some imm) e.reloc)
    {xlen : Xlen} {pic : Bool} {next next' : Nat} {steps : List Step}
    (hsteps : kind.steps e imm xlen pic next = .ok (steps, next')) :
    ∀ step ∈ steps, step.Bound := by
  have hexpandable := Template.isExpandable_of_mem ht hkind
  cases PseudoKind.forms_of_steps hsteps with
  | constant takes value => exact bound_constants _ _ value
  | parts symbolic high takesLow =>
    obtain ⟨name, addend, rfl, -⟩ := Template.symbol_of_leftover hexpandable symbolic hleft
    exact bound_throughUpper (RelocType.ofReloc?_of_isUpperPart high)
      (RelocType.ofReloc?_of_isLowPart takesLow.isLowPart)
  | call =>
    obtain ⟨name, addend, rfl, hreloc⟩ :=
      Template.symbol_of_leftover hexpandable (fun h => by cases h) hleft
    simp only [List.forall_mem_cons]
    exact ⟨⟨⟨name, addend, rfl⟩, hreloc⟩, trivial, List.forall_mem_nil _⟩

end

end RiscvAssembler
