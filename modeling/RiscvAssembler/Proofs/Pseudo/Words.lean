import RiscvAssembler.Proofs.Encoding.Exact
import RiscvAssembler.Proofs.Encoding.Relocations
import RiscvAssembler.Proofs.Pseudo.Steps

/-!
The words of expansions. A step without a relocation gets none from its operands; one with a relocation
is encoded in four bytes with the field of the relocation clear, since zero is printed there
(`clear_of_steps`). The two words of a call are known (`encode_upper`, `encode_jump`).
-/

namespace RiscvAssembler

/-! ### Instructions without relocations -/

theorem Catalog.mnemonic_of_encode {rows : List Row} {c : Catalog} (hc : build rows = .ok c)
    {ctx : Context} {mnemonic : String} {s : List Char} {e : Encoded}
    (h : c.encode ctx mnemonic s = .ok e) : e.template.mnemonic = mnemonic := by
  obtain ⟨t, ht, -, hencode⟩ := exists_of_encodeWith h
  obtain ⟨-, -, -, htemplate, -⟩ := Template.exists_walk_of_encode hencode
  rw [lookup_eq_filter hc] at ht
  rw [htemplate]
  exact beq_iff_eq.1 (List.mem_filter.1 ht).2

/-- The instructions that expansions give no relocation. -/
def plainMnemonics : List String :=
  ["lui", "addi", "addiw", "slli", "jalr"]

theorem Text.percent_notMem_decimal (n : Int) : '%' ∉ Text.decimal n := by
  intro h
  have hdigit : ∀ k : Nat, '%' ∉ Nat.toDigits 10 k := by
    intro k hk
    have := Nat.isDigit_of_mem_toDigits (by decide) (by decide) hk
    cases this
  unfold Text.decimal at h
  split at h
  · rcases List.mem_cons.1 h with h | h
    · cases h
    · exact hdigit _ h
  · exact hdigit _ h

theorem ConstantStep.plain (c : ConstantStep) :
    c.mnemonic ∈ plainMnemonics ∧ '%' ∉ c.operands := by
  cases c with
  | lui rd upper =>
    exact ⟨by simp [mnemonic, plainMnemonics], by simp [operands, Text.percent_notMem_decimal]⟩
  | addi rd rs imm =>
    exact ⟨by simp [mnemonic, plainMnemonics], by simp [operands, threeOperands, Text.percent_notMem_decimal]⟩
  | addiw rd rs imm =>
    exact ⟨by simp [mnemonic, plainMnemonics], by simp [operands, threeOperands, Text.percent_notMem_decimal]⟩
  | slli rd rs amount =>
    exact ⟨by simp [mnemonic, plainMnemonics], by simp [operands, threeOperands, Text.percent_notMem_decimal]⟩

theorem Expansion.percent_notMem_jump (rd rs : Nat) :
    '%' ∉ integer rd ++ ", ".toList ++ integer rs := by
  simp [integer, Text.percent_notMem_decimal]

/-! ### Exact templates -/

namespace Expansion

/-- The word of the upper part of an address in `base`, zero as yet. -/
def upperWord (base : Nat) : Word :=
  Field.rd.insert 0x17 (BitVec.ofNat 64 base)

/-- The word of a jump to the address in `base`, with the return address in `link`. -/
def jumpWord (link base : Nat) : Word :=
  Field.rs1.insert (Field.rd.insert 0x67 (BitVec.ofNat 64 link)) (BitVec.ofNat 64 base)

/-- The instructions that searches of expansions end at. -/
structure Exact : Prop where
  auipc : exactBits? false "auipc" upperOperands none .i = some 0x17
  jalr : exactBits? true "jalr" jumpOperands none .i = some 0x67
  addi : (exactBits? false "addi" sumOperands none .i).isSome = true
  lw : (exactBits? false "lw" (loadOperands .integer) none .i).isSome = true
  ld : (exactBits? false "ld" (loadOperands .integer) (some .rv64) .i).isSome = true

theorem exact : Exact := by
  have hall :
      (exactBits? false "auipc" upperOperands none .i == some 0x17 &&
        exactBits? true "jalr" jumpOperands none .i == some 0x67 &&
        (exactBits? false "addi" sumOperands none .i).isSome &&
        (exactBits? false "lw" (loadOperands .integer) none .i).isSome &&
        (exactBits? false "ld" (loadOperands .integer) (some .rv64) .i).isSome) = true := by
    simp only [exactBits?, standardTemplates_eq_map]
    decide +kernel
  simp only [Bool.and_eq_true, beq_iff_eq] at hall
  obtain ⟨⟨⟨⟨auipc, jalr⟩, addi⟩, lw⟩, ld⟩ := hall
  exact ⟨auipc, jalr, addi, lw, ld⟩

end Expansion

/-- Whether the search for the access that an expansion ends with ends at its instruction. -/
def Template.hasExactAccess (t : Template) : PseudoKind → Bool
  | .load =>
    (exactBits? false t.mnemonic (Expansion.loadOperands .integer) t.width t.needs).isSome
  | .floatLoad =>
    (exactBits? false t.mnemonic (Expansion.loadOperands .float) t.width t.needs).isSome
  | .store =>
    (exactBits? false t.mnemonic (Expansion.storeOperands t.sourceBank) t.width t.needs).isSome
  | _ => true

/-- What is checked of every template for the sake of expansions. -/
structure Template.Steady (t : Template) : Prop where
  plain : t.mnemonic ∈ plainMnemonics → readsModifierFirst t.operands = true
  upper : t.mnemonic = "auipc" → t.length = 4
  access : ∀ kind, t.pseudo = some kind → t.hasExactAccess kind = true

theorem Template.steady_of_mem {t : Template} (h : t ∈ standardTemplates) : t.Steady := by
  have ht := of_mem_standardTemplates
    (fun t => (!plainMnemonics.contains t.mnemonic || readsModifierFirst t.operands) &&
      (t.mnemonic != "auipc" || t.length == 4) && t.pseudo.all t.hasExactAccess)
    (by decide +kernel) h
  simp only [Bool.and_eq_true, Bool.or_eq_true] at ht
  obtain ⟨⟨hplain, hupper⟩, haccess⟩ := ht
  refine ⟨fun hmnemonic => ?_, fun hmnemonic => ?_, fun kind hkind => ?_⟩
  · exact hplain.resolve_left (by simp [hmnemonic])
  · exact beq_iff_eq.1 (hupper.resolve_left (by simp [hmnemonic]))
  · rw [hkind] at haccess
    exact haccess

theorem reloc_eq_none_of_plain {cs : Catalogs} (hcs : Catalogs.standard = .ok cs) {ctx : Context}
    {mnemonic : String} (hplain : mnemonic ∈ plainMnemonics) {operands : List Char}
    (hoperands : '%' ∉ operands) {e : Encoded}
    (h : cs.instructions.encode ctx mnemonic operands = .ok e) : e.reloc = none := by
  have hbuild := (build_of_standard hcs).1
  obtain ⟨hmem, -, hencode⟩ := Catalog.exists_of_encode hbuild h
  have hmnemonic := Catalog.mnemonic_of_encode hbuild h
  exact Template.reloc_eq_none_of_encode ((Template.steady_of_mem hmem).plain (hmnemonic ▸ hplain))
    hencode hoperands

theorem length_of_auipc {cs : Catalogs} (hcs : Catalogs.standard = .ok cs) {ctx : Context}
    {operands : List Char} {e : Encoded}
    (h : cs.instructions.encode ctx "auipc" operands = .ok e) : e.length = 4 := by
  have hbuild := (build_of_standard hcs).1
  obtain ⟨hmem, -, -⟩ := Catalog.exists_of_encode hbuild h
  exact (Template.steady_of_mem hmem).upper (Catalog.mnemonic_of_encode hbuild h)

/-! ### Words -/

section

open Expansion

variable {cs : Catalogs} {ctx : Context}

/-- The text of zero leaves the field of a relocation clear. -/
theorem clear_of_exactBits? (hset : Setting cs ctx) {name : String} {ops : List Operand}
    {width : Option Xlen} {needs : InstructionClass}
    (h : (exactBits? false name ops width needs).isSome = true)
    (hwidth : width.all (· == ctx.isa.xlen) = true) (hneeds : needs.isPartOf ctx.isa ctx.rvc = true)
    {τs : List Token} (htakes : ∀ d, TakesAll ctx.isa.xlen d ops τs)
    (hlegible : ∀ τ ∈ τs, τ.Legible ctx) (hpunct : Punctuated τs) {i : Imm12}
    (hzero : (.imm12 i, .constant 0) ∈ ops.zip τs) {e : Encoded}
    (he : cs.instructions.encode { ctx with allowCompressed := false } name (printTokens τs) =
      .ok e) :
    e.length = 4 ∧ e.bits &&& (Operand.imm12 i).bits = 0 := by
  obtain ⟨fixed, hfixed⟩ := Option.isSome_iff_exists.1 h
  have hbasic : ({ ctx with allowCompressed := false } : Context).evaluator = .basic :=
    hset.evaluator
  obtain ⟨e', he', hlength, -, hbits⟩ := encode_of_exactBits? hset.standard hbasic hfixed hwidth
    hneeds htakes hlegible hpunct
  cases he.symm.trans he'
  have hnothing : (Operand.imm12 i).contribution (.value 0) = 0 := by cases i <;> decide
  exact ⟨hlength, (hbits _ _ hzero).trans hnothing⟩

/-- The upper part of an address is encoded as a word without a value. -/
theorem encode_upper (hset : Setting cs ctx) {base : Nat}
    (hbase : (Token.register .integer base).Legible ctx) :
    ∃ e, cs.instructions.encode { ctx with allowCompressed := false } "auipc" (withZero base) =
      .ok e ∧ e.length = 4 ∧ e.bits = upperWord base := by
  have hbasic : ({ ctx with allowCompressed := false } : Context).evaluator = .basic :=
    hset.evaluator
  have htakes : ∀ d, TakesAll ctx.isa.xlen d upperOperands
      [.register .integer base, .mark .comma, .constant 0] :=
    fun d => ⟨rfl, rfl, ⟨by decide, by decide⟩, trivial⟩
  have hlegible : ∀ τ ∈ [Token.register .integer base, .mark .comma, .constant 0],
      τ.Legible ctx := by
    simp only [List.forall_mem_cons]
    exact ⟨hbase, trivial, legible_zero, List.forall_mem_nil _⟩
  obtain ⟨e, he, hlength, hbits, -⟩ := encode_of_exactBits? hset.standard hbasic exact.auipc rfl
    hset.base htakes hlegible ⟨.inr rfl, .inl rfl, trivial⟩
  rw [withZero_eq]
  exact ⟨e, he, hlength, hbits.trans BitVec.or_zero⟩

/-- The jump of a call is encoded in four bytes, also where it could be compressed. -/
theorem encode_jump (hset : Setting cs ctx) {link base : Nat}
    (hlink : (Token.register .integer link).Legible ctx)
    (hbase : (Token.register .integer base).Legible ctx) :
    ∃ e, cs.instructions.encode { ctx with allowCompressed := true } "jalr"
      (integer link ++ ", ".toList ++ integer base) = .ok e ∧
        e.length = 4 ∧ e.bits = jumpWord link base := by
  have hbasic : ({ ctx with allowCompressed := true } : Context).evaluator = .basic :=
    hset.evaluator
  have htakes : ∀ d, TakesAll ctx.isa.xlen d jumpOperands
      [.register .integer link, .mark .comma, .register .integer base] :=
    fun d => ⟨rfl, rfl, rfl, trivial⟩
  have hlegible : ∀ τ ∈ [Token.register .integer link, .mark .comma, .register .integer base],
      τ.Legible ctx := by
    simp only [List.forall_mem_cons]
    exact ⟨hlink, trivial, hbase, List.forall_mem_nil _⟩
  obtain ⟨e, he, hlength, hbits, -⟩ := encode_of_exactBits? hset.standard hbasic exact.jalr rfl
    hset.base htakes hlegible ⟨.inr rfl, .inl rfl, trivial⟩
  rw [jump_eq]
  exact ⟨e, he, hlength, hbits⟩

end

/-! ### Steps -/

/-- A step leaves room for its relocation: without one it gets none, and with one it is encoded in the
bytes of the relocation, with the field clear. -/
def Step.Clear (cs : Catalogs) (ctx : Context) : Step → Prop
  | .label _ => True
  | .insn mnemonic operands none => ∀ e,
    cs.instructions.encode { ctx with allowCompressed := true } mnemonic operands = .ok e →
      e.reloc = none
  | .insn mnemonic operands (some (kind, _)) =>
    (kind.isUpperPart = true ∨ kind.isLowPart = true) ∧ ∀ e,
      cs.instructions.encode { ctx with allowCompressed := false } mnemonic operands = .ok e →
        e.length = kind.info.size ∧ e.bits &&& kind.info.mask = 0

section

open Expansion

variable {cs : Catalogs} {ctx : Context} {e : Encoded}

theorem RelocType.info_of_isUpperPart {kind : RelocType} (h : kind.isUpperPart = true) :
    kind.info.size = 4 ∧ kind.info.mask = 0xfffff000 := by
  cases kind with
  | pcrelHi20 | gotHi20 | tlsGdHi20 | tlsGotHi20 => exact ⟨rfl, rfl⟩
  | _ => cases h

theorem RelocType.size_of_isLowPart {kind : RelocType} (h : kind.isLowPart = true) :
    kind.info.size = 4 := by
  cases kind with
  | pcrelLo12I | pcrelLo12S => rfl
  | _ => cases h

theorem clear_constants (hcs : Catalogs.standard = .ok cs) (steps : List ConstantStep) :
    ∀ step ∈ steps.map Step.ofConstant, step.Clear cs ctx := by
  intro step hstep
  obtain ⟨c, -, rfl⟩ := List.mem_map.1 hstep
  exact fun e he => reloc_eq_none_of_plain hcs c.plain.1 c.plain.2 he

/-- An address in two parts leaves room for both if its access does. -/
theorem clear_throughUpper (hset : Setting cs ctx) {label : String} {base : Nat} {target : Expr}
    {upper low : RelocType} (hupper : upper.isUpperPart = true) (hlow : low.isLowPart = true)
    {mnemonic : String} {operands : List Char}
    (hbase : (Token.register .integer base).Legible ctx)
    (haccess : ∀ e, cs.instructions.encode { ctx with allowCompressed := false } mnemonic operands =
      .ok e → e.length = low.info.size ∧ e.bits &&& low.info.mask = 0) :
    ∀ step ∈ throughUpper label base target upper low mnemonic operands, step.Clear cs ctx := by
  obtain ⟨hsize, hmask⟩ := RelocType.info_of_isUpperPart hupper
  simp only [throughUpper, List.forall_mem_cons]
  refine ⟨trivial, ⟨.inl hupper, fun e he => ?_⟩, ⟨.inr hlow, haccess⟩, List.forall_mem_nil _⟩
  obtain ⟨e', he', hlength, hbits⟩ := encode_upper hset hbase
  cases he.symm.trans he'
  rw [hsize, hmask, hbits]
  exact ⟨hlength, Field.insert_and_of_apart (by decide) _ _⟩

/-- The sum of a base register and the low part of an address leaves room for the low part. -/
theorem clear_sum (hset : Setting cs ctx) {rd base : Nat}
    (hrd : (Token.register .integer rd).Legible ctx)
    (hbase : (Token.register .integer base).Legible ctx)
    (he : cs.instructions.encode { ctx with allowCompressed := false } "addi" (sumWithZero rd base) =
      .ok e) :
    e.length = RelocType.pcrelLo12I.info.size ∧ e.bits &&& RelocType.pcrelLo12I.info.mask = 0 := by
  rw [sumWithZero_eq] at he
  refine clear_of_exactBits? hset exact.addi rfl hset.base ?_ ?_ ?_ (i := .arithmetic) ?_ he
  · exact fun d => ⟨rfl, rfl, rfl, rfl, ⟨by decide, by decide⟩, trivial⟩
  · simp only [List.forall_mem_cons]
    exact ⟨hrd, trivial, hbase, trivial, legible_zero, List.forall_mem_nil _⟩
  · exact ⟨.inr rfl, .inl rfl, .inr rfl, .inl rfl, trivial⟩
  · simp [sumOperands]

/-- So do loads and stores at the address in a base register. -/
theorem clear_access (hset : Setting cs ctx) {name : String} {bank : Bank} {ops : List Operand}
    {low : RelocType} (hops : ops = loadOperands bank ∧ low = .pcrelLo12I ∨
      ops = storeOperands bank ∧ low = .pcrelLo12S)
    {width : Option Xlen} {needs : InstructionClass}
    (h : (exactBits? false name ops width needs).isSome = true)
    (hwidth : width.all (· == ctx.isa.xlen) = true) (hneeds : needs.isPartOf ctx.isa ctx.rvc = true)
    {r base : Nat} (hr : (Token.register bank r).Legible ctx)
    (hbase : (Token.register .integer base).Legible ctx)
    (he : cs.instructions.encode { ctx with allowCompressed := false } name
      (access (bank.print r) base) = .ok e) :
    e.length = low.info.size ∧ e.bits &&& low.info.mask = 0 := by
  rw [access_eq] at he
  have hlegible : ∀ τ ∈ [.register bank r, .mark .comma, .constant 0, .mark .leftParen,
      .register .integer base, .mark .rightParen], Token.Legible ctx τ := by
    simp only [List.forall_mem_cons]
    exact ⟨hr, trivial, legible_zero, trivial, hbase, trivial, List.forall_mem_nil _⟩
  have hpunct : Punctuated [.register bank r, .mark .comma, .constant 0, .mark .leftParen,
      .register .integer base, .mark .rightParen] :=
    ⟨.inr rfl, .inl rfl, .inr rfl, .inl rfl, .inr rfl, trivial⟩
  rcases hops with ⟨rfl, rfl⟩ | ⟨rfl, rfl⟩
  · refine clear_of_exactBits? hset h hwidth hneeds ?_ hlegible hpunct (i := .loadOffset)
      (by simp [loadOperands]) he
    exact fun d => ⟨rfl, rfl, ⟨by decide, by decide⟩, rfl, rfl, rfl, trivial⟩
  · refine clear_of_exactBits? hset h hwidth hneeds ?_ hlegible hpunct (i := .storeOffset)
      (by simp [storeOperands]) he
    exact fun d => ⟨rfl, rfl, ⟨by decide, by decide⟩, rfl, rfl, rfl, trivial⟩

/-- What a low part goes into leaves room for it. -/
theorem PseudoKind.LowPart.clear (hset : Setting cs ctx) {kind : PseudoKind} {base : Nat}
    {low : RelocType} {mnemonic : String} {operands : List Char}
    (h : kind.LowPart e ctx.isa.xlen base low mnemonic operands)
    (hregister : ∀ f ∈ e.template.integerFields kind,
      (Token.register .integer (e.register f)).Legible ctx)
    (haccess : e.template.hasExactAccess kind = true) (heligible : e.template.eligible ctx = true)
    {e' : Encoded}
    (he : cs.instructions.encode { ctx with allowCompressed := false } mnemonic operands = .ok e') :
    e'.length = low.info.size ∧ e'.bits &&& low.info.mask = 0 := by
  simp only [Template.eligible, Bool.and_eq_true] at heligible
  obtain ⟨⟨hwidth, hneeds⟩, -⟩ := heligible
  have hbase := h.legible hregister
  cases h with
  | sum => exact clear_sum hset hbase hbase he
  | address =>
    cases hxlen : ctx.isa.xlen with
    | rv32 =>
      rw [hxlen] at he
      exact clear_access hset (.inl ⟨rfl, rfl⟩) exact.lw rfl hset.base hbase hbase he
    | rv64 =>
      rw [hxlen] at he
      exact clear_access hset (.inl ⟨rfl, rfl⟩) exact.ld (by rw [hxlen]; rfl) hset.base hbase hbase he
  | load => exact clear_access hset (.inl ⟨rfl, rfl⟩) haccess hwidth hneeds hbase hbase he
  | floatLoad =>
    exact clear_access hset (.inl ⟨rfl, rfl⟩) haccess hwidth hneeds (legible_float rfl _) hbase he
  | store =>
    exact clear_access hset (.inr ⟨rfl, rfl⟩) haccess hwidth hneeds (e.legible_source hregister)
      hbase he

/-- **Every step of an expansion leaves room for its relocation**, but for calls, whose relocation is
for both of their words. -/
theorem clear_of_steps (hset : Setting cs ctx) {e₀ : Encoded}
    (ht : e.template ∈ standardTemplates) {kind : PseudoKind}
    (hkind : e.template.pseudo = some kind) (hcall : kind ≠ .call)
    (heligible : e.template.eligible ctx = true) {text : List Char}
    (h : e.template.encode ctx text = .ok e₀)
    (hbits : e.bits = e₀.bits) {imm : Expr} {pic : Bool} {next next' : Nat} {steps : List Step}
    (hsteps : kind.steps e imm ctx.isa.xlen pic next = .ok (steps, next')) :
    ∀ step ∈ steps, step.Clear cs ctx := by
  have hregister := Encoded.legible_register ht hkind h hbits
  cases PseudoKind.forms_of_steps hsteps with
  | constant => exact clear_constants hset.standard _
  | parts _ high takesLow =>
    exact clear_throughUpper hset high takesLow.isLowPart (takesLow.legible hregister) fun _ he =>
      takesLow.clear hset hregister ((Template.steady_of_mem ht).access kind hkind) heligible he
  | call => exact absurd rfl hcall

end

end RiscvAssembler
