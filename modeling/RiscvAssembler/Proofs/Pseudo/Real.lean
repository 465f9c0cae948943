import RiscvAssembler.Proofs.Pseudo.Words

/-!
No step of an expansion is a pseudo-instruction again. Most steps have names that no pseudo-instruction
has. An access shares its name with the pseudo-instruction that it is a step of, which takes a symbol
where the access has its offset, a zero with a base register after it. So the two are told apart by
every evaluator that reads no symbol there (`Evaluator.ReadsOffsets`).
-/

namespace RiscvAssembler

/-! ### Offsets of accesses -/

/-- An evaluator takes no offset of an access for a symbol: none is read where a zero stands right
before a base register. -/
def Evaluator.ReadsOffsets (ev : Evaluator) : Prop :=
  ∀ rest name addend more, ev ('0' :: '(' :: rest) ≠ some (.symbol name addend, more)

theorem Evaluator.readsOffsets_basic : basic.ReadsOffsets := by
  intro rest name addend more h
  have hterm : term? ('0' :: '(' :: rest) = some (false, .number 0, '(' :: rest) := by
    rfl
  have hsum : moreTerms ⟨0, none, 1⟩ ('(' :: rest) = some (⟨0, none, 1⟩, '(' :: rest) := by
    rw [moreTerms]
    rfl
  have hbasic : basic ('0' :: '(' :: rest) = some (.constant 0, '(' :: rest) := by
    unfold basic
    rw [hterm, Option.bind_eq_bind, Option.bind_some]
    change ((moreTerms ⟨0, none, 1⟩ ('(' :: rest)).bind _) = _
    rw [hsum]
    rfl
  rw [hbasic] at h
  cases h

theorem Evaluator.readsOffsets_hex : hex.ReadsOffsets := by
  intro rest name addend more h
  unfold hex at h
  obtain ⟨n, -, hn⟩ := Option.map_eq_some_iff.1 h
  cases hn

theorem Context.expression_ne_symbol {ctx : Context} (h : ctx.evaluator.ReadsOffsets)
    (rest : List Char) (name : String) (addend : Int64) (more : List Char) :
    ctx.expression ('0' :: '(' :: rest) ≠ some (.symbol name addend, more) := by
  intro hexpr
  obtain ⟨⟨read, more'⟩, hread, hnormal⟩ := Option.map_eq_some_iff.1 hexpr
  cases read with
  | constant v =>
    unfold normalize at hnormal
    dsimp only at hnormal
    split at hnormal <;> cases hnormal
  | symbol name' addend' => exact h _ _ _ _ hread
  | register name' => cases hnormal

/-- A register name is read to its end. -/
theorem Register.rest_of_lookup {bank : Bank} {reduced : Bool} {s rest : List Char} {n : Nat}
    (h : lookup bank reduced s = some (n, rest)) : rest = s.dropWhile Text.isWordChar := by
  obtain ⟨hfound, -⟩ := Option.filter_eq_some_iff.1 h
  obtain ⟨m, -, hm⟩ := Option.map_eq_some_iff.1 hfound
  cases hm
  rfl

/-- Whether operands are a register and a symbol, and perhaps more. -/
def Operand.symbolSecond : List Operand → Bool
  | .register _ _ :: .mark .comma :: .symbol :: _ => true
  | _ => false

open Expansion in
/-- An access is not read as a register and a symbol. -/
theorem Template.encode_access_ne_ok {t : Template} (ht : Operand.symbolSecond t.operands = true)
    {ctx : Context} (hev : ctx.evaluator.ReadsOffsets) (bank : Bank) (r base : Nat) (e : Encoded) :
    t.encode ctx (access (bank.print r) base) ≠ .ok e := by
  intro h
  obtain ⟨rs, rest, hwalks, -⟩ := exists_walk_of_encode h
  have htext : Text.dropBlanks (access (bank.print r) base) =
      bank.print r ++ ',' :: ' ' :: '0' :: '(' :: (integer base ++ [')']) := by
    cases bank <;> simp [access, Bank.print, integer, float, Text.dropBlanks, Text.isBlank]
  unfold Operand.symbolSecond at ht
  split at ht
  · rename_i bank' slot ops hops
    rw [hops] at hwalks
    obtain ⟨_, after, _, -, hregister, _, after', _, -, hcomma, _, _, _, -, hsymbol, -⟩ := hwalks
    -- The register ends at the comma, so the symbol is looked for where the offset stands.
    have hafter : after = ',' :: ' ' :: '0' :: '(' :: (integer base ++ [')']) := by
      rw [htext] at hregister
      obtain ⟨n, hfound, -⟩ := Reading.number_eq_ok_iff.1 hregister
      rw [Register.rest_of_lookup hfound, Text.dropWhile_run]
      · exact fun c hc => Bank.isWordChar_of_mem_print hc
      · rintro c hc
        cases hc
        rfl
    have hafter' : Text.dropBlanks after' = '0' :: '(' :: (integer base ++ [')']) := by
      rw [hafter] at hcomma
      cases hcomma
      rfl
    rw [hafter'] at hsymbol
    change Reading.symbol ctx .abs32 _ = _ at hsymbol
    unfold Reading.symbol at hsymbol
    split at hsymbol
    · rename_i name addend more hexpr
      exact Context.expression_ne_symbol hev _ name addend more hexpr
    · cases hsymbol
  · cases ht

/-! ### Steps -/

/-- The pseudo-instructions that take no symbol after a register. -/
def symbollessMnemonics : List String :=
  ["call", "tail", "jump", "li", "la", "lla"]

/-- What tells pseudo-instructions from the steps of expansions. -/
structure Template.Recognizable (t : Template) (kind : PseudoKind) : Prop where
  plain : t.mnemonic ∉ "auipc" :: plainMnemonics
  symbol : t.mnemonic ∉ symbollessMnemonics → Operand.symbolSecond t.operands = true
  access : kind ∈ [.load, .floatLoad, .store] → t.mnemonic ∉ symbollessMnemonics

theorem Template.recognizable_of_mem {t : Template} (h : t ∈ standardTemplates) {kind : PseudoKind}
    (hkind : t.pseudo = some kind) : t.Recognizable kind := by
  have ht := of_mem_standardTemplates (fun t => t.pseudo.all fun kind =>
    !("auipc" :: plainMnemonics).contains t.mnemonic &&
      (symbollessMnemonics.contains t.mnemonic || Operand.symbolSecond t.operands) &&
      (!(List.contains [.load, .floatLoad, .store] kind) ||
        !symbollessMnemonics.contains t.mnemonic))
    (by decide +kernel) h
  rw [hkind] at ht
  simp only [Option.all_some, Bool.and_eq_true, Bool.or_eq_true, Bool.not_eq_true',
    List.contains_eq_mem, decide_eq_false_iff_not, decide_eq_true_eq] at ht
  obtain ⟨⟨hplain, hsymbol⟩, haccess⟩ := ht
  exact ⟨hplain, hsymbol.resolve_left, fun hmem => haccess.resolve_left (not_not_intro hmem)⟩

/-- A step that is not read as a pseudo-instruction. -/
def Step.Real (cs : Catalogs) (ev : Evaluator) : Step → Prop
  | .label _ => True
  | .insn mnemonic operands _ => ∀ (ctx : Context) (e : Encoded), ctx.evaluator = ev →
    cs.instructions.encode ctx mnemonic operands = .ok e → e.template.isPseudo = false

section

open Expansion

variable {cs : Catalogs} {ev : Evaluator} {mnemonic : String} {operands : List Char}

/-- A step is real if no pseudo-instruction of its name takes its text. -/
theorem Step.real_of_ne_ok (hcs : Catalogs.standard = .ok cs) (reloc : Option (RelocType × Expr))
    (h : ∀ t kind, Template.Recognizable t kind → t.mnemonic = mnemonic →
      ∀ ctx e, ctx.evaluator = ev → t.encode ctx operands ≠ .ok e) :
    (Step.insn mnemonic operands reloc).Real cs ev := by
  intro ctx e hctx hencode
  have hbuild := (build_of_standard hcs).1
  have hmnemonic := Catalog.mnemonic_of_encode hbuild hencode
  obtain ⟨hmem, -, hencode⟩ := Catalog.exists_of_encode hbuild hencode
  cases hpseudo : e.template.pseudo with
  | none => exact congrArg Option.isSome hpseudo
  | some kind =>
    have hrecognizable := Template.recognizable_of_mem hmem hpseudo
    exact absurd hencode (h _ kind hrecognizable hmnemonic ctx e hctx)

theorem real_of_plain (hcs : Catalogs.standard = .ok cs)
    (hplain : mnemonic ∈ "auipc" :: plainMnemonics) (operands : List Char)
    (reloc : Option (RelocType × Expr)) : (Step.insn mnemonic operands reloc).Real cs ev := by
  refine Step.real_of_ne_ok hcs reloc ?_
  rintro t kind ht rfl
  exact absurd hplain ht.plain

theorem real_of_access (hcs : Catalogs.standard = .ok cs) (hev : ev.ReadsOffsets)
    (hmnemonic : mnemonic ∉ symbollessMnemonics) (bank : Bank) (r base : Nat)
    (reloc : Option (RelocType × Expr)) :
    (Step.insn mnemonic (access (bank.print r) base) reloc).Real cs ev := by
  refine Step.real_of_ne_ok hcs reloc ?_
  rintro t kind ht rfl ctx e rfl
  exact Template.encode_access_ne_ok (ht.symbol hmnemonic) hev bank r base e

theorem real_constants (hcs : Catalogs.standard = .ok cs) (steps : List ConstantStep) :
    ∀ step ∈ steps.map Step.ofConstant, step.Real cs ev := by
  intro step hstep
  obtain ⟨c, -, rfl⟩ := List.mem_map.1 hstep
  exact real_of_plain hcs (List.mem_cons_of_mem _ c.plain.1) _ _

theorem real_throughUpper (hcs : Catalogs.standard = .ok cs) {label : String} {base : Nat}
    {target : Expr} {upper low : RelocType}
    (h : (Step.insn mnemonic operands (some (low, .symbol label 0))).Real cs ev) :
    ∀ step ∈ throughUpper label base target upper low mnemonic operands, step.Real cs ev := by
  simp only [throughUpper, List.forall_mem_cons]
  exact ⟨trivial, real_of_plain hcs List.mem_cons_self _ _, h, List.forall_mem_nil _⟩

/-- What a low part goes into is real. -/
theorem PseudoKind.LowPart.real (hcs : Catalogs.standard = .ok cs) (hev : ev.ReadsOffsets)
    {e : Encoded} {xlen : Xlen} {kind : PseudoKind} {base : Nat} {low : RelocType}
    (h : kind.LowPart e xlen base low mnemonic operands) (ht : e.template.Recognizable kind)
    (reloc : Option (RelocType × Expr)) : (Step.insn mnemonic operands reloc).Real cs ev := by
  cases h with
  | sum => exact real_of_plain hcs (by simp [plainMnemonics]) _ _
  | address =>
    refine real_of_access hcs hev ?_ .integer _ _ _
    cases xlen with
    | rv32 => simp [loadAddress, symbollessMnemonics]
    | rv64 => simp [loadAddress, symbollessMnemonics]
  | load => exact real_of_access hcs hev (ht.access (by simp)) .integer _ _ _
  | floatLoad => exact real_of_access hcs hev (ht.access (by simp)) .float _ _ _
  | store => exact real_of_access hcs hev (ht.access (by simp)) e.template.sourceBank _ _ _

/-- **No step of an expansion is read as a pseudo-instruction.** -/
theorem real_of_steps (hcs : Catalogs.standard = .ok cs) (hev : ev.ReadsOffsets) {e : Encoded}
    (ht : e.template ∈ standardTemplates) {kind : PseudoKind}
    (hkind : e.template.pseudo = some kind) {imm : Expr} {xlen : Xlen} {pic : Bool}
    {next next' : Nat} {steps : List Step}
    (h : kind.steps e imm xlen pic next = .ok (steps, next')) : ∀ step ∈ steps, step.Real cs ev := by
  cases PseudoKind.forms_of_steps h with
  | constant => exact real_constants hcs _
  | parts _ _ takesLow =>
    exact real_throughUpper hcs
      (takesLow.real hcs hev (Template.recognizable_of_mem ht hkind) _)
  | call =>
    simp only [List.forall_mem_cons]
    exact ⟨real_of_plain hcs List.mem_cons_self _ _,
      real_of_plain hcs (by simp [plainMnemonics]) _ _, List.forall_mem_nil _⟩

end

end RiscvAssembler
