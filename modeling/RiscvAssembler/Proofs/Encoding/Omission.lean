import Mathlib.Data.List.DropRight
import RiscvAssembler.Proofs.Encoding.Front
import RiscvAssembler.Proofs.Encoding.Locality
import RiscvAssembler.Proofs.Encoding.Outcome
import RiscvAssembler.Proofs.Encoding.Printed

/-!
Offsets that are left out. Before the parenthesis of a base register, no operand tells an offset of
zero from a missing one: an offset takes both as zero, and every other operand refuses both
(`readOperands_paren`). Operands do not look past a comma, so the same holds after any operands and
a comma (`readOperands_append_comma`), and with it for whole instructions
(`omitted_offsets_are_zero`).
-/

namespace RiscvAssembler

open Text

namespace Context

variable {ctx : Context}

theorem expression_paren (hev : ctx.evaluator = Evaluator.basic) (s : List Char) :
    ctx.expression ('(' :: s) = none := by
  unfold expression
  rw [hev]
  rfl

theorem expression_zero (hev : ctx.evaluator = Evaluator.basic) (s : List Char) :
    ctx.expression ('0' :: '(' :: s) = some (.constant 0, '(' :: s) := by
  refine expression_print hev (v := 0) (by decide) ?_
  rintro c hc
  cases hc
  decide

end Context

/-! ### Operands before a parenthesis -/

namespace Operand

/-- Whether an operand takes the parenthesis of a base register, or lets it stand for an offset. -/
def opensBase (op : Operand) : Bool :=
  op.mayBeOmitted || op == .mark .leftParen

variable {ctx : Context} {op : Operand} {s : List Char} (mnemonic : String) (word : Word)

theorem read_paren_of_mayBeOmitted (h : op.mayBeOmitted = true) (hs : '(' ∉ s) :
    op.read ctx mnemonic word ('(' :: s) = .ok (.value 0, '(' :: s) :=
  if_pos ⟨h, by simpa [Reading.baseFollows] using hs⟩

/-- No other operand takes a parenthesis. -/
theorem read_paren (hev : ctx.evaluator = Evaluator.basic) (h : op.opensBase = false) :
    op.read ctx mnemonic word ('(' :: s) = .error .differs := by
  obtain ⟨homitted, hmark⟩ := Bool.or_eq_false_iff.1 h
  refine read_of_stranger mnemonic word (by decide) (Context.expression_paren hev s) ?_
    (by simp [homitted])
  cases op with
  | mark m =>
    cases m with
    | leftParen => cases hmark
    | comma | rightParen => rfl
  | _ => rfl

/-- What an operand makes of a zero before a parenthesis. Only a major opcode must not be zero. -/
theorem exists_read_zero (hev : ctx.evaluator = Evaluator.basic) (op : Operand) (s : List Char) :
    ∃ outcome : Except Refusal Reading,
      op.read ctx mnemonic word ('0' :: '(' :: s) = outcome.map (·, '(' :: s) ∧
        (op ≠ .opcode → ∀ e, outcome = .error e → e = .differs) ∧
        (op.mayBeOmitted = true → outcome = .ok (.value 0)) := by
  have hexpression := Context.expression_zero hev s
  by_cases hname : op.isName = true
  · have hzero : op.startsWith '0' = false := by
      cases op with
      | mark m => cases m <;> rfl
      | _ => rfl
    refine ⟨.error .differs, read_of_isName mnemonic word hname (by decide) hzero, by simp,
      fun h => ?_⟩
    rw [mayBeOmitted_of_isName hname] at h
    cases h
  unfold read
  rw [if_neg (by simp [Reading.baseFollows])]
  cases op with
  | mark | register | bothSources | shortRegister | repeated | fixed | keyword =>
    exact absurd rfl hname
  | ranged r =>
    refine ⟨.ok (.value 0), ?_, by simp, fun _ => rfl⟩
    simp only [Reading.ranged, Reading.upTo, hexpression]
    rw [if_pos]
    · rfl
    · cases r <;> cases ctx.isa.xlen <;> decide
  | csr =>
    refine ⟨.ok (.value 0), ?_, by simp, fun _ => rfl⟩
    simp only [Reading.csr, Csr.lookup, Reading.ranged, Reading.upTo, hexpression]
    rw [lookupAnyCase_eq_none Csr.startWithLetter_names rfl]
    rfl
  | imm12 i =>
    refine ⟨.ok (.value 0), ?_, by simp, fun _ => rfl⟩
    simp only [Reading.imm12, Reading.modified, hexpression]
    rfl
  | upper =>
    refine ⟨.ok (.value 0), ?_, by simp, fun _ => rfl⟩
    simp only [Reading.upper, Reading.modified, hexpression]
    rfl
  | zeroOffset | zero =>
    refine ⟨.ok (.value 0), ?_, by simp, fun _ => rfl⟩
    simp only [Reading.constantWith, hexpression]
    rfl
  | compressedImm i =>
    simp only [Reading.constantWith, hexpression]
    cases hallows : i.allows ctx.isa.xlen 0 with
    | true => exact ⟨.ok (.value 0), rfl, by simp, fun _ => rfl⟩
    | false =>
      refine ⟨.error .differs, rfl, by simp, fun h => ?_⟩
      rw [allows_zero_of_mayBeOmitted h] at hallows
      cases hallows
  | tprelAdd =>
    refine ⟨.error .differs, ?_, by simp, by simp [mayBeOmitted]⟩
    simp only [Reading.tprelAdd, Reading.modified, hexpression]
    rfl
  | target | symbol =>
    refine ⟨.error .differs, ?_, by simp, by simp [mayBeOmitted]⟩
    simp only [Reading.symbol, hexpression]
    rfl
  | call =>
    refine ⟨.error .differs, ?_, by simp, by simp [mayBeOmitted]⟩
    simp only [Reading.call, hexpression]
    rfl
  | constant =>
    refine ⟨.ok (.pending (.constant 0) none), ?_, by simp, by simp [mayBeOmitted]⟩
    simp only [Reading.constant, hexpression]
    rfl
  | address =>
    refine ⟨.ok (.pending (.constant 0) none), ?_, by simp, by simp [mayBeOmitted]⟩
    simp only [Reading.address, hexpression]
    rfl
  | opcode =>
    refine ⟨.error (.fault (.outOfRange "32-bit opcode (low bits must be 0b11)" 0 3 127)), ?_,
      fun h => absurd rfl h, by simp [mayBeOmitted]⟩
    simp only [Reading.opcode, majorOpcode?, Reading.upTo, hexpression]
    rw [lookupName_eq_none (by decide) rfl, if_pos (by decide)]
    exact if_neg (show ¬ (0 : Int64).toBitVec &&& 0b11 = 0b11 by decide)

end Operand

/-! ### Texts before a parenthesis -/

namespace Template

variable {ctx : Context} {mnemonic : String}

theorem readOperands_dropBlanks (d : Draft) (ops : List Operand) (s : List Char) :
    readOperands ctx mnemonic d ops (dropBlanks s) = readOperands ctx mnemonic d ops s := by
  have hdrop : dropBlanks (dropBlanks s) = dropBlanks s := List.dropWhile_idempotent _ _
  cases ops with
  | nil => simp only [readOperands, hdrop]
  | cons op ops => simp only [readOperands, hdrop]

/-- Whether neither the first operand nor the second one takes the parenthesis of a base. -/
def startsShut : List Operand → Bool
  | [] => true
  | op :: ops => !op.opensBase && !ops.head?.any Operand.opensBase

/-- Whether operands take a base register with an offset of zero and one without an offset alike. -/
def treatsAlike : List Operand → Bool
  | [] => true
  | op :: ops => op.mayBeOmitted || (op != .opcode && startsShut (op :: ops))

/-- Whether operands treat the two alike after each comma. -/
def treatsAlikeLater : List Operand → Bool
  | [] => true
  | op :: ops => (op != .mark .comma || treatsAlike ops) && treatsAlikeLater ops

theorem readOperands_paren_of_head (hev : ctx.evaluator = Evaluator.basic) (ops : List Operand)
    (h : ops.head?.any Operand.opensBase = false) (d : Draft) (s : List Char) :
    readOperands ctx mnemonic d ops ('(' :: s) = .error .differs := by
  cases ops with
  | nil => rfl
  | cons op ops =>
    unfold readOperands
    rw [show dropBlanks ('(' :: s) = '(' :: s from rfl, Operand.read_paren mnemonic d.bits hev h]
    rfl

/-- Where no operand takes the parenthesis, neither text is read. -/
theorem readOperands_of_startsShut (hev : ctx.evaluator = Evaluator.basic) {op : Operand}
    {ops : List Operand} (h : startsShut (op :: ops) = true) (d : Draft) (s : List Char) :
    readOperands ctx mnemonic d (op :: ops) ('(' :: s) = .error .differs ∧
      ∃ e, readOperands ctx mnemonic d (op :: ops) ('0' :: '(' :: s) = .error e ∧
        (op ≠ .opcode → e = .differs) := by
  obtain ⟨hop, hops⟩ := Bool.and_eq_true_iff.1 h
  rw [Bool.not_eq_true'] at hop hops
  refine ⟨readOperands_paren_of_head hev (op :: ops) hop d s, ?_⟩
  obtain ⟨outcome, hread, hdiffers, -⟩ :=
    Operand.exists_read_zero mnemonic d.bits hev op s
  unfold readOperands
  rw [show dropBlanks ('0' :: '(' :: s) = '0' :: '(' :: s from rfl, hread]
  cases outcome with
  | error e => exact ⟨e, rfl, fun hne => hdiffers hne e rfl⟩
  | ok r =>
    -- The zero was taken, and the next operand stands before the parenthesis.
    refine ⟨.differs, ?_, fun _ => rfl⟩
    simp only [Except.map, bind, Except.bind]
    rw [readOperands_paren_of_head hev ops hops]

/-- **A missing offset is read like zero** at the front of a text. -/
theorem readOperands_paren (hev : ctx.evaluator = Evaluator.basic) {ops : List Operand}
    (h : treatsAlike ops = true) (d : Draft) {s : List Char} (hs : '(' ∉ s) :
    readOperands ctx mnemonic d ops ('(' :: s) =
      readOperands ctx mnemonic d ops ('0' :: '(' :: s) := by
  cases ops with
  | nil => rfl
  | cons op ops =>
    rcases Bool.or_eq_true_iff.1 h with homitted | hshut
    · obtain ⟨outcome, hread, -, hzero⟩ :=
        Operand.exists_read_zero mnemonic d.bits hev op s
      rw [hzero homitted] at hread
      unfold readOperands
      rw [show dropBlanks ('(' :: s) = '(' :: s from rfl,
        show dropBlanks ('0' :: '(' :: s) = '0' :: '(' :: s from rfl, hread,
        Operand.read_paren_of_mayBeOmitted mnemonic d.bits homitted hs]
      rfl
    · obtain ⟨hopcode, hshut⟩ := Bool.and_eq_true_iff.1 hshut
      obtain ⟨hparen, e, hzero, he⟩ := readOperands_of_startsShut hev hshut d s
      rw [hparen, hzero, he (bne_iff_ne.1 hopcode)]

/-- **A missing offset is read like zero after a comma**, whatever operands stand before it. -/
theorem readOperands_append_comma (hev : ctx.evaluator = Evaluator.basic) {ops : List Operand}
    (h : treatsAlikeLater ops = true) (d : Draft) (before : List Char) {blanks : List Char}
    (hblanks : ∀ b ∈ blanks, isBlank b = true) {s : List Char} (hs : '(' ∉ s) :
    readOperands ctx mnemonic d ops (before ++ ',' :: (blanks ++ '(' :: s)) =
      readOperands ctx mnemonic d ops (before ++ ',' :: (blanks ++ '0' :: '(' :: s)) := by
  induction ops generalizing d before with
  | nil =>
    unfold readOperands
    rw [dropBlanks_append rfl, dropBlanks_append rfl, if_neg (by simp), if_neg (by simp)]
  | cons op ops ih =>
    obtain ⟨hhead, hops⟩ := Bool.and_eq_true_iff.1 h
    unfold readOperands
    rw [dropBlanks_append rfl, dropBlanks_append rfl]
    by_cases hcomma : op = .mark .comma ∧ dropBlanks before = []
    · -- The comma is taken, and the two texts part.
      obtain ⟨rfl, hbefore⟩ := hcomma
      have hparen : dropBlanks (blanks ++ '(' :: s) = '(' :: s :=
        dropWhile_run hblanks (by simp [isBlank])
      have hzero : dropBlanks (blanks ++ '0' :: '(' :: s) = '0' :: '(' :: s :=
        dropWhile_run hblanks (by simp [isBlank])
      have hlater : readOperands ctx mnemonic d ops (blanks ++ '(' :: s) =
          readOperands ctx mnemonic d ops (blanks ++ '0' :: '(' :: s) := by
        rw [← readOperands_dropBlanks, hparen, ← readOperands_dropBlanks d ops (blanks ++ _), hzero]
        exact readOperands_paren hev hhead d hs
      rw [hbefore]
      change (readOperands ctx mnemonic d ops (blanks ++ '(' :: s) >>= _) =
        (readOperands ctx mnemonic d ops (blanks ++ '0' :: '(' :: s) >>= _)
      rw [hlater]
    · obtain ⟨outcome, hread⟩ := Operand.exists_read_append hev mnemonic d.bits
        fun hop hnil => hcomma ⟨hop, hnil⟩
      rw [hread _ (by simp), hread _ (by simp)]
      cases outcome with
      | error e => rfl
      | ok found =>
        obtain ⟨r, rest⟩ := found
        simp only [Except.map, bind, Except.bind, followedBy]
        rw [ih hops]

theorem encode_congr {t : Template} {s s' : List Char}
    (h : readOperands ctx t.mnemonic t.start t.operands s =
      readOperands ctx t.mnemonic t.start t.operands s') : t.encode ctx s = t.encode ctx s' := by
  unfold encode
  rw [h]

/-- Where no operand takes the parenthesis, neither text is encoded. -/
theorem not_encode_of_startsShut (hev : ctx.evaluator = Evaluator.basic) {t : Template}
    (hne : t.operands ≠ []) (h : startsShut t.operands = true) (s : List Char) (e : Encoded) :
    t.encode ctx ('(' :: s) ≠ .ok e ∧ t.encode ctx ('0' :: '(' :: s) ≠ .ok e := by
  unfold encode
  cases hops : t.operands with
  | nil => exact absurd hops hne
  | cons op ops =>
    rw [hops] at h
    obtain ⟨hparen, r, hzero, -⟩ := readOperands_of_startsShut hev h t.start s
    rw [hparen, hzero]
    exact ⟨nofun, nofun⟩

/-- Every instruction treats the two alike, in front and after each comma. -/
theorem treatsAlike_of_mem {t : Template} (h : t ∈ standardTemplates) :
    treatsAlike t.operands = true ∧ treatsAlikeLater t.operands = true :=
  Bool.and_eq_true_iff.1 (of_mem_standardTemplates
    (fun t => treatsAlike t.operands && treatsAlikeLater t.operands) (by decide +kernel) h)

/-- An instruction given field by field never starts with an offset. -/
theorem treatsAlike_of_mem_fieldTypes {t : Template}
    (h : t ∈ Table.fieldTypeRows.map Row.asTemplate) :
    (t.operands ≠ [] ∧ startsShut t.operands = true) ∧ treatsAlikeLater t.operands = true := by
  have hshut := of_mem_fieldTypes (fun t =>
    (t.operands ≠ [] && startsShut t.operands) && treatsAlikeLater t.operands) (by decide +kernel) h
  simpa using hshut

end Template

/-! ### Instructions -/

/-- The texts after which an operand may start: nothing, and whatever ends in a comma and blanks. -/
def StartsOperand (before : List Char) : Prop :=
  before = [] ∨
    ∃ operands blanks, before = operands ++ ',' :: blanks ∧ ∀ b ∈ blanks, isBlank b = true

theorem encodeFirst_congr {ctx : Context} {s s' : List Char} {ts : List Template}
    (h : ∀ t ∈ ts, t.encode ctx s = t.encode ctx s') :
    encodeFirst ctx s ts = encodeFirst ctx s' ts := by
  induction ts with
  | nil => rfl
  | cons t ts ih =>
    obtain ⟨ht, hts⟩ := List.forall_mem_cons.1 h
    unfold encodeFirst
    rw [ht, ih hts]

theorem encodeWith_eq_ok_iff {ctx : Context} {mnemonic : String} {ts : List Template}
    {s : List Char} {e : Encoded} :
    encodeWith ctx mnemonic ts s = .ok e ↔
      encodeFirst ctx s (ts.filter (Template.eligible ctx)) = .ok e := by
  unfold encodeWith
  cases ts.filter (Template.eligible ctx) with
  | nil => exact ⟨nofun, nofun⟩
  | cons t us =>
    dsimp only
    cases encodeFirst ctx s (t :: us) with
    | ok e' => simp
    | error r => cases r <;> simp

/-- Texts that each candidate encodes alike are encoded alike. -/
theorem encodeWith_congr {ctx : Context} {mnemonic : String} {ts : List Template}
    {s s' : List Char} (h : ∀ t ∈ ts, t.encode ctx s = t.encode ctx s') (e : Encoded) :
    encodeWith ctx mnemonic ts s = .ok e ↔ encodeWith ctx mnemonic ts s' = .ok e := by
  rw [encodeWith_eq_ok_iff, encodeWith_eq_ok_iff,
    encodeFirst_congr fun t ht => h t (List.mem_filter.1 ht).1]

/-- **An offset that is left out is zero.** Before a base register and nothing else with a
parenthesis, an instruction is accepted without an offset if and only if it is accepted with an
offset of zero: by the same template, with the same word, expression and relocation. -/
theorem omitted_offsets_are_zero {cs : Catalogs} (hcs : Catalogs.standard = .ok cs) {c : Catalog}
    (hc : c = cs.instructions ∨ c = cs.fieldTypes) {ctx : Context}
    (hev : ctx.evaluator = Evaluator.basic) (name : String) {before : List Char}
    (hbefore : StartsOperand before) {base : List Char} (hbase : '(' ∉ base) (e : Encoded) :
    c.encode ctx name (before ++ '(' :: base) = .ok e ↔
      c.encode ctx name (before ++ '0' :: '(' :: base) = .ok e := by
  have hinstruction : ∀ t ∈ cs.instructions.lookup name, t ∈ standardTemplates := by
    intro t ht
    rw [lookup_standard hcs] at ht
    exact (List.mem_filter.1 ht).1
  have hfieldType : ∀ t ∈ cs.fieldTypes.lookup name,
      t ∈ Table.fieldTypeRows.map Row.asTemplate := by
    intro t ht
    have hbuild := (build_of_standard hcs).2
    rw [Catalog.lookup_eq_filter hbuild, Catalog.templates_eq_map hbuild] at ht
    exact (List.mem_filter.1 ht).1
  unfold Catalog.encode
  rcases hbefore with rfl | ⟨operands, blanks, rfl, hblanks⟩
  · rcases hc with rfl | rfl
    · exact encodeWith_congr (fun t ht => Template.encode_congr (Template.readOperands_paren hev
        (Template.treatsAlike_of_mem (hinstruction t ht)).1 _ hbase)) e
    · -- Fields come first, so neither text is accepted.
      have hrefused : ∀ t ∈ cs.fieldTypes.lookup name, t.encode ctx ('(' :: base) ≠ .ok e ∧
          t.encode ctx ('0' :: '(' :: base) ≠ .ok e := by
        intro t ht
        obtain ⟨⟨hne, hshut⟩, -⟩ := Template.treatsAlike_of_mem_fieldTypes (hfieldType t ht)
        exact Template.not_encode_of_startsShut hev hne hshut base e
      constructor
      · intro h
        obtain ⟨t, ht, -, hencode⟩ := exists_of_encodeWith h
        exact absurd hencode (hrefused t ht).1
      · intro h
        obtain ⟨t, ht, -, hencode⟩ := exists_of_encodeWith h
        exact absurd hencode (hrefused t ht).2
  · have hlater : ∀ t ∈ c.lookup name, Template.treatsAlikeLater t.operands = true := by
      intro t ht
      rcases hc with rfl | rfl
      · exact (Template.treatsAlike_of_mem (hinstruction t ht)).2
      · exact (Template.treatsAlike_of_mem_fieldTypes (hfieldType t ht)).2
    simp only [List.append_assoc, List.cons_append]
    exact encodeWith_congr (fun t ht => Template.encode_congr
      (Template.readOperands_append_comma hev (hlater t ht) _ operands hblanks hbase)) e

/-- A load from the stack, in two bytes with or without an offset of zero. -/
theorem omitted_offsets_are_zero_lwsp :
    ∃ cs e, Catalogs.standard = .ok cs ∧ StartsOperand "a0, \t".toList ∧
      '(' ∉ " sp )".toList ∧
      cs.instructions.encode ⟨generalIsa, true, false, true, .basic⟩ "lw" "a0, \t( sp )".toList =
        .ok e ∧
      e.bits = 0x4502 ∧ e.template.isCompressed = true ∧
      cs.instructions.encode ⟨generalIsa, true, false, true, .basic⟩ "lw" "a0, \t0( sp )".toList =
        .ok e := by
  obtain ⟨cs, hcs⟩ := Catalogs.exists_standard
  have hbefore : StartsOperand "a0, \t".toList :=
    .inr ⟨"a0".toList, " \t".toList, rfl, by simp [isBlank]⟩
  have hword : (cs.instructions.encode ⟨generalIsa, true, false, true, .basic⟩ "lw"
      "a0, \t( sp )".toList).toOption.any
        (fun e => e.bits == 0x4502 && e.template.isCompressed) = true := by
    rw [Catalog.encode, lookup_standard hcs]
    decide +kernel
  obtain ⟨e, he, hfound⟩ := (Option.any_eq_true _ _).1 hword
  obtain ⟨hbits, hcompressed⟩ := Bool.and_eq_true_iff.1 hfound
  have hparen := eq_ok_of_toOption he
  exact ⟨cs, e, hcs, hbefore, by decide, hparen, eq_of_beq hbits, hcompressed,
    (omitted_offsets_are_zero hcs (.inl rfl) rfl "lw" hbefore (by decide) e).1 hparen⟩

end RiscvAssembler
