import RiscvAssembler.Proofs.Encoding.Compression
import RiscvAssembler.Proofs.Encoding.Integrity

/-!
What encoding returns. An encoded instruction comes from an eligible template of its catalog
(`Catalog.exists_of_encode`). It leaves at most one expression: a constant for an expansion, or a
symbol with the relocation against it (`Leftover`). The word of a compressed branch has a form of 32
bits (`expand_of_target`), and with sixteen registers no register field names a higher one
(`getLsbD_addReadings_of_reduced`).
-/

namespace RiscvAssembler

/-! ### Expressions left -/

/-- What operands leave for later: nothing, a constant, or a symbol with its relocation. -/
inductive Leftover (ops : List Operand) : Option Expr → Option RelocType → Prop where
  | nothing : Leftover ops none none
  | constant (v : Int64) (hop : ∃ op ∈ ops, op.leavesConstant = true) :
    Leftover ops (some (.constant v)) none
  | symbol (name : String) (addend : Int64) (kind : RelocType)
    (hbranch : ∀ k, BranchKind.ofReloc? kind = some k → .target k ∈ ops) :
    Leftover ops (some (.symbol name addend)) (some kind)

theorem Leftover.cons {ops : List Operand} {imm : Option Expr} {reloc : Option RelocType}
    (h : Leftover ops imm reloc) (op : Operand) : Leftover (op :: ops) imm reloc := by
  cases h with
  | nothing => exact .nothing
  | constant v hop =>
    obtain ⟨op', hmem, hop'⟩ := hop
    exact .constant v ⟨op', List.mem_cons_of_mem _ hmem, hop'⟩
  | symbol name addend kind hbranch =>
    exact .symbol name addend kind fun k hk => List.mem_cons_of_mem _ (hbranch k hk)

/-- A relocation is against a symbol. -/
theorem Leftover.symbol_of_reloc {ops : List Operand} {imm : Option Expr} {kind : RelocType}
    (h : Leftover ops imm (some kind)) : ∃ name addend, imm = some (.symbol name addend) := by
  cases h with
  | symbol name addend => exact ⟨name, addend, rfl⟩

namespace Template

variable {ctx : Context} {mnemonic : String} {ops : List Operand} {d : Draft}
  {s rest : List Char} {rs : List Reading}

/-- Operands that leave nothing keep what is left. -/
theorem addReadings_keeps (h : Walks ctx mnemonic d ops s rs rest)
    (hops : ops.countP Operand.isDeferred = 0) :
    (addReadings d ops rs).imm = d.imm ∧ (addReadings d ops rs).reloc = d.reloc := by
  induction ops generalizing d s rs with
  | nil => exact ⟨rfl, rfl⟩
  | cons op ops ih =>
    obtain ⟨r, after, more, rfl, hread, hwalks⟩ := h
    rw [List.countP_eq_zero] at hops
    obtain ⟨hop, hops⟩ := List.forall_mem_cons.1 hops
    obtain ⟨himm, hreloc⟩ := ih hwalks (List.countP_eq_zero.2 hops)
    have hkept : (d.add op r).imm = d.imm ∧ (d.add op r).reloc = d.reloc := by
      cases Operand.gives_of_read hread with
      | nothing => exact ⟨rfl, rfl⟩
      | value v => exact ⟨rfl, rfl⟩
      | folded => exact ⟨rfl, rfl⟩
      | constant hconstant => exact absurd (Operand.isDeferred_of_leavesConstant hconstant) hop
      | symbol hdeferred => exact absurd hdeferred hop
    exact ⟨himm.trans hkept.1, hreloc.trans hkept.2⟩

/-- Operands of which one may leave an expression leave at most one. -/
theorem leftover_of_walks (h : Walks ctx mnemonic d ops s rs rest)
    (hops : ops.countP Operand.isDeferred ≤ 1) (himm : d.imm = none) (hreloc : d.reloc = none) :
    Leftover ops (addReadings d ops rs).imm (addReadings d ops rs).reloc := by
  induction ops generalizing d s rs with
  | nil =>
    change Leftover [] d.imm d.reloc
    rw [himm, hreloc]
    exact .nothing
  | cons op ops ih =>
    obtain ⟨r, after, more, rfl, hread, hwalks⟩ := h
    rw [List.countP_cons] at hops
    have htail : op.isDeferred = true → ops.countP Operand.isDeferred = 0 := by
      intro hop
      rw [if_pos hop] at hops
      omega
    rw [addReadings]
    cases Operand.gives_of_read hread with
    | nothing => exact (ih hwalks (by omega) himm hreloc).cons op
    | value v => exact (ih hwalks (by omega) himm hreloc).cons op
    | folded => exact (ih hwalks (by omega) himm hreloc).cons op
    | constant hconstant v =>
      obtain ⟨himm', hreloc'⟩ :=
        addReadings_keeps hwalks (htail (Operand.isDeferred_of_leavesConstant hconstant))
      rw [himm', hreloc', Draft.add, hreloc]
      exact .constant v ⟨op, List.mem_cons_self, hconstant⟩
    | symbol hdeferred name addend hbranch =>
      obtain ⟨himm', hreloc'⟩ := addReadings_keeps hwalks (htail hdeferred)
      rw [himm', hreloc', Draft.add]
      exact .symbol name addend _ fun k hk => hbranch k hk ▸ List.mem_cons_self

/-! ### Encoded instructions -/

/-- What a template returns. -/
theorem exists_readings_of_encode {t : Template} {e : Encoded} (h : t.encode ctx s = .ok e) :
    ∃ rs, readOperands ctx t.mnemonic t.start t.operands s = .ok rs ∧ e.template = t ∧
      e.bits = t.word rs ∧ e.imm = (addReadings t.start t.operands rs).imm ∧
      e.reloc = (addReadings t.start t.operands rs).reloc := by
  obtain ⟨rs, hread, h⟩ := bind_eq_ok_iff.1 h
  dsimp only at h
  split at h
  · cases h
    exact ⟨rs, hread, rfl, rfl, rfl, rfl⟩
  · cases h

theorem exists_walk_of_encode {t : Template} {e : Encoded} (h : t.encode ctx s = .ok e) :
    ∃ rs rest, Walks ctx t.mnemonic t.start t.operands s rs rest ∧ e.template = t ∧
      e.bits = t.word rs ∧ e.imm = (addReadings t.start t.operands rs).imm ∧
      e.reloc = (addReadings t.start t.operands rs).reloc := by
  obtain ⟨rs, hread, hencoded⟩ := exists_readings_of_encode h
  obtain ⟨rest, hwalks, -⟩ := readOperands_eq_ok_iff.1 hread
  exact ⟨rs, rest, hwalks, hencoded⟩

theorem leftover_of_encode {t : Template} (ht : t.defersOnce = true) {e : Encoded}
    (h : t.encode ctx s = .ok e) : Leftover t.operands e.imm e.reloc := by
  obtain ⟨rs, rest, hwalks, -, -, himm, hreloc⟩ := exists_walk_of_encode h
  rw [himm, hreloc]
  exact leftover_of_walks hwalks (of_decide_eq_true ht) rfl rfl

end Template

/-- An encoded instruction comes from a candidate that may be used. -/
theorem exists_of_encodeFirst {ctx : Context} {s : List Char} {ts : List Template} {e : Encoded}
    (h : encodeFirst ctx s ts = .ok e) : ∃ t ∈ ts, t.encode ctx s = .ok e := by
  induction ts with
  | nil => cases h
  | cons t ts ih =>
    unfold encodeFirst at h
    split at h
    · obtain ⟨t', ht', hencode⟩ := ih h
      exact ⟨t', List.mem_cons_of_mem _ ht', hencode⟩
    · exact ⟨t, List.mem_cons_self, h⟩

theorem exists_of_encodeWith {ctx : Context} {mnemonic : String} {ts : List Template}
    {s : List Char} {e : Encoded} (h : encodeWith ctx mnemonic ts s = .ok e) :
    ∃ t ∈ ts, t.eligible ctx = true ∧ t.encode ctx s = .ok e := by
  unfold encodeWith at h
  split at h
  · cases h
  · rename_i t ts' hfilter
    split at h
    · rename_i e' hfirst
      cases h
      obtain ⟨t', ht', hencode⟩ := exists_of_encodeFirst hfirst
      rw [← hfilter] at ht'
      obtain ⟨hmem, heligible⟩ := List.mem_filter.1 ht'
      exact ⟨t', hmem, heligible, hencode⟩
    · cases h
    · cases h

/-- An encoded instruction of a catalog comes from a row of it that may be used. -/
theorem Catalog.exists_of_encode {rows : List Row} {c : Catalog} (hc : build rows = .ok c)
    {ctx : Context} {mnemonic : String} {s : List Char} {e : Encoded}
    (h : c.encode ctx mnemonic s = .ok e) :
    e.template ∈ rows.map Row.asTemplate ∧ e.template.eligible ctx = true ∧
      e.template.encode ctx s = .ok e := by
  obtain ⟨t, ht, heligible, hencode⟩ := exists_of_encodeWith h
  obtain ⟨-, -, -, htemplate, -⟩ := Template.exists_walk_of_encode hencode
  rw [lookup_eq_filter hc, templates_eq_map hc] at ht
  rw [htemplate]
  exact ⟨(List.mem_filter.1 ht).1, heligible, hencode⟩

/-! ### Compressed branches -/

/-- Whether a word has a form of 32 bits is told by the bits of a compressed branch. -/
theorem BranchWord.isOk_expand (w : Word) :
    (expand w).isOk = [0xa001, 0x2001, 0xc001, 0xe001].contains (w &&& shortBranchBits).toNat := by
  unfold expand shortBranchBits
  dsimp only
  generalize (w &&& 0xe003).toNat = n
  split
  · rfl
  · rfl
  · rfl
  · rfl
  · rename_i hj hjal hbeqz hbnez
    have hnone : [0xa001, 0x2001, 0xc001, 0xe001].contains n = false := by
      simp only [List.contains_cons, List.contains_nil, Bool.or_false, Bool.or_eq_false_iff,
        beq_eq_false_iff_ne]
      exact ⟨hj, hjal, hbeqz, hbnez⟩
    rw [hnone]
    rfl

/-- Bits that are all fixed are those of the template. -/
theorem Template.bits_and_of_encode {ctx : Context} {t : Template} (hreal : t.isPseudo = false)
    (hvalid : t.validate (some t.length) = .ok ()) {s : List Char} {e : Encoded}
    (h : t.encode ctx s = .ok e) {m : Word} (hm : t.maskBits &&& m = m) :
    e.bits &&& m = t.matchBits &&& m := by
  obtain ⟨rs, rest, hwalks, -, hbits, -, -⟩ := exists_walk_of_encode h
  rw [hbits]
  apply and_eq_and_of_getLsbD
  intro i hi
  apply getLsbD_word hwalks
  apply getLsbD_operandBits_of_validate hreal hvalid
  rw [← hm, BitVec.getLsbD_and, Bool.and_eq_true] at hi
  exact .inl hi.1

/-- **The words of compressed branches have a form of 32 bits.** -/
theorem Template.expand_of_target {ctx : Context} {t : Template} (ht : t.hasWideForm = true)
    (hreal : t.isPseudo = false) (hvalid : t.validate (some t.length) = .ok ()) {k : BranchKind}
    (hk : k.isShort = true) (htarget : .target k ∈ t.operands) {s : List Char} {e : Encoded}
    (h : t.encode ctx s = .ok e) : ∃ w, BranchWord.expand e.bits = .ok w := by
  have hop := List.all_eq_true.1 ht _ htarget
  simp only [hk, Bool.not_true, Bool.false_or, Bool.and_eq_true, beq_iff_eq] at hop
  obtain ⟨hmask, hok⟩ := hop
  rw [BranchWord.isOk_expand, ← bits_and_of_encode hreal hvalid h hmask,
    ← BranchWord.isOk_expand] at hok
  exact exists_ok_of_isOk hok

/-! ### Sixteen registers -/

/-- Whether an operand is an integer register. -/
def Operand.isInteger : Operand → Bool
  | .register .integer _ => true
  | _ => false

/-- With sixteen registers, a register that was read is one of them. -/
theorem Context.register_lt {ctx : Context} (hreduced : ctx.reduced = true) {s rest : List Char}
    {n : Nat} (h : ctx.register .integer s = some (n, rest)) : n < 16 := by
  have hfilter := (Option.filter_eq_some_iff.1 h).2
  have hle : n ≤ 15 := by simpa [hreduced] using hfilter
  exact Nat.lt_succ_of_le hle

/-- The highest bits of the register fields `rd`, `rs1` and `rs2`. -/
def highRegisterBits : List Nat :=
  [11, 19, 24]

theorem RegisterSlot.getLsbD_insert (slot : RegisterSlot) {i : Nat} (hi : i ∈ highRegisterBits)
    {w : Word} (hw : w.getLsbD i = false) {n : Nat} (hn : n < 16) :
    (slot.field.insert w (Int64.ofNat n).toBitVec).getLsbD i = false := by
  have hclear : (Int64.ofNat n).toBitVec.getLsbD 4 = false := by
    have hvalue : (Int64.ofNat n).toBitVec = BitVec.ofNat 64 n := rfl
    rw [hvalue, BitVec.getLsbD_ofNat, Nat.testBit_lt_two_pow (by omega)]
    rfl
  simp only [highRegisterBits, List.mem_cons, List.not_mem_nil, or_false] at hi
  rw [Field.getLsbD_insert]
  split
  · rename_i hin
    have hfour : i - slot.field.shift = 4 := by
      revert hin
      rcases hi with rfl | rfl | rfl <;> cases slot <;> decide
    rw [hfour]
    exact hclear
  · exact hw

/-- **With sixteen registers, the high bits of register fields stay clear** if nothing but integer
registers may set them. -/
theorem Template.getLsbD_addReadings_of_reduced {ctx : Context} (hreduced : ctx.reduced = true)
    {mnemonic : String} {d : Draft} {ops : List Operand} {s rest : List Char} {rs : List Reading}
    (h : Walks ctx mnemonic d ops s rs rest) {i : Nat} (hi : i ∈ highRegisterBits)
    (hops : ∀ op ∈ ops, op.bits.getLsbD i = false ∨ op.isInteger = true)
    (hd : d.bits.getLsbD i = false) : (addReadings d ops rs).bits.getLsbD i = false := by
  induction ops generalizing d s rs with
  | nil => exact hd
  | cons op ops ih =>
    obtain ⟨r, after, more, rfl, hread, hwalks⟩ := h
    obtain ⟨hop, hops⟩ := List.forall_mem_cons.1 hops
    refine ih hwalks hops ?_
    rcases hop with hfree | hinteger
    · rw [Draft.getLsbD_add_of_gives (Operand.gives_of_read hread) hfree]
      exact hd
    · cases op with
      | register bank slot =>
        cases bank with
        | float => cases hinteger
        | integer =>
          obtain ⟨n, hregister, rfl⟩ := Reading.number_eq_ok_iff.1 hread
          exact slot.getLsbD_insert hi hd (Context.register_lt hreduced hregister)
      | _ => cases hinteger

/-- A register field with its highest bit clear names a register below sixteen. -/
theorem Field.toNat_extract_lt {f : Field} (hf : f.width = 5) {w : Word}
    (h : w.getLsbD (f.shift + 4) = false) : (f.extract w).toNat < 16 := by
  apply Word.toNat_lt_of_getLsbD (n := 4)
  intro i hi
  rw [extract_eq_setWidth, BitVec.getLsbD_setWidth, BitVec.getLsbD_extractLsb', hf]
  rcases Nat.lt_or_ge 4 i with hlt | hge
  · simp
    omega
  · have hfour : i = 4 := by omega
    rw [hfour, h]
    simp

theorem Field.toNat_extract_lt_32 {f : Field} (hf : f.width = 5) (w : Word) :
    (f.extract w).toNat < 32 := by
  apply Word.toNat_lt_of_getLsbD (n := 5)
  intro i hi
  rw [extract_eq_setWidth, BitVec.getLsbD_setWidth, BitVec.getLsbD_extractLsb', hf]
  simp
  omega

end RiscvAssembler
