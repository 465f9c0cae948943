import RiscvAssembler.Proofs.Encoding.Token
import RiscvAssembler.Proofs.Word.Slice

/-!
Operands leave the bits alone that they do not own. So a template whose operands own none of its
fixed bits keeps all of them, whatever tokens it takes (`admits_addTokens`).
-/

namespace RiscvAssembler

theorem Field.getLsbD_insert_of_mask {f : Field} {i : Nat} (h : f.mask.getLsbD i = false)
    (w v : Word) : (f.insert w v).getLsbD i = w.getLsbD i := by
  rw [getLsbD_insert, if_neg]
  rw [getLsbD_mask] at h
  simp only [Bool.and_eq_false_iff, decide_eq_false_iff_not] at h
  omega

theorem Operand.bits_of_immediate? {op : Operand} {l : Immediate} (h : op.immediate? = some l) :
    op.bits = l.mask := by
  cases op with
  | imm12 i => cases h; rfl
  | upper => cases h; rfl
  | target k => cases h; rfl
  | compressedImm i => cases h; rfl
  | _ => cases h

/-- Storing a value changes no bits but those of the operand. -/
theorem Operand.getLsbD_store {op : Operand} {i : Nat} (h : op.bits.getLsbD i = false)
    (w : Word) (v : Int64) : (op.store w v).getLsbD i = w.getLsbD i := by
  have himm : ∀ l : Immediate, l.mask.getLsbD i = false → ∀ v,
      (w ||| l.encode v).getLsbD i = w.getLsbD i := by
    intro l hl v
    rw [BitVec.getLsbD_or, Immediate.getLsbD_encode_of_mask hl, Bool.or_false]
  cases op with
  | bothSources =>
    rw [bits, BitVec.getLsbD_or, Bool.or_eq_false_iff] at h
    exact (Field.getLsbD_insert_of_mask h.2 _ _).trans (Field.getLsbD_insert_of_mask h.1 _ _)
  | register bank slot => exact Field.getLsbD_insert_of_mask h _ _
  | shortRegister bank slot => exact Field.getLsbD_insert_of_mask h _ _
  | ranged r => exact Field.getLsbD_insert_of_mask h _ _
  | csr => exact Field.getLsbD_insert_of_mask h _ _
  | keyword k => exact Field.getLsbD_insert_of_mask h _ _
  | opcode => exact Field.getLsbD_insert_of_mask h _ _
  | imm12 i => exact himm _ h _
  | upper => exact himm _ h _
  | target k => exact himm _ h _
  | compressedImm i => exact himm _ h _
  | _ => rfl

theorem Draft.getLsbD_add {op : Operand} {i : Nat} (h : op.bits.getLsbD i = false) (d : Draft)
    (τ : Token) : (d.add op (op.reading τ)).bits.getLsbD i = d.bits.getLsbD i := by
  cases hr : op.reading τ with
  | nothing => rfl
  | value v => exact Operand.getLsbD_store h _ _
  | pending e reloc => rfl
  | folded kind v =>
    unfold Operand.reading at hr
    split at hr <;> cases hr

theorem Draft.getLsbD_addTokens {ops : List Operand} {i : Nat}
    (h : (Template.operandBits ops).getLsbD i = false) (d : Draft) (τs : List Token) :
    (d.addTokens ops τs).bits.getLsbD i = d.bits.getLsbD i := by
  induction ops generalizing d τs with
  | nil => rfl
  | cons op ops ih =>
    cases τs with
    | nil => rfl
    | cons τ τs =>
      rw [Template.operandBits, List.foldr_cons, BitVec.getLsbD_or, Bool.or_eq_false_iff] at h
      exact (ih h.2 _ _).trans (Draft.getLsbD_add h.1 d τ)

namespace Template

/-- The check of the fixed bits passes if a word agrees with them. -/
theorem admits_of_getLsbD {t : Template} {word : Word} (hguard : t.guard = .opcode)
    (h : ∀ i, t.maskBits.getLsbD i = true → word.getLsbD i = t.matchBits.getLsbD i) :
    t.admits word = true := by
  have hfixed : (word ^^^ t.matchBits) &&& t.maskBits = 0 := by
    apply BitVec.eq_of_getLsbD_eq
    intro i hi
    rw [BitVec.getLsbD_and, BitVec.getLsbD_xor]
    cases hmask : t.maskBits.getLsbD i with
    | false => simp
    | true =>
      rw [h i hmask]
      simp
  unfold admits
  rw [hguard]
  exact beq_iff_eq.2 hfixed

/-- **Operands keep the fixed bits of their template.** -/
theorem admits_addTokens {t : Template} (hguard : t.guard = .opcode)
    (hapart : operandBits t.operands &&& t.maskBits = 0) (τs : List Token) :
    t.admits (t.start.addTokens t.operands τs).bits = true := by
  apply admits_of_getLsbD hguard
  intro i hmask
  have hbit := congrArg (·.getLsbD i) hapart
  have hfree : (operandBits t.operands).getLsbD i = false := by simpa [hmask] using hbit
  exact Draft.getLsbD_addTokens hfree t.start τs

end Template

end RiscvAssembler
