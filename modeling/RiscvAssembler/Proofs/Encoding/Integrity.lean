import RiscvAssembler.Proofs.Encoding.FixedBits
import RiscvAssembler.Proofs.Encoding.Readings
import RiscvAssembler.Proofs.Template.Consistency

/-!
What operand text can do to a word. Whatever an operand reads, it writes to no bits but its own
(`Draft.getLsbD_add_of_gives`). A valid template has no operand at its fixed bits or beyond its end,
so no text corrupts them, and the words of the instruction table have the length that their low bits
announce (`validated_templates_keep_their_bits`).
-/

namespace RiscvAssembler

/-! ### Drafts -/

/-- **A reading changes no bits but those of its operand.** -/
theorem Draft.getLsbD_add_of_gives {x : Xlen} {op : Operand} {r : Reading} (h : op.Gives x r)
    {i : Nat} (hi : op.bits.getLsbD i = false) (d : Draft) :
    (d.add op r).bits.getLsbD i = d.bits.getLsbD i := by
  cases h with
  | nothing => rfl
  | @value v => exact Operand.getLsbD_store hi d.bits v
  | folded _ himmediate hbits =>
    rw [Operand.bits_of_immediate? himmediate] at hi
    simp only [Draft.add, hbits, Option.getD_some, BitVec.getLsbD_or]
    rw [Immediate.getLsbD_encode_of_mask hi, Bool.or_false]
  | constant => rfl
  | symbol => rfl

namespace Template

variable {ctx : Context} {mnemonic : String} {t : Template} {s : List Char} {rs : List Reading}

/-- Operands read a text one after the other, with readings `rs`, and leave `rest`. -/
def Walks (ctx : Context) (mnemonic : String) :
    (d : Draft) → List Operand → (s : List Char) → (rs : List Reading) → (rest : List Char) → Prop
  | _, [], s, rs, rest => rs = [] ∧ rest = s
  | d, op :: ops, s, rs, rest => ∃ r after rs', rs = r :: rs' ∧
      op.read ctx mnemonic d.bits (Text.dropBlanks s) = .ok (r, after) ∧
      Walks ctx mnemonic (d.add op r) ops after rs' rest

/-- Operands read a text if they walk to its end. -/
theorem readOperands_eq_ok_iff {ops : List Operand} {d : Draft} :
    readOperands ctx mnemonic d ops s = .ok rs ↔
      ∃ rest, Walks ctx mnemonic d ops s rs rest ∧ (Text.dropBlanks rest).isEmpty = true := by
  induction ops generalizing d s rs with
  | nil =>
    unfold readOperands
    constructor
    · intro h
      split at h
      · rename_i hend
        cases h
        exact ⟨s, ⟨rfl, rfl⟩, hend⟩
      · cases h
    · rintro ⟨rest, ⟨rfl, rfl⟩, hend⟩
      exact if_pos hend
  | cons op ops ih =>
    constructor
    · intro h
      obtain ⟨⟨r, after⟩, hread, h⟩ := bind_eq_ok_iff.1 h
      obtain ⟨more, hmore, h⟩ := bind_eq_ok_iff.1 h
      cases h
      obtain ⟨rest, hwalks, hend⟩ := ih.1 hmore
      exact ⟨rest, ⟨r, after, more, rfl, hread, hwalks⟩, hend⟩
    · rintro ⟨rest, ⟨r, after, more, rfl, hread, hwalks⟩, hend⟩
      exact bind_eq_ok_iff.2 ⟨(r, after), hread,
        bind_eq_ok_iff.2 ⟨more, ih.2 ⟨rest, hwalks, hend⟩, rfl⟩⟩

/-- Operands change no bits but their own, whatever text they read. -/
theorem getLsbD_addReadings {ops : List Operand} {d : Draft} {rest : List Char}
    (h : Walks ctx mnemonic d ops s rs rest) {i : Nat}
    (hi : (operandBits ops).getLsbD i = false) :
    (addReadings d ops rs).bits.getLsbD i = d.bits.getLsbD i := by
  induction ops generalizing d s rs with
  | nil => rfl
  | cons op ops ih =>
    obtain ⟨r, after, more, rfl, hread, hwalks⟩ := h
    rw [operandBits, List.foldr_cons, BitVec.getLsbD_or, Bool.or_eq_false_iff] at hi
    calc (addReadings (d.add op r) ops more).bits.getLsbD i
        = (d.add op r).bits.getLsbD i := ih hwalks hi.2
      _ = d.bits.getLsbD i := Draft.getLsbD_add_of_gives (Operand.gives_of_read hread) hi.1 d

/-- The word that a template makes of the readings of its operands. -/
def word (t : Template) (rs : List Reading) : Word :=
  (addReadings t.start t.operands rs).bits

theorem getLsbD_word {rest : List Char} (h : Walks ctx mnemonic t.start t.operands s rs rest)
    {i : Nat} (hi : (operandBits t.operands).getLsbD i = false) :
    (t.word rs).getLsbD i = t.matchBits.getLsbD i :=
  getLsbD_addReadings h hi

/-! ### Valid templates -/

/-- A valid template has no operand at its fixed bits, and none beyond its end. -/
theorem getLsbD_operandBits_of_validate {n : Nat} (hreal : t.isPseudo = false)
    (hvalid : t.validate (some n) = .ok ()) {i : Nat}
    (hi : t.maskBits.getLsbD i = true ∨ (wordBits n).getLsbD i = false) :
    (operandBits t.operands).getLsbD i = false := by
  obtain ⟨-, hoverlap, hused⟩ := (validate_eq_ok_iff hreal Option.getD_some).1 hvalid
  have happart := congrArg (·.getLsbD i) hoverlap
  have hcover := congrArg (·.getLsbD i) hused
  simp only [BitVec.getLsbD_and, BitVec.getLsbD_or] at happart hcover
  rcases hi with hmask | hbeyond
  · rw [hmask, Bool.and_true] at happart
    exact happart.trans BitVec.getLsbD_zero
  · rw [hbeyond, Bool.or_eq_false_iff] at hcover
    exact hcover.2

theorem getLsbD_wordBits_of_le {n i : Nat} (hi : 8 * n ≤ i) :
    (wordBits n).getLsbD i = false := by
  rw [wordBits, bitWidth, Word.getLsbD_lowMask]
  simp only [Bool.and_eq_false_iff, decide_eq_false_iff_not]
  omega

end Template

/-! ### Lengths -/

theorem instructionLength_congr {v w : Word}
    (h : ∀ i, (lengthBits w).getLsbD i = true → v.getLsbD i = w.getLsbD i) :
    instructionLength v = instructionLength w := by
  have hagree := and_eq_and_of_getLsbD h
  unfold lengthBits at hagree
  unfold instructionLength
  by_cases hshort : w &&& 0b11 ≠ 0b11
  · rw [if_pos hshort] at hagree ⊢
    exact if_pos (hagree ▸ hshort)
  · -- All further tests look at the lowest seven bits.
    rw [if_neg hshort] at hagree
    have hpart : ∀ m : Word, 0x7f &&& m = m → v &&& m = w &&& m := by
      intro m hm
      rw [← hm, ← BitVec.and_assoc, hagree, BitVec.and_assoc]
    rw [hpart 0b11 (by decide), hpart 0x1f (by decide), hpart 0x3f (by decide),
      hpart 0x7f (by decide)]

theorem Word.toNat_lt_of_getLsbD {w : Word} {n : Nat}
    (h : ∀ i, n ≤ i → w.getLsbD i = false) : w.toNat < 2 ^ n :=
  Nat.lt_pow_two_of_testBit _ h

theorem Word.getLsbD_of_toNat_lt {w : Word} {n i : Nat} (h : w.toNat < 2 ^ n) (hi : n ≤ i) :
    w.getLsbD i = false :=
  Nat.testBit_lt_two_pow (Nat.lt_of_lt_of_le h (Nat.pow_le_pow_right (by decide) hi))

/-- **Operands do not corrupt valid templates.** Whatever text the operands of a valid template
read, in every context and with every evaluator, the word keeps the fixed bits and the bits beyond
its end, so the check of the fixed bits passes. The words of the instruction table have the length
of their templates, and their low bits say so. -/
theorem validated_templates_keep_their_bits :
    (∀ (t : Template), t.isPseudo = false → t.validate (some t.length) = .ok () →
      ∀ (ctx : Context) (s rest : List Char) (rs : List Reading),
        Template.Walks ctx t.mnemonic t.start t.operands s rs rest →
        (∀ i, t.maskBits.getLsbD i = true ∨ 8 * t.length ≤ i →
          (t.word rs).getLsbD i = t.matchBits.getLsbD i) ∧
        { t with guard := .opcode }.admits (t.word rs) = true) ∧
    (∀ (cs : Catalogs), Catalogs.standard = .ok cs → ∀ t ∈ cs.instructions.templates,
      ∀ (ctx : Context) (s rest : List Char) (rs : List Reading),
        Template.Walks ctx t.mnemonic t.start t.operands s rs rest →
        (t.isPseudo = false → (t.word rs).toNat < 2 ^ (8 * t.length)) ∧
        instructionLength (t.word rs) = t.length) := by
  have hkeeps : ∀ (t : Template), t.isPseudo = false → t.validate (some t.length) = .ok () →
      ∀ (ctx : Context) (s rest : List Char) (rs : List Reading),
        Template.Walks ctx t.mnemonic t.start t.operands s rs rest →
        ∀ i, t.maskBits.getLsbD i = true ∨ 8 * t.length ≤ i →
          (t.word rs).getLsbD i = t.matchBits.getLsbD i := by
    intro t hreal hvalid ctx s rest rs hwalks i hi
    apply Template.getLsbD_word hwalks
    apply Template.getLsbD_operandBits_of_validate hreal hvalid
    exact hi.imp_right Template.getLsbD_wordBits_of_le
  constructor
  · intro t hreal hvalid ctx s rest rs hwalks
    have hbits := hkeeps t hreal hvalid ctx s rest rs hwalks
    exact ⟨hbits, Template.admits_of_getLsbD rfl fun i hi => hbits i (.inl hi)⟩
  · intro cs hcs t ht ctx s rest rs hwalks
    have hvalid := Catalog.validate_of_mem (build_of_standard hcs).1 ht
    rw [templates_standard hcs] at ht
    have hannounces := (Template.regular_of_mem ht).announcesLength
    simp only [Template.announcesLength, Bool.and_eq_true, Bool.or_eq_true, beq_iff_eq,
      decide_eq_true_eq] at hannounces
    obtain ⟨⟨hlength, hapart⟩, hfits⟩ := hannounces
    constructor
    · intro hreal
      rw [hreal] at hfits
      have hmatch := hfits.resolve_left Bool.false_ne_true
      apply Word.toNat_lt_of_getLsbD
      intro i hi
      rw [hkeeps t hreal hvalid ctx s rest rs hwalks i (.inr hi)]
      exact Word.getLsbD_of_toNat_lt hmatch hi
    · rw [← hlength]
      apply instructionLength_congr
      intro i hi
      apply Template.getLsbD_word hwalks
      have hbit := congrArg (·.getLsbD i) hapart
      simpa [hi] using hbit

/-- The upper immediate of the instruction table. -/
def luiTemplate : Template :=
  Row.asTemplate (.insn "lui" none .i "d,u" 0x37 0x7f .opcode)

/-- The readings of a register and of the upper part of a constant with all bits set. -/
def luiReadings : List Reading :=
  [.value 10, .nothing, .folded .hi20 (-4096)]

/-- The bits of a constant under a modifier stay clear of the opcode. -/
theorem validated_templates_keep_their_bits_lui :
    luiTemplate.isPseudo = false ∧ luiTemplate.validate (some luiTemplate.length) = .ok () ∧
      luiTemplate.word luiReadings = 0xfffff537 ∧
      ∃ rest, Template.Walks ⟨⟨.rv64, []⟩, false, false, false, .basic⟩ luiTemplate.mnemonic
          luiTemplate.start luiTemplate.operands "a0,%hi(-4096)".toList luiReadings rest ∧
        (∀ i, luiTemplate.maskBits.getLsbD i = true ∨ 8 * luiTemplate.length ≤ i →
          (luiTemplate.word luiReadings).getLsbD i = luiTemplate.matchBits.getLsbD i) ∧
        { luiTemplate with guard := .opcode }.admits (luiTemplate.word luiReadings) = true := by
  have hreal : luiTemplate.isPseudo = false := rfl
  have hvalid : luiTemplate.validate (some luiTemplate.length) = .ok () := by decide +kernel
  have hread : Template.readOperands ⟨⟨.rv64, []⟩, false, false, false, .basic⟩
      luiTemplate.mnemonic luiTemplate.start luiTemplate.operands "a0,%hi(-4096)".toList =
        .ok luiReadings := by
    decide +kernel
  obtain ⟨rest, hwalks, -⟩ := Template.readOperands_eq_ok_iff.1 hread
  exact ⟨hreal, hvalid, by decide +kernel, rest, hwalks,
    validated_templates_keep_their_bits.1 luiTemplate hreal hvalid _ _ rest luiReadings hwalks⟩

end RiscvAssembler
