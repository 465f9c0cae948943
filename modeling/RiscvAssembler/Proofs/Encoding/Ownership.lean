import RiscvAssembler.Proofs.Encoding.Outcome

/-!
Every bit of a word has one owner: the template, which fixes it, or one of its operands. An operand
adds its value, shifted or scattered, to bits that are clear until then (`Draft.bits_add`). So the
word is the join of what its operands contribute, and each contribution stands in the word unchanged
(`Template.slices_of_encode`).
-/

namespace RiscvAssembler

/-! ### Words -/

theorem getLsbD_of_and_eq_zero {w m : Word} (h : w &&& m = 0) {i : Nat}
    (hi : m.getLsbD i = true) : w.getLsbD i = false := by
  have hbit := congrArg (·.getLsbD i) h
  simpa [hi] using hbit

theorem or_and_of_apart {w m : Word} (h : w &&& m = 0) (c : Word) : (w ||| c) &&& m = c &&& m := by
  rw [BitVec.and_comm, BitVec.and_or_distrib_left, BitVec.and_comm m w, h, BitVec.and_comm m c]
  exact BitVec.zero_or

/-- Words that are apart from `m` stay so when bits of `b` are added, which is apart from it too. -/
theorem or_and_eq_zero {w c b m : Word} (hw : w &&& m = 0) (hc : c &&& b = c) (hb : b &&& m = 0) :
    (w ||| c) &&& m = 0 := by
  rw [or_and_of_apart hw, ← hc, BitVec.and_assoc, hb]
  exact BitVec.and_zero

/-- Words that are apart from `m` are apart from all its parts. -/
theorem and_eq_zero_of_part {w m k : Word} (h : w &&& m = 0) (hk : m &&& k = k) : w &&& k = 0 := by
  rw [← hk, ← BitVec.and_assoc, h]
  exact BitVec.zero_and

namespace Field

/-- A field leaves the bits apart from it alone. -/
theorem insert_and_of_apart {f : Field} {m : Word} (h : f.mask &&& m = 0) (w v : Word) :
    f.insert w v &&& m = w &&& m := by
  apply and_eq_and_of_getLsbD
  intro i hi
  apply getLsbD_insert_of_mask
  exact getLsbD_of_and_eq_zero h hi

/-- A value that a field has room for stays within the field. -/
theorem shiftLeft_and_mask {f : Field} {v : Word} (hv : v.toNat < 2 ^ f.width) :
    v <<< f.shift &&& f.mask = v <<< f.shift := by
  apply and_eq_self_of_getLsbD
  intro i hi
  rw [getLsbD_mask] at hi
  simp only [Bool.and_eq_false_iff, decide_eq_false_iff_not] at hi
  rw [BitVec.getLsbD_shiftLeft]
  by_cases hin : i < 64 ∧ f.shift ≤ i
  · rw [Word.getLsbD_of_toNat_lt hv (by omega), Bool.and_false]
  · have hout : (decide (i < 64) && !decide (i < f.shift)) = false := by
      simp only [Bool.and_eq_false_iff, decide_eq_false_iff_not, Bool.not_eq_false',
        decide_eq_true_eq]
      omega
    rw [hout, Bool.false_and]

/-- A clear field takes up the bits of a value that it has room for. -/
theorem insert_eq_or {f : Field} {w v : Word} (hclear : w &&& f.mask = 0)
    (hv : v.toNat < 2 ^ f.width) : f.insert w v = w ||| v <<< f.shift := by
  have hkeep : w &&& ~~~f.mask = w := by
    apply and_eq_self_of_getLsbD
    intro i hi
    by_cases hword : i < 64
    · rw [BitVec.getLsbD_not] at hi
      exact getLsbD_of_and_eq_zero hclear (by simpa [hword] using hi)
    · exact BitVec.getLsbD_of_ge w i (Nat.le_of_not_lt hword)
  rw [insert, hkeep, shiftLeft_and_mask hv]

end Field

/-- Twenty bits stay as they are above the low twelve. -/
theorem Immediate.encode_u {v : Int64} (hv : v.toBitVec.toNat < 2 ^ 20) :
    Immediate.u.encode (Int64.ofBitVec (v.toBitVec <<< 12)) = v.toBitVec <<< 12 := by
  have hrun : Immediate.u.encode (Int64.ofBitVec (v.toBitVec <<< 12)) =
      Segment.scatter ⟨12, 20, 12⟩ (v.toBitVec <<< 12) := BitVec.or_zero
  rw [hrun]
  apply BitVec.eq_of_getLsbD_eq
  intro i hi
  rw [Segment.getLsbD_scatter]
  dsimp only
  split
  · rw [show 12 + (i - 12) = i by omega]
  · rename_i hout
    rw [BitVec.getLsbD_shiftLeft]
    by_cases hlow : i < 12
    · simp [hlow]
    · rw [Word.getLsbD_of_toNat_lt hv (by omega), Bool.and_false]

/-! ### Contributions -/

namespace Operand

/-- The bits of a value in the places of an operand. -/
def placed (op : Operand) (v : Int64) : Word :=
  match op with
  | .bothSources => v.toBitVec <<< Field.rs1.shift ||| v.toBitVec <<< Field.rs2.shift
  | .shortRegister _ slot => (v - 8).toBitVec <<< slot.field.shift
  | .upper => v.toBitVec <<< 12
  | .compressedImm i => i.immediate.encode (i.stored v)
  | _ =>
    match op.field?, op.immediate? with
    | some f, _ => v.toBitVec <<< f.shift
    | none, some l => l.encode v
    | none, none => 0

/-- What a reading of an operand contributes to the word. -/
def contribution (op : Operand) : Reading → Word
  | .value v => op.placed v
  | .folded _ v =>
    match op.immediate? with
    | some l => l.encode (op.part v)
    | none => 0
  | _ => 0

variable {x : Xlen} {op : Operand} {v : Int64} {r : Reading}

theorem placed_and_bits (hv : op.Holds x v) : op.placed v &&& op.bits = op.placed v := by
  cases op with
  | bothSources =>
    have hfirst := Field.shiftLeft_and_mask (f := Field.rs1) hv
    have hsecond := Field.shiftLeft_and_mask (f := Field.rs2) hv
    apply and_eq_self_of_getLsbD
    intro i hi
    rw [bits, BitVec.getLsbD_or, Bool.or_eq_false_iff] at hi
    rw [placed, BitVec.getLsbD_or, ← hfirst, ← hsecond, BitVec.getLsbD_and, BitVec.getLsbD_and,
      hi.1, hi.2]
    simp
  | register bank slot => exact Field.shiftLeft_and_mask hv
  | shortRegister bank slot => exact Field.shiftLeft_and_mask hv
  | ranged r => exact Field.shiftLeft_and_mask hv
  | csr => exact Field.shiftLeft_and_mask hv
  | keyword k => exact Field.shiftLeft_and_mask hv
  | opcode => exact Field.shiftLeft_and_mask hv
  | upper =>
    change v.toBitVec <<< 12 &&& Immediate.u.mask = v.toBitVec <<< 12
    rw [← Immediate.encode_u hv, Immediate.encode_and_mask]
  | imm12 i => exact Immediate.encode_and_mask _ v
  | target k => exact Immediate.encode_and_mask _ v
  | compressedImm i => exact Immediate.encode_and_mask _ _
  | _ => exact BitVec.zero_and

/-- Storing adds the bits of the value to bits that are clear. -/
theorem store_eq_or {w : Word} (hclear : w &&& op.bits = 0) (hv : op.Holds x v) :
    op.store w v = w ||| op.placed v := by
  cases op with
  | bothSources =>
    have hfirst : w &&& Field.rs1.mask = 0 := and_eq_zero_of_part hclear (by decide)
    have hsecond : w &&& Field.rs2.mask = 0 := and_eq_zero_of_part hclear (by decide)
    have hboth : (w ||| v.toBitVec <<< Field.rs1.shift) &&& Field.rs2.mask = 0 :=
      or_and_eq_zero hsecond (Field.shiftLeft_and_mask (f := Field.rs1) hv) (by decide)
    rw [store, Field.insert_eq_or hfirst hv, Field.insert_eq_or hboth hv, BitVec.or_assoc]
    rfl
  | register bank slot => exact Field.insert_eq_or hclear hv
  | shortRegister bank slot => exact Field.insert_eq_or hclear hv
  | ranged r => exact Field.insert_eq_or hclear hv
  | csr => exact Field.insert_eq_or hclear hv
  | keyword k => exact Field.insert_eq_or hclear hv
  | opcode => exact Field.insert_eq_or hclear hv
  | upper => rw [store, Immediate.encode_u hv]; rfl
  | imm12 i => rfl
  | target k => rfl
  | compressedImm i => rfl
  | _ => exact BitVec.or_zero.symm

/-- An operand contributes to its own bits only. -/
theorem contribution_and_bits (h : op.Gives x r) :
    op.contribution r &&& op.bits = op.contribution r := by
  cases h with
  | value hv => exact placed_and_bits hv
  | folded _ himmediate _ =>
    simp only [contribution, himmediate, bits_of_immediate? himmediate]
    exact Immediate.encode_and_mask _ _
  | nothing | constant | symbol => exact BitVec.zero_and

end Operand

/-- **An operand adds its contribution** to a draft in which its bits are clear. -/
theorem Draft.bits_add {x : Xlen} {op : Operand} {r : Reading} (h : op.Gives x r) {d : Draft}
    (hclear : d.bits &&& op.bits = 0) : (d.add op r).bits = d.bits ||| op.contribution r := by
  cases h with
  | value hv => exact Operand.store_eq_or hclear hv
  | folded _ himmediate hbits =>
    simp only [add, Operand.contribution, hbits, himmediate, Option.getD_some]
  | nothing | constant | symbol => exact BitVec.or_zero.symm

/-! ### Templates -/

namespace Template

variable {ctx : Context} {mnemonic : String} {d : Draft} {ops : List Operand} {t : Template}
  {s rest : List Char} {rs : List Reading}

/-- Operands with bits of their own. -/
def Apart (ops : List Operand) : Prop :=
  ops.Pairwise fun a b => a.bits &&& b.bits = 0

instance : DecidablePred Apart := fun ops =>
  inferInstanceAs (Decidable (ops.Pairwise fun a b => a.bits &&& b.bits = 0))

theorem and_operandBits {w : Word} (h : ∀ op ∈ ops, w &&& op.bits = 0) :
    w &&& operandBits ops = 0 := by
  rw [BitVec.and_comm, operandBits_and_eq_zero_iff]
  intro op hop
  rw [BitVec.and_comm]
  exact h op hop

/-- One operand leaves the bits of the others clear. -/
theorem clear_add {x : Xlen} {op : Operand} {r : Reading} (h : op.Gives x r)
    (hclear : ∀ o ∈ op :: ops, d.bits &&& o.bits = 0) (hapart : Apart (op :: ops)) :
    ∀ o ∈ ops, (d.add op r).bits &&& o.bits = 0 := by
  intro o ho
  rw [Draft.bits_add h (hclear op (.head _))]
  exact or_and_eq_zero (hclear o (.tail _ ho)) (Operand.contribution_and_bits h)
    ((List.pairwise_cons.1 hapart).1 o ho)

/-- Operands with bits of their own join their contributions. -/
theorem bits_addReadings (h : Walks ctx mnemonic d ops s rs rest)
    (hclear : ∀ op ∈ ops, d.bits &&& op.bits = 0) (hapart : Apart ops) :
    (addReadings d ops rs).bits =
      (List.zipWith Operand.contribution ops rs).foldl (· ||| ·) d.bits := by
  induction ops generalizing d s rs with
  | nil => rfl
  | cons op ops ih =>
    obtain ⟨r, after, more, rfl, hread, hwalks⟩ := h
    have hgives := Operand.gives_of_read hread
    -- What carries the induction: the bits of all operands to come are still clear.
    have hjoin := ih hwalks (clear_add hgives hclear hapart) (List.pairwise_cons.1 hapart).2
    rw [Draft.bits_add hgives (hclear op (.head _))] at hjoin
    exact hjoin

/-- The bits of an operand hold its contribution and nothing else. -/
theorem addReadings_and_bits (h : Walks ctx mnemonic d ops s rs rest)
    (hclear : ∀ op ∈ ops, d.bits &&& op.bits = 0) (hapart : Apart ops) :
    ∀ p ∈ ops.zip rs, (addReadings d ops rs).bits &&& p.1.bits = p.1.contribution p.2 := by
  induction ops generalizing d s rs with
  | nil => intro p hp; cases hp
  | cons op ops ih =>
    obtain ⟨r, after, more, rfl, hread, hwalks⟩ := h
    obtain ⟨hop, hops⟩ := List.pairwise_cons.1 hapart
    have hgives := Operand.gives_of_read hread
    intro p hp
    rcases List.mem_cons.1 hp with rfl | hp
    · -- The operands to come change no bit of this one.
      have hlater : (addReadings (d.add op r) ops more).bits &&& op.bits =
          (d.add op r).bits &&& op.bits := by
        apply and_eq_and_of_getLsbD
        intro i hi
        apply getLsbD_addReadings hwalks
        have hother := and_operandBits hop
        rw [BitVec.and_comm] at hother
        exact getLsbD_of_and_eq_zero hother hi
      calc (addReadings (d.add op r) ops more).bits &&& op.bits
          = (d.bits ||| op.contribution r) &&& op.bits := by
            rw [hlater, Draft.bits_add hgives (hclear op (.head _))]
        _ = op.contribution r := by
            rw [or_and_of_apart (hclear op (.head _)), Operand.contribution_and_bits hgives]
    · exact ih hwalks (clear_add hgives hclear hapart) hops p hp

theorem length_of_walks (h : Walks ctx mnemonic d ops s rs rest) : rs.length = ops.length := by
  induction ops generalizing d s rs with
  | nil =>
    obtain ⟨rfl, -⟩ := h
    rfl
  | cons op ops ih =>
    obtain ⟨r, after, more, rfl, -, hwalks⟩ := h
    rw [List.length_cons, List.length_cons, ih hwalks]

theorem gives_of_walks (h : Walks ctx mnemonic d ops s rs rest) :
    ∀ p ∈ ops.zip rs, p.1.Gives ctx.isa.xlen p.2 := by
  induction ops generalizing d s rs with
  | nil => intro p hp; cases hp
  | cons op ops ih =>
    obtain ⟨r, after, more, rfl, hread, hwalks⟩ := h
    exact List.forall_mem_cons.2 ⟨Operand.gives_of_read hread, ih hwalks⟩

/-- The bits of operands are clear in a valid template, and none of them is fixed. -/
theorem clear_of_validate {n : Nat} (hreal : t.isPseudo = false)
    (hvalid : t.validate (some n) = .ok ()) {op : Operand} (hop : op ∈ t.operands) :
    t.matchBits &&& op.bits = 0 ∧ op.bits &&& t.maskBits = 0 := by
  obtain ⟨hmatch, hoverlap, hused⟩ := (validate_eq_ok_iff hreal Option.getD_some).1 hvalid
  have hapart := operandBits_and_eq_zero_iff.1 hoverlap op hop
  refine ⟨?_, hapart⟩
  apply BitVec.eq_of_getLsbD_eq
  intro i _
  rw [BitVec.getLsbD_and]
  cases hi : op.bits.getLsbD i with
  | false => simp
  | true =>
    -- The bit belongs to the word but not to the mask, so it cannot be set.
    have howned := getLsbD_operandBits.2 ⟨op, hop, hi⟩
    rw [BitVec.and_comm] at hapart
    have hmask := getLsbD_of_and_eq_zero hapart hi
    have hbit := congrArg (·.getLsbD i) hmatch
    simp only [BitVec.getLsbD_and, ← hused, BitVec.getLsbD_or, hmask, howned, Bool.false_and,
      Bool.or_true, Bool.and_true] at hbit
    rw [← hbit]
    simp

/-! ### The tables -/

theorem apart_of_mem_standard {cs : Catalogs} (hcs : Catalogs.standard = .ok cs)
    (ht : t ∈ cs.instructions.templates ++ cs.fieldTypes.templates) (hreal : t.isPseudo = false) :
    Apart t.operands := by
  have happart := of_mem_standard hcs (fun t => t.isPseudo || decide (Apart t.operands))
    (by decide +kernel) ht
  rw [hreal, Bool.false_or] at happart
  exact of_decide_eq_true happart

theorem validate_of_mem_standard {cs : Catalogs} (hcs : Catalogs.standard = .ok cs)
    (ht : t ∈ cs.instructions.templates ++ cs.fieldTypes.templates) :
    t.validate (some t.length) = .ok () := by
  rcases List.mem_append.1 ht with ht | ht
  · exact Catalog.validate_of_mem (build_of_standard hcs).1 ht
  · exact Catalog.validate_of_mem (build_of_standard hcs).2 ht

/-- A text that a template of the tables takes gives every operand a reading it has room for, and
the bits of every operand in the word hold what that reading contributes. -/
theorem slices_of_encode {cs : Catalogs} (hcs : Catalogs.standard = .ok cs)
    (ht : t ∈ cs.instructions.templates ++ cs.fieldTypes.templates) (hreal : t.isPseudo = false)
    {e : Encoded} (h : t.encode ctx s = .ok e) :
    ∃ rs, readOperands ctx t.mnemonic t.start t.operands s = .ok rs ∧
      rs.length = t.operands.length ∧
      e.bits = (List.zipWith Operand.contribution t.operands rs).foldl (· ||| ·) t.matchBits ∧
      ∀ p ∈ t.operands.zip rs, p.1.Gives ctx.isa.xlen p.2 ∧
        e.bits &&& p.1.bits = p.1.contribution p.2 := by
  have happart := apart_of_mem_standard hcs ht hreal
  have hclear : ∀ op ∈ t.operands, t.start.bits &&& op.bits = 0 := fun op hop =>
    (clear_of_validate hreal (validate_of_mem_standard hcs ht) hop).1
  obtain ⟨rs, hread, -, hbits, -, -⟩ := exists_readings_of_encode h
  obtain ⟨rest, hwalks, -⟩ := readOperands_eq_ok_iff.1 hread
  rw [hbits]
  exact ⟨rs, hread, length_of_walks hwalks, bits_addReadings hwalks hclear happart, fun p hp =>
    ⟨gives_of_walks hwalks p hp, addReadings_and_bits hwalks hclear happart p hp⟩⟩

end Template

/-- **Operands never overwrite each other.** Whatever text a template of the tables takes, in every
context and with every evaluator, the word is the fixed bits joined with the contributions of the
operands. The bits of an operand hold its contribution and nothing else, and no bit belongs to two
operands or to an operand and the fixed bits. -/
theorem words_join_their_operands {cs : Catalogs} (hcs : Catalogs.standard = .ok cs) {t : Template}
    (ht : t ∈ cs.instructions.templates ++ cs.fieldTypes.templates) (hreal : t.isPseudo = false)
    {ctx : Context} {s : List Char} {e : Encoded} (h : t.encode ctx s = .ok e) :
    ∃ rs, Template.readOperands ctx t.mnemonic t.start t.operands s = .ok rs ∧
      rs.length = t.operands.length ∧
      e.bits = (List.zipWith Operand.contribution t.operands rs).foldl (· ||| ·) t.matchBits ∧
      (∀ p ∈ t.operands.zip rs, e.bits &&& p.1.bits = p.1.contribution p.2) ∧
      t.operands.Pairwise (fun a b => a.bits &&& b.bits = 0) ∧
      ∀ op ∈ t.operands, op.bits &&& t.maskBits = 0 := by
  obtain ⟨rs, hread, hlength, hbits, hslices⟩ := Template.slices_of_encode hcs ht hreal h
  refine ⟨rs, hread, hlength, hbits, fun p hp => (hslices p hp).2,
    Template.apart_of_mem_standard hcs ht hreal, fun op hop => ?_⟩
  exact (Template.clear_of_validate hreal (Template.validate_of_mem_standard hcs ht) hop).2

/-- The store of four bytes of the instruction table. -/
def storeTemplate : Template :=
  Row.asTemplate (.insn "sw" none .i "t,q(s)" 0x2023 0x707f .opcode)

theorem storeTemplate_mem {cs : Catalogs} (hcs : Catalogs.standard = .ok cs) :
    storeTemplate ∈ cs.instructions.templates := by
  rw [templates_standard hcs]
  exact List.mem_map_of_mem (by decide +kernel)

/-- The readings of a register, the low part of a constant and a base register. -/
def storeReadings : List Reading :=
  [.value 10, .nothing, .folded .lo12S (-2), .nothing, .value 11, .nothing]

/-- The low part of a constant is scattered over the word of a store, between its registers. -/
theorem words_join_their_operands_store :
    ∃ cs e, Catalogs.standard = .ok cs ∧ storeTemplate ∈ cs.instructions.templates ∧
      storeTemplate.isPseudo = false ∧
      storeTemplate.encode ⟨⟨.rv64, []⟩, false, false, false, .basic⟩ "a0,%lo(-2)(a1)".toList =
        .ok e ∧
      e.bits = 0xfea5af23 ∧
      List.zipWith Operand.contribution storeTemplate.operands storeReadings =
        [0xa00000, 0, 0xfe000f00, 0, 0x58000, 0] ∧
      ∀ p ∈ storeTemplate.operands.zip storeReadings,
        e.bits &&& p.1.bits = p.1.contribution p.2 := by
  obtain ⟨cs, hcs⟩ := Catalogs.exists_standard
  have ht := storeTemplate_mem hcs
  obtain ⟨e, he⟩ : ∃ e, storeTemplate.encode ⟨⟨.rv64, []⟩, false, false, false, .basic⟩
      "a0,%lo(-2)(a1)".toList = .ok e := exists_ok_of_isOk (by decide +kernel)
  obtain ⟨rs, hread, -, hbits, hslices, -, -⟩ :=
    words_join_their_operands hcs (List.mem_append_left _ ht) rfl he
  have hreadings : Template.readOperands ⟨⟨.rv64, []⟩, false, false, false, .basic⟩
      storeTemplate.mnemonic storeTemplate.start storeTemplate.operands "a0,%lo(-2)(a1)".toList =
        .ok storeReadings := by
    decide +kernel
  obtain rfl := Except.ok.inj (hread.symm.trans hreadings)
  exact ⟨cs, e, hcs, ht, rfl, he, hbits.trans (by decide +kernel), by decide +kernel, hslices⟩

end RiscvAssembler
