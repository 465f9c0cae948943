import RiscvAssembler.Proofs.Encoding.Ownership

/-!
Words give back what their operands read. Decoding an operand looks at its bits only, and those
hold its contribution (`extract?_contribution`), so the values of a text can be read off the word.
The exception is a compressed shift amount from 32 on: decoding takes its six bits for a signed
number.
-/

namespace RiscvAssembler

/-! ### Fields -/

namespace Field

/-- A field within `m` is decoded from the bits of `m` alone. -/
theorem extract_and {f : Field} {m : Word} (h : m &&& f.mask = f.mask) (w : Word) :
    f.extract (w &&& m) = f.extract w := by
  rw [extract, extract, BitVec.and_assoc, h]

/-- A field gives back a value that it has room for. -/
theorem extract_shiftLeft {f : Field} {v : Word} (hf : f.shift + f.width ≤ 64)
    (hv : v.toNat < 2 ^ f.width) : f.extract (v <<< f.shift) = v := by
  rw [extract, shiftLeft_and_mask hv]
  apply BitVec.eq_of_getLsbD_eq
  intro i hi
  rw [BitVec.getLsbD_ushiftRight, BitVec.getLsbD_shiftLeft, Nat.add_sub_cancel_left]
  by_cases hin : i < f.width
  · have hword : f.shift + i < 64 := by omega
    simp [hword]
  · rw [Word.getLsbD_of_toNat_lt hv (Nat.le_of_not_lt hin), Bool.and_false]

end Field

/-! ### Layouts -/

/-- A run is gathered from its bits alone. -/
theorem Segment.gather_and {s : Segment} {m : Word}
    (h : ∀ i, s.mask.getLsbD i = true → m.getLsbD i = true) (w : Word) :
    s.gather (w &&& m) = s.gather w := by
  apply BitVec.eq_of_getLsbD_eq
  intro i _
  rw [getLsbD_gather, getLsbD_gather, BitVec.getLsbD_and]
  split
  · rename_i hin
    by_cases hword : s.wordBit + (i - s.immBit) < 64
    · rw [h _ (by rw [getLsbD_mask]; simp [hword]; omega), Bool.and_true]
    · rw [BitVec.getLsbD_of_ge w _ (Nat.le_of_not_lt hword), Bool.false_and]
  · rfl

namespace Immediate

theorem raw_and {l : Immediate} {m : Word} (h : ∀ i, l.mask.getLsbD i = true → m.getLsbD i = true)
    (w : Word) : l.raw (w &&& m) = l.raw w := by
  obtain ⟨segments, signed⟩ := l
  simp only [raw, mask] at h ⊢
  induction segments with
  | nil => rfl
  | cons s rest ih =>
    simp only [List.foldr_cons, BitVec.getLsbD_or, Bool.or_eq_true] at h ⊢
    rw [ih fun i hi => h i (.inr hi), Segment.gather_and fun i hi => h i (.inl hi)]

/-- An immediate is decoded from its bits alone. -/
theorem extract_and_mask (l : Immediate) (w : Word) : l.extract (w &&& l.mask) = l.extract w := by
  rw [extract, extract, raw_and fun _ hi => hi]

/-- The bits of an upper immediate come back as a signed number. -/
theorem extract_encode_u (v : Int64) :
    (u.extract (u.encode v)).toBitVec.sshiftRight 12 =
      (v.toBitVec.extractLsb' 12 20).signExtend 64 := by
  have hvalue : (u.extract (u.encode v)).toBitVec =
      ((u.raw (u.encode v)).setWidth 32).signExtend 64 := rfl
  have hraw : ∀ i < 20, (u.raw (u.encode v)).getLsbD (12 + i) = v.toBitVec.getLsbD (12 + i) := by
    intro i hi
    have hcarried : u.carried = Segment.carried ⟨12, 20, 12⟩ := by decide
    rw [raw_encode (by decide), BitVec.getLsbD_and, hcarried, Segment.getLsbD_carried]
    have hword : 12 + i < 64 := by omega
    have htop : 12 + i < 12 + 20 := by omega
    simp [hword, htop]
  apply BitVec.eq_of_getLsbD_eq
  intro i hi
  rw [hvalue, BitVec.getLsbD_sshiftRight, BitVec.getLsbD_signExtend, BitVec.getLsbD_signExtend,
    BitVec.msb_eq_getLsbD_last, BitVec.msb_eq_getLsbD_last, BitVec.msb_eq_getLsbD_last,
    BitVec.getLsbD_signExtend, BitVec.getLsbD_setWidth, BitVec.getLsbD_setWidth,
    BitVec.getLsbD_extractLsb', BitVec.getLsbD_extractLsb']
  have hsign := hraw 19 (by decide)
  by_cases hin : i < 20
  · have hbit := hraw i hin
    grind
  · grind

end Immediate

/-! ### Compressed immediates -/

theorem ofNat_toNat_toBitVec (v : Int64) : Int64.ofNat v.toBitVec.toNat = v := by
  apply Int64.toBitVec_inj.1
  change BitVec.ofNat 64 v.toBitVec.toNat = v.toBitVec
  rw [BitVec.ofNat_toNat, BitVec.setWidth_eq]

/-- A multiple of 4096 survives a shift to the right and back. -/
theorem sshiftRight_shiftLeft_of_and {w : Word} (h : w &&& 0xfff = 0) :
    w.sshiftRight 12 <<< 12 = w := by
  apply BitVec.eq_of_getLsbD_eq
  intro i hi
  rw [BitVec.getLsbD_shiftLeft, BitVec.getLsbD_sshiftRight]
  by_cases hlow : i < 12
  · have hbit : (0xfff : Word).getLsbD i = true := by
      rw [show (0xfff : Word) = Word.lowMask 12 by decide, Word.getLsbD_lowMask]
      simp [hi, hlow]
    rw [getLsbD_of_and_eq_zero h hbit]
    simp [hlow]
  · rw [show 12 + (i - 12) = i by omega]
    simp [hi, hlow]
    omega

namespace CompressedImm

variable {x : Xlen} {v : Int64}

theorem extract_encode_ci (v : Int64) : Immediate.ci.extract (Immediate.ci.encode v) =
    Int64.ofBitVec ((v.toBitVec.setWidth 6).signExtend 64) :=
  Immediate.extract_encode_of_full (by decide) rfl (by decide) v

/-- The six bits of a shift amount come back as a signed number. -/
theorem extract_shamt (h : shamt.allows x v = true) :
    Immediate.ci.extract (Immediate.ci.encode v) = if v < 32 then v else v - 64 := by
  have hall : ∀ n : Fin 64, Int64.ofBitVec (((Int64.ofNat n).toBitVec.setWidth 6).signExtend 64) =
      if Int64.ofNat n < 32 then Int64.ofNat n else Int64.ofNat n - 64 := by decide
  simp only [allows, Bool.and_eq_true, decide_eq_true_eq] at h
  have hlt : v.toBitVec.toNat < 2 ^ 6 :=
    toNat_lt_of_le (Int64.le_trans (by decide) h.1) h.2 (Ranged.limit_lt x .shamt)
  have hv := hall ⟨v.toBitVec.toNat, hlt⟩
  rw [ofNat_toNat_toBitVec] at hv
  rw [extract_encode_ci, hv]

/-- The six bits of an upper immediate extend to its twenty. -/
theorem extract_lui (h : lui.allows x v = true) :
    (Immediate.ci.extract (Immediate.ci.encode v)).toBitVec &&& 0xfffff = v.toBitVec := by
  have hall : ∀ k : Fin 32, ∀ n ∈ [k.val, 0xfffe0 + k.val],
      ((Int64.ofNat n).toBitVec.setWidth 6).signExtend 64 &&& 0xfffff =
        (Int64.ofNat n).toBitVec := by decide
  have hrange : (1 ≤ v.toInt ∧ v.toInt < 32) ∨ (0xfffe0 ≤ v.toInt ∧ v.toInt ≤ 0xfffff) := by
    simpa [allows, Int64.le_iff_toInt_le, Int64.lt_iff_toInt_lt] using h
  have hnat := toNat_of_nonneg (v := v) (by omega)
  rw [extract_encode_ci, Int64.toBitVec_ofBitVec]
  rcases hrange with hsmall | hlarge
  · have hv := hall ⟨v.toBitVec.toNat, by omega⟩ _ (.head _)
    rwa [ofNat_toNat_toBitVec] at hv
  · have hv := hall ⟨v.toBitVec.toNat - 0xfffe0, by omega⟩ _ (.tail _ (.head _))
    rwa [show 0xfffe0 + (v.toBitVec.toNat - 0xfffe0) = v.toBitVec.toNat by omega,
      ofNat_toNat_toBitVec] at hv

/-- All other layouts give back what they store. -/
theorem extract_of_allows {i : CompressedImm} (hshamt : i ≠ .shamt) (hlui : i ≠ .lui)
    (h : i.allows x v = true) :
    i.immediate.extract (i.immediate.encode (i.stored v)) = i.stored v := by
  cases i with
  | shamt => exact absurd rfl hshamt
  | lui => exact absurd rfl hlui
  | shamtWord =>
    have hrange : 1 ≤ v.toInt ∧ v.toInt ≤ 31 := by
      simpa [allows, Int64.le_iff_toInt_le] using h
    have hbounds : -2 ^ 5 ≤ v.toInt ∧ v.toInt < 2 ^ 5 := by omega
    exact eq_of_beq ((Immediate.Gapless.fits_iff (by decide) v).2 ⟨one_dvd _, hbounds⟩)
  | signed3 | nonZero6 | addi4spn | addi16sp | luiValue =>
    exact eq_of_beq (Bool.and_eq_true_iff.1 h).2
  | unsigned8 | signed6 | lw | ld | lwsp | ldsp | swsp | sdsp => exact eq_of_beq h

/-- The value that an upper immediate loads is a multiple of 4096, so it comes back whole. -/
theorem extract_luiValue (h : luiValue.allows x v = true) :
    (Immediate.ci.extract (Immediate.ci.encode (luiValue.stored v))).toBitVec <<< 12 =
      v.toBitVec := by
  have hextract : Immediate.ci.extract (Immediate.ci.encode (luiValue.stored v)) =
      luiValue.stored v := extract_of_allows (by decide) (by decide) h
  simp only [allows, Bool.and_eq_true, beq_iff_eq] at h
  rw [hextract]
  exact sshiftRight_shiftLeft_of_and h.1.2

end CompressedImm

/-! ### Operands -/

namespace Operand

/-- What decoding makes of a value: the value itself, but the bits of upper immediates and of
compressed shift amounts are taken for signed numbers. -/
def decoded (op : Operand) (v : Int64) : Int64 :=
  match op with
  | .upper => Int64.ofBitVec ((v.toBitVec.setWidth 20).signExtend 64)
  | .compressedImm .shamt => if v < 32 then v else v - 64
  | _ => v

/-- What decoding makes of a constant under a modifier: its upper or lower part, as a signed
number. -/
def decodedPart (op : Operand) (v : Int64) : Int64 :=
  match op with
  | .upper => Int64.ofBitVec (((v.toBitVec + 0x800).extractLsb' 12 20).signExtend 64)
  | _ => Int64.ofBitVec ((v.toBitVec.setWidth 12).signExtend 64)

/-- What decoding makes of a reading. Operands without bits have no value, and expressions left for
later have left zero. -/
def recovered (op : Operand) (r : Reading) : Option Int64 :=
  if op.bits = 0 then none
  else
    match r with
    | .nothing => none
    | .value v => some (op.decoded v)
    | .folded _ v => some (op.decodedPart v)
    | .pending _ _ => some 0

variable {x : Xlen} {op : Operand} {v : Int64} {r : Reading}

/-- Decoding looks at the bits of the operand only. -/
theorem extract?_and_bits (op : Operand) (w : Word) :
    op.extract? (w &&& op.bits) = op.extract? w := by
  have hfield : ∀ f : Field, f.extract (w &&& f.mask) = f.extract w := fun f =>
    Field.extract_and BitVec.and_self w
  have himmediate := fun l : Immediate => l.extract_and_mask w
  cases op with
  | bothSources =>
    simp only [extract?]
    rw [Field.extract_and (by decide)]
  | compressedImm i =>
    cases i <;> simp [extract?, bits, field?, immediate?, CompressedImm.immediate, himmediate]
  | _ => simp [extract?, bits, field?, immediate?, hfield, himmediate]

theorem width_of_field? {f : Field} (h : op.field? = some f) :
    f.shift + f.width ≤ 64 ∧ f.mask ≠ 0 := by
  cases op with
  | register bank slot => cases h; cases slot <;> decide
  | shortRegister bank slot => cases h; cases slot <;> decide
  | ranged r => cases h; cases r <;> decide
  | csr => cases h; decide
  | keyword k => cases h; cases k <;> decide
  | opcode => cases h; decide
  | _ => cases h

theorem mask_of_immediate? {l : Immediate} (h : op.immediate? = some l) : l.mask ≠ 0 := by
  cases op with
  | imm12 i => cases h; cases i <;> decide
  | upper => cases h; decide
  | target k => cases h; cases k <;> decide
  | compressedImm i => cases h; cases i <;> decide
  | _ => cases h

/-- Operands without bits have no value. -/
theorem extract?_of_bits_eq_zero (h : op.bits = 0) (w : Word) : op.extract? w = none := by
  have hfield : ∀ f, op.field? = some f → f.mask ≠ 0 := fun _ hf => (width_of_field? hf).2
  have himmediate : ∀ l, op.immediate? = some l → l.mask ≠ 0 := fun _ => mask_of_immediate?
  cases op with
  | bothSources => exact absurd h (by decide)
  | register bank slot => exact absurd h (hfield _ rfl)
  | shortRegister bank slot => exact absurd h (hfield _ rfl)
  | ranged r => exact absurd h (hfield _ rfl)
  | csr => exact absurd h (hfield _ rfl)
  | keyword k => exact absurd h (hfield _ rfl)
  | opcode => exact absurd h (hfield _ rfl)
  | imm12 i => exact absurd h (himmediate _ rfl)
  | upper => exact absurd h (himmediate _ rfl)
  | target k => exact absurd h (himmediate _ rfl)
  | compressedImm i => exact absurd h (himmediate _ rfl)
  | _ => rfl

/-- A value that the bits of an operand hold comes back. -/
theorem extract?_placed (hbits : op.bits ≠ 0) (hv : op.Holds x v) :
    op.extract? (op.placed v) = some (op.decoded v) := by
  have hwidth : ∀ f, op.field? = some f → f.shift + f.width ≤ 64 := fun _ hf =>
    (width_of_field? hf).1
  have hfield : ∀ f, op.field? = some f → v.toBitVec.toNat < 2 ^ f.width →
      some (Int64.ofBitVec (f.extract (v.toBitVec <<< f.shift))) = some v := by
    intro f hf hw
    rw [Field.extract_shiftLeft (hwidth f hf) hw, Int64.ofBitVec_toBitVec]
  cases op with
  | bothSources =>
    have hsecond : v.toBitVec <<< Field.rs2.shift &&& Field.rs1.mask = 0 := by
      rw [← Field.shiftLeft_and_mask (f := Field.rs2) hv, BitVec.and_assoc,
        show Field.rs2.mask &&& Field.rs1.mask = 0 by decide]
      exact BitVec.and_zero
    have hfirst : Field.rs1.extract (bothSources.placed v) = v.toBitVec := by
      rw [placed, ← Field.extract_and BitVec.and_self, BitVec.or_comm, or_and_of_apart hsecond,
        Field.extract_and BitVec.and_self, Field.extract_shiftLeft (f := Field.rs1) (by decide) hv]
    exact congrArg (fun w => some (Int64.ofBitVec w)) hfirst
  | register bank slot => exact hfield _ rfl hv
  | shortRegister bank slot =>
    have hslot := Field.extract_shiftLeft (hwidth slot.field rfl) hv
    simp only [extract?, placed, decoded, hslot, Int64.ofBitVec_toBitVec, Int64.sub_add_cancel]
  | ranged r => exact hfield _ rfl hv
  | csr => exact hfield _ rfl hv
  | keyword k => exact hfield _ rfl hv
  | opcode => exact hfield _ rfl hv
  | imm12 i => exact congrArg some (eq_of_beq hv)
  | upper =>
    have hplaced : upper.placed v = Immediate.u.encode (Int64.ofBitVec (v.toBitVec <<< 12)) :=
      (Immediate.encode_u hv).symm
    have hslice : (v.toBitVec <<< 12).extractLsb' 12 20 = v.toBitVec.setWidth 20 := by
      apply BitVec.eq_of_getLsbD_eq
      intro i hi
      have hword : 12 + i < 64 := by omega
      rw [BitVec.getLsbD_extractLsb', BitVec.getLsbD_shiftLeft, BitVec.getLsbD_setWidth,
        Nat.add_sub_cancel_left]
      simp [hword]
    rw [hplaced, extract?, Immediate.extract_encode_u, Int64.toBitVec_ofBitVec, hslice]
    rfl
  | target k => exact congrArg some (eq_of_beq hv)
  | compressedImm i =>
    cases i with
    | shamt => exact congrArg some (CompressedImm.extract_shamt hv)
    | lui => exact congrArg (fun w => some (Int64.ofBitVec w)) (CompressedImm.extract_lui hv)
    | luiValue =>
      exact congrArg (fun w => some (Int64.ofBitVec w)) (CompressedImm.extract_luiValue hv)
    | _ => exact congrArg some (CompressedImm.extract_of_allows (by decide) (by decide) hv)
  | _ => exact absurd rfl hbits

/-- The part of a constant that a modifier selects comes back as a signed number. -/
theorem extract?_part (hpart : op.takesPart = true) {l : Immediate}
    (himmediate : op.immediate? = some l) :
    op.extract? (l.encode (op.part v)) = some (op.decodedPart v) := by
  cases op with
  | imm12 i =>
    cases himmediate
    cases i <;> exact congrArg some (Immediate.extract_encode_of_full (by decide) rfl (by decide) v)
  | upper =>
    cases himmediate
    have hslice : (RelocType.highPart v).toBitVec.extractLsb' 12 20 =
        (v.toBitVec + 0x800).extractLsb' 12 20 := by
      change ((v.toBitVec + 0x800) &&& ~~~0xfff).extractLsb' 12 20 = _
      have hmask : (~~~0xfff : Word).extractLsb' 12 20 = BitVec.allOnes 20 := by decide
      rw [BitVec.extractLsb'_and, hmask, BitVec.and_allOnes]
    rw [extract?, Immediate.extract_encode_u, part, hslice]
    rfl
  | _ => cases hpart

/-- An operand that leaves an expression for later leaves zero. -/
theorem extract?_zero (hdeferred : op.isDeferred = true) (hbits : op.bits ≠ 0) :
    op.extract? 0 = some 0 := by
  cases op with
  | imm12 i => cases i <;> decide
  | upper => decide
  | target k => cases k <;> decide
  | tprelAdd | call | constant | symbol | address => exact absurd rfl hbits
  | _ => cases hdeferred

/-- Decoding a contribution gives back what the reading says. -/
theorem extract?_contribution (h : op.Gives x r) :
    op.extract? (op.contribution r) = op.recovered r := by
  unfold recovered
  split
  · rename_i hbits
    exact extract?_of_bits_eq_zero hbits _
  · rename_i hbits
    cases h with
    | nothing hnone => exact absurd hnone hbits
    | value hv => exact extract?_placed hbits hv
    | folded hpart himmediate _ =>
      simp only [contribution, himmediate]
      exact extract?_part hpart himmediate
    | constant hconstant v => exact extract?_zero (isDeferred_of_leavesConstant hconstant) hbits
    | symbol hdeferred => exact extract?_zero hdeferred hbits

end Operand

/-- **Words give back what their operands read.** Whatever text a template of the tables takes, in
every context and with every evaluator, decoding each operand from the word gives the value that was
read for it, in full: registers, control registers, keywords, constants in their ranges and offsets
as they are, twenty bits and the parts under a modifier as signed numbers, and a compressed shift
amount as a signed number of six bits. Operands without bits, and only they, have no value. -/
theorem words_give_back_their_operands {cs : Catalogs} (hcs : Catalogs.standard = .ok cs)
    {t : Template} (ht : t ∈ cs.instructions.templates ++ cs.fieldTypes.templates)
    (hreal : t.isPseudo = false) {ctx : Context} {s : List Char} {e : Encoded}
    (h : t.encode ctx s = .ok e) :
    ∃ rs, Template.readOperands ctx t.mnemonic t.start t.operands s = .ok rs ∧
      rs.length = t.operands.length ∧
      ∀ p ∈ t.operands.zip rs, p.1.extract? e.bits = p.1.recovered p.2 := by
  obtain ⟨rs, hread, hlength, -, hslices⟩ := Template.slices_of_encode hcs ht hreal h
  refine ⟨rs, hread, hlength, fun p hp => ?_⟩
  obtain ⟨hgives, hslice⟩ := hslices p hp
  rw [← Operand.extract?_and_bits, hslice, Operand.extract?_contribution hgives]

/-- The readings of a register, a negative offset and a base register. -/
def offsetReadings : List Reading :=
  [.value 10, .nothing, .value (-4), .nothing, .value 11, .nothing]

/-- The negative offset of a store comes back from its two runs. -/
theorem words_give_back_their_operands_store :
    ∃ cs e, Catalogs.standard = .ok cs ∧ storeTemplate ∈ cs.instructions.templates ∧
      storeTemplate.isPseudo = false ∧
      storeTemplate.encode ⟨⟨.rv64, []⟩, false, false, false, .basic⟩ "a0,-4(a1)".toList = .ok e ∧
      List.zipWith Operand.recovered storeTemplate.operands offsetReadings =
        [some 10, none, some (-4), none, some 11, none] ∧
      ∀ p ∈ storeTemplate.operands.zip offsetReadings, p.1.extract? e.bits = p.1.recovered p.2 := by
  obtain ⟨cs, hcs⟩ := Catalogs.exists_standard
  have ht := storeTemplate_mem hcs
  obtain ⟨e, he⟩ : ∃ e, storeTemplate.encode ⟨⟨.rv64, []⟩, false, false, false, .basic⟩
      "a0,-4(a1)".toList = .ok e := exists_ok_of_isOk (by decide +kernel)
  obtain ⟨rs, hread, -, hrecovered⟩ :=
    words_give_back_their_operands hcs (List.mem_append_left _ ht) rfl he
  have hreadings : Template.readOperands ⟨⟨.rv64, []⟩, false, false, false, .basic⟩
      storeTemplate.mnemonic storeTemplate.start storeTemplate.operands "a0,-4(a1)".toList =
        .ok offsetReadings := by
    decide +kernel
  obtain rfl := Except.ok.inj (hread.symm.trans hreadings)
  exact ⟨cs, e, hcs, ht, rfl, he, by decide +kernel, hrecovered⟩

/-- The compressed shift to the left of the instruction table. -/
def shiftTemplate : Template :=
  Row.asTemplate (.insn "c.slli" none .c "d,C>" 0x2 0xe003 .rdNonZero)

/-- A compressed shift by 33 comes back as one by -31. -/
theorem compressed_shift_decodes_negative :
    ∃ cs ctx e, Catalogs.standard = .ok cs ∧
      cs.instructions.encode ctx "c.slli" "a0,33".toList = .ok e ∧
      e.template = shiftTemplate ∧
      Template.readOperands ctx shiftTemplate.mnemonic shiftTemplate.start shiftTemplate.operands
        "a0,33".toList = .ok [.value 10, .nothing, .value 33] ∧
      shiftTemplate.operands.map (·.extract? e.bits) = [some 10, none, some (-31)] := by
  obtain ⟨cs, hcs⟩ := Catalogs.exists_standard
  refine ⟨cs, ⟨⟨.rv64, [⟨"i", ⟨2, 0⟩⟩, ⟨"c", ⟨2, 0⟩⟩]⟩, true, false, true, .basic⟩,
    ⟨shiftTemplate, 0x1506, none, none⟩, hcs, ?_, rfl, by decide +kernel, by decide +kernel⟩
  rw [Catalog.encode, lookup_standard hcs]
  decide +kernel

end RiscvAssembler
