import RiscvAssembler.Proofs.Encoding.Ownership

/-!
Lengths of instructions given field by field. Their types fix the length, while a processor takes it
from the low bits of the word, which are those of the opcode that comes first in the text
(`Template.first_of_encode`). A number is checked for these bits, and so is the quadrant of a
compressed instruction. A name is not: it stands for its number in the table, and the names of the
quadrants are in the same table as those of the major opcodes (`Reading.low_bits_of_opcode`).
-/

namespace RiscvAssembler

/-! ### Words -/

/-- Four bytes are announced by two low bits, unless three more ask for a longer instruction. -/
theorem instructionLength_eq_four_iff (w : Word) :
    instructionLength w = 4 ↔ w &&& 0b11 = 0b11 ∧ w &&& 0b11111 ≠ 0b11111 := by
  unfold instructionLength
  by_cases hlow : w &&& 0b11 = 0b11
  · by_cases hmore : w &&& 0b11111 = 0b11111
    · rw [if_neg (not_not_intro hlow), if_neg (not_not_intro hmore)]
      constructor
      · intro h
        split at h
        · cases h
        · split at h <;> cases h
      · intro h
        exact absurd hmore h.2
    · rw [if_neg (not_not_intro hlow), if_pos hmore]
      exact iff_of_true rfl ⟨hlow, hmore⟩
  · rw [if_pos hlow]
    exact iff_of_false (by decide) fun h => hlow h.1

theorem and_three_ne_three {w : Word} (h : w.toNat < 3) : w &&& 0b11 ≠ 0b11 := by
  intro hlow
  have hle : (w &&& 0b11).toNat ≤ w.toNat := by
    rw [BitVec.toNat_and]
    exact Nat.and_le_left
  rw [hlow] at hle
  exact absurd h (Nat.not_lt.2 hle)

/-! ### Opcodes -/

/-- Names of the quadrants of the compressed instructions. -/
def quadrantNames : List String :=
  ["C0", "C1", "C2"]

/-- The name that a text starts with, empty if it starts with none. -/
def leadingName (s : List Char) : String :=
  String.ofList ((Text.dropBlanks s).takeWhile Text.isWordChar)

/-- The names that do not announce four bytes are those of the quadrants. -/
theorem majorOpcodes_low_bits :
    ∀ p ∈ majorOpcodes, (Int64.ofNat p.2).toBitVec &&& 0b11 = 0b11 ↔ p.1 ∉ quadrantNames := by
  decide

theorem lookup_quadrantNames :
    ∀ name ∈ quadrantNames, (majorOpcodes.lookup name).isSome = true := by
  decide

namespace Reading

variable {ctx : Context} {mnemonic : String} {s rest : List Char} {r : Reading}

/-- An opcode announces four bytes unless it is the name of a quadrant. -/
theorem low_bits_of_opcode (h : opcode ctx mnemonic s = .ok (r, rest)) :
    ∃ v : Int64, r = .value v ∧ (v.toBitVec &&& 0b11 = 0b11 ↔
      String.ofList (s.takeWhile Text.isWordChar) ∉ quadrantNames) := by
  unfold opcode at h
  split at h
  · -- The bits of a name are those in the table.
    rename_i found hfound
    obtain ⟨n, hn, rfl⟩ := number_eq_ok_iff.1 h
    obtain rfl := Option.some.inj hn
    obtain ⟨m, hlookup, heq⟩ := Option.map_eq_some_iff.1 hfound
    cases heq
    exact ⟨Int64.ofNat n, rfl, majorOpcodes_low_bits _ (mem_of_lookup hlookup)⟩
  · -- The bits of a number are checked.
    rename_i hnone
    obtain ⟨⟨v, after⟩, -, h⟩ := bind_eq_ok_iff.1 h
    dsimp only at h
    split at h
    · rename_i hlow
      cases h
      refine ⟨v, rfl, iff_of_true hlow fun hquadrant => ?_⟩
      have hsome := lookup_quadrantNames _ hquadrant
      rw [Option.map_eq_none_iff.1 hnone] at hsome
      cases hsome
    · cases h

/-- A number below three never announces four bytes. -/
theorem low_bits_of_ranged {what : String} (h : ranged ctx mnemonic what 2 s = .ok (r, rest)) :
    ∃ v : Int64, r = .value v ∧ v.toBitVec &&& 0b11 ≠ 0b11 := by
  obtain ⟨⟨v, after⟩, hupTo, h⟩ := bind_eq_ok_iff.1 h
  cases h
  obtain ⟨hlow, hhigh⟩ := bound_of_upTo hupTo
  have hnonneg : 0 ≤ v.toInt := Int64.le_iff_toInt_le.1 hlow
  have hle : v.toInt ≤ 2 := Int64.le_iff_toInt_le.1 hhigh
  have hnat := toNat_of_nonneg hnonneg
  exact ⟨v, rfl, and_three_ne_three (by omega)⟩

end Reading

/-! ### Templates -/

namespace Template

variable {cs : Catalogs} {ctx : Context} {t : Template} {op : Operand} {s : List Char} {e : Encoded}

/-- The first operand reads the start of the text, and its bits in the word hold what it
contributes. -/
theorem first_of_encode (hcs : Catalogs.standard = .ok cs)
    (ht : t ∈ cs.instructions.templates ++ cs.fieldTypes.templates) (hreal : t.isPseudo = false)
    (hhead : t.operands.head? = some op) (h : t.encode ctx s = .ok e) :
    ∃ r rest, op.read ctx t.mnemonic t.matchBits (Text.dropBlanks s) = .ok (r, rest) ∧
      e.bits &&& op.bits = op.contribution r := by
  obtain ⟨ops, hops⟩ := List.head?_eq_some_iff.1 hhead
  obtain ⟨rs, hread, -, -, hslices⟩ := slices_of_encode hcs ht hreal h
  rw [hops] at hread hslices
  obtain ⟨⟨r, rest⟩, hfirst, hread⟩ := bind_eq_ok_iff.1 hread
  obtain ⟨more, -, hread⟩ := bind_eq_ok_iff.1 hread
  cases hread
  exact ⟨r, rest, hfirst, (hslices (op, r) (.head _)).2⟩

/-- A type of four bytes opens with an opcode, and one of two bytes with a quadrant. -/
theorem opens_of_mem_fieldTypes : ∀ t ∈ Table.fieldTypeRows.map Row.asTemplate,
    t.isPseudo = false ∧ (t.length = 4 ∧ t.operands.head? = some .opcode ∨
      t.length = 2 ∧ t.operands.head? = some (.ranged .quadrant)) := by
  intro t ht
  have hopens := of_mem_fieldTypes (fun t => !t.isPseudo &&
    (t.length == 4 && t.operands.head? == some .opcode ||
      t.length == 2 && t.operands.head? == some (.ranged .quadrant))) (by decide +kernel) ht
  simpa using hopens

/-- An operand at the low end of a word decides on its low bits. -/
theorem low_bits_of_slice {w : Word} {v : Int64} (hop : op.bits &&& 0b11 = 0b11)
    (hplaced : op.placed v = v.toBitVec) (h : w &&& op.bits = op.contribution (.value v)) :
    w &&& 0b11 = v.toBitVec &&& 0b11 :=
  calc w &&& 0b11
      = w &&& op.bits &&& 0b11 := by rw [BitVec.and_assoc, hop]
    _ = op.placed v &&& 0b11 := by rw [h]; rfl
    _ = v.toBitVec &&& 0b11 := by rw [hplaced]

/-- The low bits of the word announce four bytes if the type has them and the opcode is not the name
of a quadrant. -/
theorem low_bits_of_encode (hcs : Catalogs.standard = .ok cs)
    (ht : t ∈ Table.fieldTypeRows.map Row.asTemplate) (h : t.encode ctx s = .ok e) :
    (t.length = 2 ∨ t.length = 4) ∧
      (e.bits &&& 0b11 = 0b11 ↔ t.length = 4 ∧ leadingName s ∉ quadrantNames) := by
  have hmem : t ∈ cs.instructions.templates ++ cs.fieldTypes.templates := by
    rw [Catalog.templates_eq_map (build_of_standard hcs).2]
    exact List.mem_append_right _ ht
  obtain ⟨hreal, ⟨hlength, hhead⟩ | ⟨hlength, hhead⟩⟩ := opens_of_mem_fieldTypes t ht
  · obtain ⟨r, rest, hread, hslice⟩ := first_of_encode hcs hmem hreal hhead h
    obtain ⟨v, rfl, hlow⟩ := Reading.low_bits_of_opcode hread
    rw [low_bits_of_slice (by decide) (BitVec.shiftLeft_zero _) hslice, hlow]
    exact ⟨.inr hlength, (and_iff_right hlength).symm⟩
  · obtain ⟨r, rest, hread, hslice⟩ := first_of_encode hcs hmem hreal hhead h
    obtain ⟨v, rfl, hlow⟩ := Reading.low_bits_of_ranged hread
    rw [low_bits_of_slice (by decide) (BitVec.shiftLeft_zero _) hslice, hlength]
    exact ⟨.inl rfl, iff_of_false hlow fun hfour => absurd hfour.1 (by decide)⟩

end Template

/-- Fields are encoded by the rows of their type. -/
theorem exists_encode_of_rows {cs : Catalogs} (hcs : Catalogs.standard = .ok cs) {ctx : Context}
    {type : String} {text : List Char} {bits : Word} {length : Nat}
    (h : ((encodeWith ctx type ((Table.fieldTypeRows.map Row.asTemplate).filter
      (·.mnemonic == type)) text).toOption.map fun e => (e.bits, e.length)) = some (bits, length)) :
    ∃ e, cs.fieldTypes.encode ctx type text = .ok e ∧ e.bits = bits ∧ e.length = length := by
  rw [Catalog.encode, Catalog.lookup_eq_filter (build_of_standard hcs).2,
    Catalog.templates_eq_map (build_of_standard hcs).2]
  obtain ⟨e, he, hpair⟩ := Option.map_eq_some_iff.1 h
  obtain ⟨hbits, hlength⟩ := Prod.mk.inj hpair
  exact ⟨e, eq_ok_of_toOption he, hbits, hlength⟩

/-- **When the low bits of a word announce its length.** Whatever fields are given for a type, in
every context: the word has two or four bytes, and its low two bits are both set exactly if it has
four and its opcode is not the name of a quadrant. So a processor takes it for an instruction of the
length that it has if that is two bytes, or if the opcode is not such a name and its low five bits
do not ask for more than four. -/
theorem low_bits_announce_length {cs : Catalogs} (hcs : Catalogs.standard = .ok cs) {ctx : Context}
    {type : String} {text : List Char} {e : Encoded}
    (h : cs.fieldTypes.encode ctx type text = .ok e) :
    (e.length = 2 ∨ e.length = 4) ∧
      (e.bits &&& 0b11 = 0b11 ↔ e.length = 4 ∧ leadingName text ∉ quadrantNames) ∧
      (instructionLength e.bits = e.length ↔
        e.length = 2 ∨ leadingName text ∉ quadrantNames ∧ e.bits &&& 0b11111 ≠ 0b11111) := by
  obtain ⟨ht, -, hencode⟩ := Catalog.exists_of_encode (build_of_standard hcs).2 h
  obtain ⟨hlength, hlow⟩ : (e.length = 2 ∨ e.length = 4) ∧
      (e.bits &&& 0b11 = 0b11 ↔ e.length = 4 ∧ leadingName text ∉ quadrantNames) :=
    Template.low_bits_of_encode hcs ht hencode
  refine ⟨hlength, hlow, ?_⟩
  rcases hlength with htwo | hfour
  · have hshort : e.bits &&& 0b11 ≠ 0b11 := by
      rw [Ne, hlow, htwo]
      exact fun hfour => absurd hfour.1 (by decide)
    exact iff_of_true ((if_pos hshort).trans htwo.symm) (.inl htwo)
  · rw [hfour, instructionLength_eq_four_iff, hlow, hfour]
    simp

/-- The name of an opcode for extensions, with the low bits of four bytes. -/
theorem low_bits_announce_length_custom :
    ∃ cs e, Catalogs.standard = .ok cs ∧
      cs.fieldTypes.encode ⟨generalIsa, true, false, true, .basic⟩ "r"
        "CUSTOM_0, 0, 0, a0, a1, a2".toList = .ok e ∧
      e.length = 4 ∧ e.bits &&& 0b11 = 0b11 ∧ instructionLength e.bits = 4 := by
  obtain ⟨cs, hcs⟩ := Catalogs.exists_standard
  obtain ⟨e, hencode, hbits, hlength⟩ : ∃ e,
      cs.fieldTypes.encode ⟨generalIsa, true, false, true, .basic⟩ "r"
        "CUSTOM_0, 0, 0, a0, a1, a2".toList = .ok e ∧ e.bits = 0xc5850b ∧ e.length = 4 :=
    exists_encode_of_rows hcs (by decide +kernel)
  obtain ⟨-, hlow, hfetched⟩ := low_bits_announce_length hcs hencode
  have hname : leadingName "CUSTOM_0, 0, 0, a0, a1, a2".toList ∉ quadrantNames := by decide
  refine ⟨cs, e, hcs, hencode, hlength, hlow.2 ⟨hlength, hname⟩, ?_⟩
  rw [← hlength]
  exact hfetched.2 (.inr ⟨hname, by rw [hbits]; decide⟩)

/-- **The name of a quadrant passes for a major opcode.** The word has four bytes, and its low bits
announce two. -/
theorem quadrant_name_announces_two_bytes :
    ∃ cs e, Catalogs.standard = .ok cs ∧
      cs.fieldTypes.encode ⟨generalIsa, true, false, true, .basic⟩ "r"
        "C1, 0, 0, a0, a1, a2".toList = .ok e ∧
      e.length = 4 ∧ e.bits &&& 0b11 = 0b01 ∧ instructionLength e.bits = 2 := by
  obtain ⟨cs, hcs⟩ := Catalogs.exists_standard
  obtain ⟨e, hencode, hbits, hlength⟩ : ∃ e,
      cs.fieldTypes.encode ⟨generalIsa, true, false, true, .basic⟩ "r"
        "C1, 0, 0, a0, a1, a2".toList = .ok e ∧ e.bits = 0xc58501 ∧ e.length = 4 :=
    exists_encode_of_rows hcs (by decide +kernel)
  refine ⟨cs, e, hcs, hencode, hlength, ?_, ?_⟩
  · rw [hbits]
    decide
  · rw [hbits]
    decide

end RiscvAssembler
