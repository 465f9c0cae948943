import RiscvAssembler.Proofs.Template.Catalog

/-!
The tables of the assembler. They have no defect (`Catalogs.exists_standard`), so a mnemonic has the
templates of its rows, in table order (`lookup_standard`). What holds of every template is checked
row by row, with the formats read off their bytes (`of_mem_map_asTemplate`). The classes of the
instructions come first: the subsets that they belong to, and whether `rvc` switches them.
-/

namespace RiscvAssembler

namespace InstructionClass

variable {k : InstructionClass} {isa : Isa} {rvc : Bool}

/-- The classes that are switched by `rvc`. -/
def isCompressed : InstructionClass → Bool
  | .c | .fc | .dc => true
  | .i | .a | .m | .f | .d | .q => false

/-- The subsets that a class belongs to. -/
def subsets : InstructionClass → List String
  | .i => ["i"]
  | .c => ["c"]
  | .a => ["a"]
  | .m => ["m"]
  | .f => ["f"]
  | .d => ["d"]
  | .q => ["q"]
  | .fc => ["c", "f"]
  | .dc => ["c", "d"]

theorem isPartOf_eq (k : InstructionClass) (isa : Isa) (rvc : Bool) :
    k.isPartOf isa rvc = ((rvc || !k.isCompressed) && k.subsets.all isa.has) := by
  cases k <;> simp [isPartOf, isCompressed, subsets, Bool.and_assoc]

theorem compressed_of_isPartOf (hk : k.isCompressed = true) (h : k.isPartOf isa rvc = true) :
    rvc = true ∧ isa.has "c" = true := by
  have hc : "c" ∈ k.subsets := by
    cases k with
    | c | fc | dc => exact .head _
    | _ => cases hk
  rw [isPartOf_eq, hk, Bool.not_true, Bool.or_false, Bool.and_eq_true, List.all_eq_true] at h
  exact ⟨h.1, h.2 "c" hc⟩

theorem isPartOf_of_off (h : k.isPartOf isa false = true) : k.isPartOf isa rvc = true := by
  rw [isPartOf_eq, Bool.and_eq_true] at h ⊢
  refine ⟨?_, h.2⟩
  rw [Bool.false_or] at h
  rw [h.1, Bool.or_true]

end InstructionClass

/-! ### Templates of the tables -/

/-- The templates of all instructions. -/
def standardTemplates : List Template :=
  instructionRows.map Row.asTemplate

theorem build_of_standard {cs : Catalogs} (h : Catalogs.standard = .ok cs) :
    Catalog.build instructionRows = .ok cs.instructions ∧
      Catalog.build Table.fieldTypeRows = .ok cs.fieldTypes := by
  obtain ⟨instructions, hinstructions, h⟩ := bind_eq_ok_iff.1 h
  obtain ⟨fieldTypes, hfieldTypes, h⟩ := bind_eq_ok_iff.1 h
  cases h
  exact ⟨hinstructions, hfieldTypes⟩

theorem templates_standard {cs : Catalogs} (h : Catalogs.standard = .ok cs) :
    cs.instructions.templates = standardTemplates :=
  Catalog.templates_eq_map (build_of_standard h).1

theorem lookup_standard {cs : Catalogs} (h : Catalogs.standard = .ok cs) (name : String) :
    cs.instructions.lookup name = standardTemplates.filter (·.mnemonic == name) := by
  rw [Catalog.lookup_eq_filter (build_of_standard h).1, templates_standard h]

/-! ### Rows by their bytes -/

/-- The template of a row, with its format read off its bytes. -/
def Row.byteTemplate (r : Row) : Template :=
  { r.asTemplate with operands := (Format.read (Text.asciiChars r.format)).toOption.getD [] }

theorem Row.asTemplate_eq_byteTemplate {r : Row} (h : Text.isAscii r.format = true) :
    r.asTemplate = r.byteTemplate := by
  rw [byteTemplate, ← Text.toList_eq_asciiChars h]
  rfl

/-- Whether a row has a format in ASCII that spells operands, and consistent bits. -/
def Row.isSound (r : Row) : Bool :=
  Text.isAscii r.format && (Format.read (Text.asciiChars r.format)).isOk &&
    (r.byteTemplate.validate r.length).isOk

theorem Row.exists_template_of_isSound {r : Row} (h : r.isSound = true) :
    ∃ t, Catalog.template r = .ok t := by
  simp only [isSound, Bool.and_eq_true] at h
  obtain ⟨⟨hascii, hread⟩, hvalid⟩ := h
  rw [← Text.toList_eq_asciiChars hascii] at hread
  rw [← asTemplate_eq_byteTemplate hascii] at hvalid
  obtain ⟨operands, hread⟩ := exists_ok_of_isOk hread
  obtain ⟨_, hvalid⟩ := exists_ok_of_isOk hvalid
  exact Catalog.exists_template hread hvalid

theorem isSound_of_mem {r : Row} (h : r ∈ instructionRows ++ Table.fieldTypeRows) :
    r.isSound = true := by
  have hall : (instructionRows ++ Table.fieldTypeRows).all Row.isSound = true := by decide +kernel
  exact List.all_eq_true.1 hall r h

theorem Row.asTemplate_of_mem {r : Row} (h : r ∈ instructionRows ++ Table.fieldTypeRows) :
    r.asTemplate = r.byteTemplate := by
  have hsound := isSound_of_mem h
  simp only [isSound, Bool.and_eq_true] at hsound
  exact asTemplate_eq_byteTemplate hsound.1.1

theorem standardTemplates_eq_map : standardTemplates = instructionRows.map Row.byteTemplate := by
  apply List.map_congr_left
  intro r hr
  exact Row.asTemplate_of_mem (List.mem_append_left _ hr)

/-- What holds of rows by their bytes holds of their templates. -/
theorem of_mem_map_asTemplate {rows : List Row}
    (hrows : rows ⊆ instructionRows ++ Table.fieldTypeRows) (p : Template → Bool)
    (hall : rows.all (fun r => p r.byteTemplate) = true) {t : Template}
    (ht : t ∈ rows.map Row.asTemplate) : p t = true := by
  obtain ⟨r, hr, rfl⟩ := List.mem_map.1 ht
  rw [Row.asTemplate_of_mem (hrows hr)]
  exact List.all_eq_true.1 hall r hr

theorem of_mem_standardTemplates (p : Template → Bool)
    (hall : instructionRows.all (fun r => p r.byteTemplate) = true) {t : Template}
    (ht : t ∈ standardTemplates) : p t = true :=
  of_mem_map_asTemplate (List.subset_append_left _ _) p hall ht

theorem of_mem_fieldTypes (p : Template → Bool)
    (hall : Table.fieldTypeRows.all (fun r => p r.byteTemplate) = true) {t : Template}
    (ht : t ∈ Table.fieldTypeRows.map Row.asTemplate) : p t = true :=
  of_mem_map_asTemplate (List.subset_append_right _ _) p hall ht

theorem of_mem_standard {cs : Catalogs} (hcs : Catalogs.standard = .ok cs) (p : Template → Bool)
    (hall : (instructionRows ++ Table.fieldTypeRows).all (fun r => p r.byteTemplate) = true)
    {t : Template} (ht : t ∈ cs.instructions.templates ++ cs.fieldTypes.templates) :
    p t = true := by
  obtain ⟨hinstructions, hfieldTypes⟩ := build_of_standard hcs
  rw [Catalog.templates_eq_map hinstructions, Catalog.templates_eq_map hfieldTypes,
    ← List.map_append] at ht
  exact of_mem_map_asTemplate (List.Subset.refl _) p hall ht

theorem exists_build_of_standTogether {rows : List Row}
    (hsound : ∀ r ∈ rows, r.isSound = true)
    (htogether : Catalog.standTogether none ∅ (rows.map fun r => Text.code r.mnemonic) = true) :
    ∃ c, Catalog.build rows = .ok c := by
  apply Catalog.exists_build
  · intro r hr
    exact Row.exists_template_of_isSound (hsound r hr)
  · have hnames : Catalog.standTogether none ∅ ((rows.map Row.mnemonic).map Text.code) = true := by
      rw [List.map_map]
      exact htogether
    exact Catalog.grouped_of_standTogether (by simp) hnames

/-- **The tables have no defect.** -/
theorem Catalogs.exists_standard : ∃ cs, Catalogs.standard = .ok cs := by
  obtain ⟨instructions, hinstructions⟩ :=
    exists_build_of_standTogether (fun _ hr => isSound_of_mem (List.mem_append_left _ hr))
      (by decide +kernel)
  obtain ⟨fieldTypes, hfieldTypes⟩ :=
    exists_build_of_standTogether (fun _ hr => isSound_of_mem (List.mem_append_right _ hr))
      (by decide +kernel)
  exact ⟨⟨instructions, fieldTypes⟩, bind_eq_ok_iff.2
    ⟨instructions, hinstructions, bind_eq_ok_iff.2 ⟨fieldTypes, hfieldTypes, rfl⟩⟩⟩

end RiscvAssembler
