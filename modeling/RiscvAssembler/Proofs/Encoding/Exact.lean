import RiscvAssembler.Proofs.Encoding.Ownership
import RiscvAssembler.Proofs.Encoding.Target

/-!
Templates that a search is bound to end at. Where all templates before one refuse what was printed for
it, or are compressed and may not be used, the text is encoded by that template and no other
(`encode_of_exactBits?`), and so its word is known.
-/

namespace RiscvAssembler

/-! ### Templates that want less -/

/-- Whether the second list ends where the first one has a mark, and takes the same tokens before. -/
def stopsShort : List Operand → List Operand → Bool
  | .mark _ :: _, [] => true
  | op :: ops, op' :: ops' => op.covers op' && stopsShort ops ops'
  | _, _ => false

theorem readOperands_of_stopsShort {ctx : Context} (hev : ctx.evaluator.Separates ctx.reduced)
    {mnemonic : String} {ops ops' : List Operand} (h : stopsShort ops ops' = true) {s : List Char}
    {τs : List Token} (hspells : Spells ctx ops s τs) {d : Draft}
    (htakes : TakesAll ctx.isa.xlen d ops τs) (d' : Draft) :
    Template.readOperands ctx mnemonic d' ops' s = .error .differs := by
  fun_induction stopsShort ops ops' generalizing s τs d d' with
  | case1 m ops =>
    obtain ⟨τ, rest, τs, rfl, hat, -⟩ := hspells
    obtain rfl := Operand.takes_mark_iff.1 htakes.1
    have hmark : Text.afterChar? m.char (Text.dropBlanks s) = some rest := hat
    unfold Template.readOperands
    rw [if_neg]
    intro hend
    rw [List.isEmpty_iff.1 hend] at hmark
    cases hmark
  | case2 op ops op' ops' ih =>
    obtain ⟨hop, hops⟩ := Bool.and_eq_true_iff.1 h
    obtain ⟨τ, rest, τs, rfl, hat, hspells⟩ := hspells
    obtain ⟨htake, htakes⟩ := htakes
    rw [Operand.mayBeOmitted_of_covers hop] at hat
    unfold Template.readOperands
    rw [Operand.read_of_takes hev hat (Operand.takes_of_covers hop htake _)]
    simp only [bind, Except.bind]
    rw [ih hops hspells htakes]
  | case3 => cases h

/-! ### The search -/

/-- The template of a mnemonic with given operands, if all usable templates before it refuse the texts
that they take. -/
def findExact (allow : Bool) (name : String) (ops : List Operand) : List Template → Option Template
  | [] => none
  | t :: ts =>
    if t.mnemonic ≠ name ∨ (allow = false ∧ t.isCompressed = true) then findExact allow name ops ts
    else if t.operands = ops then some t
    else if stumbles ops t.operands || stopsShort ops t.operands then findExact allow name ops ts
    else none

theorem of_findExact {allow : Bool} {name : String} {ops : List Operand} {ts : List Template}
    {u : Template} (h : findExact allow name ops ts = some u) : u ∈ ts ∧ u.operands = ops := by
  induction ts with
  | nil => cases h
  | cons t ts ih =>
    unfold findExact at h
    split at h
    · exact (ih h).imp_left (List.mem_cons_of_mem _)
    · split at h
      · rename_i hops
        cases h
        exact ⟨List.mem_cons_self, hops⟩
      · split at h
        · exact (ih h).imp_left (List.mem_cons_of_mem _)
        · cases h

/-- A search for a text that an exact template takes ends there. -/
theorem encodeFirst_of_findExact {ctx : Context} (hev : ctx.evaluator.Separates ctx.reduced)
    {name : String} {ops : List Operand} {ts : List Template} {u : Template}
    (h : findExact ctx.allowCompressed name ops ts = some u) (heligible : u.eligible ctx = true)
    {s : List Char} {τs : List Token} (hspells : Spells ctx ops s τs)
    (htakes : ∀ d, TakesAll ctx.isa.xlen d ops τs) (hsteady : u.isSteady = true) :
    encodeFirst ctx s (usable ctx name ts) = .ok (u.encoded τs) := by
  induction ts with
  | nil => cases h
  | cons t ts ih =>
    unfold findExact at h
    split at h
    · rename_i hskipped
      rw [usable_cons_of_not, ih h]
      rintro ⟨hname, ht⟩
      rcases hskipped with hother | ⟨hallow, hcompressed⟩
      · exact hother hname
      · simp [Template.eligible, hallow, hcompressed] at ht
    · rename_i hname
      rw [not_or, ne_eq, not_not] at hname
      split at h
      · rename_i hops
        cases h
        rw [← hops] at hspells htakes
        exact encodeFirst_of_ok hname.1 heligible (Template.encode_of_takesAll hev hspells
          (htakes _) (Template.accepts_of_isSteady hsteady ctx τs))
      · split at h
        · rename_i hpassed
          rw [encodeFirst_of_refused, ih h]
          intro _ _
          unfold Template.encode
          rcases Bool.or_eq_true_iff.1 hpassed with hstumbles | hshort
          · rw [readOperands_of_stumbles hev hstumbles hspells (htakes t.start)]
            rfl
          · rw [readOperands_of_stopsShort hev hshort hspells (htakes t.start)]
            rfl
        · cases h

/-- The fixed bits of the template that a search for what its operands take ends at, if it is an
instruction of four bytes for registers of the given width and in the given class. -/
def exactBits? (allow : Bool) (name : String) (ops : List Operand) (width : Option Xlen)
    (needs : InstructionClass) : Option Word :=
  ((findExact allow name ops standardTemplates).filter fun u =>
    u.isSteady && !u.isPseudo && u.width == width && u.needs == needs && u.length == 4).map
      Template.matchBits

theorem mem_zip_readings {ops : List Operand} {τs : List Token} {op : Operand} {τ : Token}
    (h : (op, τ) ∈ ops.zip τs) :
    (op, op.reading τ) ∈ ops.zip (List.zipWith Operand.reading ops τs) := by
  induction ops generalizing τs with
  | nil => cases h
  | cons op₀ ops ih =>
    cases τs with
    | nil => cases h
    | cons τ₀ τs =>
      rcases List.mem_cons.1 h with h | h
      · cases h
        exact List.mem_cons_self
      · exact List.mem_cons_of_mem _ (ih h)

/-- **What was printed for an exact template is encoded by it:** in four bytes, with the tokens added
to its fixed bits. -/
theorem encode_of_exactBits? {cs : Catalogs} (hcs : Catalogs.standard = .ok cs) {ctx : Context}
    (hev : ctx.evaluator = .basic) {name : String} {ops : List Operand} {width : Option Xlen}
    {needs : InstructionClass} {fixed : Word}
    (h : exactBits? ctx.allowCompressed name ops width needs = some fixed)
    (hwidth : width.all (· == ctx.isa.xlen) = true) (hneeds : needs.isPartOf ctx.isa ctx.rvc = true)
    {τs : List Token} (htakes : ∀ d, TakesAll ctx.isa.xlen d ops τs)
    (hlegible : ∀ τ ∈ τs, τ.Legible ctx) (hpunct : Punctuated τs) :
    ∃ e, cs.instructions.encode ctx name (printTokens τs) = .ok e ∧ e.length = 4 ∧
      e.bits = (Draft.addTokens ⟨fixed, none, none⟩ ops τs).bits ∧
      ∀ op τ, (op, τ) ∈ ops.zip τs → e.bits &&& op.bits = op.contribution (op.reading τ) := by
  have hseparates : ctx.evaluator.Separates ctx.reduced := hev ▸ Evaluator.basic_separates _
  have hspells : Spells ctx ops (printTokens τs) τs :=
    spells_print hev (htakes ⟨0, none, none⟩) hlegible hpunct (dropBlanks_printTokens hlegible)
  obtain ⟨u, hu, rfl⟩ := Option.map_eq_some_iff.1 h
  obtain ⟨hfind, hchecked⟩ := Option.filter_eq_some_iff.1 hu
  simp only [Bool.and_eq_true, Bool.not_eq_true', beq_iff_eq] at hchecked
  obtain ⟨⟨⟨⟨hsteady, hreal⟩, rfl⟩, rfl⟩, hlength⟩ := hchecked
  obtain ⟨hmem, rfl⟩ := of_findExact hfind
  have heligible : u.eligible ctx = true := by
    rw [Template.eligible, hwidth, hneeds, Template.isCompressed, hlength]
    simp
  have hfirst := encodeFirst_of_findExact hseparates hfind heligible hspells htakes hsteady
  refine ⟨u.encoded τs, ?_, hlength, rfl, ?_⟩
  · unfold Catalog.encode
    rw [lookup_standard hcs, encodeWith_filter, if_neg, hfirst]
    · rfl
    · intro hnil
      rw [hnil] at hfirst
      cases hfirst
  · intro op τ hτ
    rw [← templates_standard hcs] at hmem
    obtain ⟨rs, hread, -, -, hslices⟩ := Template.slices_of_encode hcs (List.mem_append_left _ hmem)
      hreal (Template.encode_of_takesAll hseparates hspells (htakes _)
        (Template.accepts_of_isSteady hsteady ctx τs))
    cases (Template.readOperands_of_takesAll hseparates hspells (htakes _)).symm.trans hread
    exact (hslices _ (mem_zip_readings hτ)).2

end RiscvAssembler
