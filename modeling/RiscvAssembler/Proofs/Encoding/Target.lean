import RiscvAssembler.Proofs.Encoding.Compression
import RiscvAssembler.Proofs.Encoding.Printed

/-!
Templates that a search is bound to reach. Expansions print operands for one template of a mnemonic.
The templates before it take the text too or refuse it without ending the search, since they take
tokens only or meet a register where they want an immediate. So what was printed for it is encoded
(`encode_of_hasTarget`).
-/

namespace RiscvAssembler

/-! ### Registers instead of immediates -/

/-- An immediate refuses the text of a register. -/
theorem Operand.read_imm12_of_register {ctx : Context} (hev : ctx.evaluator.Separates ctx.reduced)
    {mnemonic : String} {word : Word} {i : Imm12} {s : List Char}
    (h : (ctx.register .integer s).isSome = true) :
    (Operand.imm12 i).read ctx mnemonic word s = .error .differs := by
  obtain ⟨c, r, rfl, hword, -⟩ := Evaluator.head_of_lookup h
  have hne : ∀ d, Text.isWordChar d = false → c ≠ d := by
    rintro d hd rfl
    rw [hd] at hword
    cases hword
  have hbase : Reading.baseFollows (c :: r) = false := by
    unfold Reading.baseFollows
    split
    · rename_i heq
      cases heq
      exact absurd rfl (hne '(' rfl)
    · rfl
  have hmodifier : (c :: r).head? ≠ some '%' := by
    rw [List.head?_cons, ne_eq, Option.some.injEq]
    exact hne '%' rfl
  have hread : Reading.imm12 ctx i (c :: r) = .error .differs := by
    unfold Reading.imm12 Reading.modified
    rw [if_neg hmodifier]
    cases hexpr : ctx.expression (c :: r) with
    | none => rfl
    | some pair =>
      obtain ⟨e, rest⟩ := pair
      cases e with
      | constant v =>
        obtain ⟨w, heval⟩ := Reading.evaluator_of_expression hexpr
        exact absurd heval (hev.register _ h w rest)
      | symbol name addend => rfl
      | register name => rfl
  unfold read
  rw [hbase, if_neg (by simp)]
  exact hread

/-- Whether the second list has an immediate where the first has an integer register, and takes the
same tokens before. -/
def stumbles : List Operand → List Operand → Bool
  | .register .integer _ :: _, .imm12 _ :: _ => true
  | op :: ops, op' :: ops' => op.covers op' && stumbles ops ops'
  | _, _ => false

theorem readOperands_of_stumbles {ctx : Context} (hev : ctx.evaluator.Separates ctx.reduced)
    {mnemonic : String} {ops ops' : List Operand} (h : stumbles ops ops' = true) {s : List Char}
    {τs : List Token} (hspells : Spells ctx ops s τs) {d : Draft}
    (htakes : TakesAll ctx.isa.xlen d ops τs) (d' : Draft) :
    Template.readOperands ctx mnemonic d' ops' s = .error .differs := by
  fun_induction stumbles ops ops' generalizing s τs d d' with
  | case1 slot ops i ops' =>
    obtain ⟨τ, rest, τs, rfl, hat, -⟩ := hspells
    obtain ⟨n, rfl⟩ := Operand.takes_register_iff.1 htakes.1
    have hregister : ctx.register .integer (Text.dropBlanks s) = some (n, rest) := hat
    unfold Template.readOperands
    rw [Operand.read_imm12_of_register hev (by rw [hregister]; rfl)]
    rfl
  | case2 op ops op' ops' _ ih =>
    obtain ⟨hop, hops⟩ := Bool.and_eq_true_iff.1 h
    obtain ⟨τ, rest, τs, rfl, hat, hspells⟩ := hspells
    obtain ⟨htake, htakes⟩ := htakes
    rw [Operand.mayBeOmitted_of_covers hop] at hat
    unfold Template.readOperands
    rw [Operand.read_of_takes hev hat (Operand.takes_of_covers hop htake _)]
    simp only [bind, Except.bind]
    rw [ih hops hspells htakes]
  | case3 => cases h

/-! ### The search -/

/-- The template of a mnemonic with given operands, if a search for a text that they take passes all
templates before it. -/
def findTarget (name : String) (ops : List Operand) : List Template → Option Template
  | [] => none
  | t :: ts =>
    if t.mnemonic ≠ name then findTarget name ops ts
    else if t.operands = ops then some t
    else if t.operands.all Operand.isDirect || stumbles ops t.operands then findTarget name ops ts
    else none

/-- The target has the operands, and a search that gets to it ends there or before. -/
theorem encodeFirst_of_findTarget {ctx : Context} (hev : ctx.evaluator.Separates ctx.reduced)
    {name : String} {ops : List Operand} {ts : List Template} {u : Template}
    (h : findTarget name ops ts = some u) (heligible : u.eligible ctx = true) {s : List Char}
    {τs : List Token} (hspells : Spells ctx ops s τs)
    (htakes : ∀ d, TakesAll ctx.isa.xlen d ops τs) (hsteady : u.isSteady = true) :
    ∃ e, encodeFirst ctx s (usable ctx name ts) = .ok e := by
  induction ts with
  | nil => cases h
  | cons t ts ih =>
    unfold findTarget at h
    split at h
    · rename_i hname
      rw [usable_cons_of_not fun ht => hname ht.1]
      exact ih h
    · rename_i hname
      rw [ne_eq, not_not] at hname
      split at h
      · rename_i hops
        cases h
        rw [← hops] at hspells htakes
        exact ⟨_, encodeFirst_of_ok hname heligible (Template.encode_of_takesAll hev hspells
          (htakes _) (Template.accepts_of_isSteady hsteady ctx τs))⟩
      · split at h
        · rename_i hpassed
          by_cases ht : t.eligible ctx = true
          · rw [usable_cons_of hname ht, encodeFirst]
            cases hencode : t.encode ctx s with
            | ok e => exact ⟨e, rfl⟩
            | error r =>
              have hdiffers : r = .differs := by
                rcases Bool.or_eq_true_iff.1 hpassed with hdirect | hstumbles
                · exact Template.refusal_of_encode (List.all_eq_true.1 hdirect) hencode
                · unfold Template.encode at hencode
                  rw [readOperands_of_stumbles hev hstumbles hspells (htakes t.start)] at hencode
                  cases hencode
                  rfl
              rw [hdiffers]
              exact ih h
          · rw [usable_cons_of_not fun h => ht h.2]
            exact ih h
        · cases h

/-- Whether expansions may count on a template of the table: the search gets to it, and it is an
instruction of four bytes for registers of the given width and in the given class. -/
def hasTarget (name : String) (ops : List Operand) (width : Option Xlen)
    (needs : InstructionClass) : Bool :=
  (findTarget name ops standardTemplates).any fun u =>
    u.isSteady && !u.isPseudo && u.width == width && u.needs == needs

/-- **What was printed for a target is encoded.** -/
theorem encode_of_hasTarget {cs : Catalogs} (hcs : Catalogs.standard = .ok cs) {ctx : Context}
    (hev : ctx.evaluator = .basic) {name : String} {ops : List Operand} {width : Option Xlen}
    {needs : InstructionClass} (h : hasTarget name ops width needs = true)
    (hwidth : width.all (· == ctx.isa.xlen) = true) (hneeds : needs.isPartOf ctx.isa ctx.rvc = true)
    {τs : List Token} (htakes : ∀ d, TakesAll ctx.isa.xlen d ops τs)
    (hlegible : ∀ τ ∈ τs, τ.Legible ctx) (hpunct : Punctuated τs) :
    ∃ e, cs.instructions.encode ctx name (printTokens τs) = .ok e := by
  have hseparates : ctx.evaluator.Separates ctx.reduced := hev ▸ Evaluator.basic_separates _
  have hspells : Spells ctx ops (printTokens τs) τs :=
    spells_print hev (htakes ⟨0, none, none⟩) hlegible hpunct (dropBlanks_printTokens hlegible)
  cases hfind : findTarget name ops standardTemplates with
  | none =>
    rw [hasTarget, hfind] at h
    cases h
  | some u =>
    rw [hasTarget, hfind] at h
    simp only [Option.any_some, Bool.and_eq_true, Bool.not_eq_true', beq_iff_eq] at h
    obtain ⟨⟨⟨hsteady, hreal⟩, rfl⟩, rfl⟩ := h
    have hwide : u.isCompressed = false := by
      rw [Template.isSteady, hreal] at hsteady
      simp only [Bool.false_or, Bool.and_eq_true, bne_iff_ne] at hsteady
      simp [Template.isCompressed, hsteady.2]
    have heligible : u.eligible ctx = true := by
      rw [Template.eligible, hwidth, hneeds, hwide]
      simp
    obtain ⟨e, he⟩ := encodeFirst_of_findTarget hseparates hfind heligible hspells htakes hsteady
    refine ⟨e, ?_⟩
    unfold Catalog.encode
    rw [lookup_standard hcs, encodeWith_filter, if_neg, he]
    · rfl
    · intro hnil
      rw [hnil] at he
      cases he

end RiscvAssembler
