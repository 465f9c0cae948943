import RiscvAssembler.Proofs.Pseudo.Words
import RiscvAssembler.Proofs.Section.Entries
import RiscvAssembler.Proofs.Session.Calls

/-!
What expansions place. The steps of an expansion load a constant, form an address in two parts or
make a call (`PseudoKind.Forms`). Carried out, they leave nothing, plain bytes, or an upper part
that refers to the target with the rest after it (`expanded_expand`), also where a step fails.
-/

namespace RiscvAssembler

namespace Session

/-! ### Items of an expansion -/

section

variable {s : Session}

/-- An instruction of an expansion without a relocation is placed as plain bytes. -/
theorem runStep_plain (hcs : Catalogs.standard = .ok s.catalogs) (pseudo : String)
    {mnemonic : String} (hplain : mnemonic ∈ plainMnemonics) {operands : List Char}
    (hoperands : '%' ∉ operands) :
    (∃ er, runStep pseudo (.insn mnemonic operands none) s = .error er s) ∨
      ∃ bytes placed, runStep pseudo (.insn mnemonic operands none) s =
        .ok placed (s.withItem (.data bytes none)) := by
  obtain ⟨er, -, her⟩ | ⟨e, item, placed, hencode, hitem, hrun⟩ :=
    runStep_insn_cases pseudo mnemonic operands none s
  · exact .inl ⟨er, her⟩
  · have hreloc : e.reloc = none := reloc_eq_none_of_plain hcs hplain hoperands hencode
    simp only [relocate, Encoded.item?, hreloc, Option.some.injEq] at hitem
    subst hitem
    exact .inr ⟨_, placed, hrun⟩

/-- **What steps place**, if they fail or not: what is known of the item of each of them is known of
all the items. -/
theorem items_runSteps {P : Item → Prop} (pseudo : String) {steps : List Step}
    (h : ∀ mnemonic operands reloc, .insn mnemonic operands reloc ∈ steps → ∀ e item,
      s.catalogs.instructions.encode (s.context (Step.insn mnemonic operands reloc).mayCompress)
        mnemonic operands = .ok e →
      (relocate e reloc).item? s.options.relax = some item → P item) :
    ∃ new, (leftBy (runSteps pseudo steps) s).contents.items.toList =
        s.contents.items.toList ++ new ∧ ∀ item ∈ new, P item := by
  induction steps generalizing s with
  | nil => exact ⟨[], (List.append_nil _).symm, List.forall_mem_nil _⟩
  | cons step steps ih =>
    have hrest := fun mnemonic operands reloc hmem =>
      h mnemonic operands reloc (List.mem_cons_of_mem _ hmem)
    rw [leftBy_runSteps_cons]
    cases step with
    | label name =>
      rw [runStep_label]
      split
      · rename_i hrun
        split at hrun
        · cases hrun
        · cases hrun
          exact ih (s := s.withSymbol name) hrest
      · rename_i hrun
        split at hrun
        · cases hrun
          exact ⟨[], (List.append_nil _).symm, List.forall_mem_nil _⟩
        · cases hrun
    | insn mnemonic operands reloc =>
      obtain ⟨er, -, hrun⟩ | ⟨e, item, placed, hencode, hitem, hrun⟩ :=
        runStep_insn_cases pseudo mnemonic operands reloc s
      · rw [hrun]
        exact ⟨[], (List.append_nil _).symm, List.forall_mem_nil _⟩
      · rw [hrun]
        obtain ⟨new, hnew, hall⟩ := ih (s := s.withItem item) hrest
        have hhere := h mnemonic operands reloc List.mem_cons_self e item hencode hitem
        refine ⟨item :: new, hnew.trans ?_, List.forall_mem_cons.2 ⟨hhere, hall⟩⟩
        simp [withItem, Section.push]

/-- What an expansion places, as the steps it comes to do. -/
theorem items_expand {P : Item → Prop} {kind : PseudoKind} {e : Encoded}
    (h : ∀ steps next,
      kind.expand e s.isa.xlen s.options.pic s.labels.nextUpper = .ok (steps, next) →
      ∀ mnemonic operands reloc, .insn mnemonic operands reloc ∈ steps → ∀ e' item,
      s.catalogs.instructions.encode (s.context (Step.insn mnemonic operands reloc).mayCompress)
        mnemonic operands = .ok e' →
      (relocate e' reloc).item? s.options.relax = some item → P item) :
    ∃ new, (leftBy (expand kind e) s).contents.items.toList = s.contents.items.toList ++ new ∧
      ∀ item ∈ new, P item := by
  cases hexpand : kind.expand e s.isa.xlen s.options.pic s.labels.nextUpper with
  | error cause =>
    refine ⟨[], ?_, List.forall_mem_nil _⟩
    unfold leftBy
    rw [expand_eq, hexpand, List.append_nil]
  | ok outcome =>
    obtain ⟨steps, next⟩ := outcome
    rw [leftBy_expand hexpand]
    exact items_runSteps (s := s.withUpper next) e.template.mnemonic (h steps next hexpand)

/-- One instruction places its item, or nothing. -/
theorem items_place {P : Item → Prop} {e : Encoded}
    (h : ∀ item, e.item? s.options.relax = some item → P item) :
    ∃ new, (leftBy (place e) s).contents.items.toList = s.contents.items.toList ++ new ∧
      ∀ item ∈ new, P item := by
  cases hitem : e.item? s.options.relax with
  | none =>
    obtain ⟨er, -, her⟩ := place_of_item?_eq_none hitem
    rw [leftBy_of_error her]
    exact ⟨[], (List.append_nil _).symm, List.forall_mem_nil _⟩
  | some item =>
    obtain ⟨placed, hplaced⟩ := place_of_item? hitem
    rw [leftBy_of_ok hplaced]
    exact ⟨[item], toList_withItem s item, List.forall_mem_singleton.2 (h item hitem)⟩

/-- A constant is loaded by plain bytes. -/
theorem items_constant (hcs : Catalogs.standard = .ok s.catalogs) (pseudo : String)
    (steps : List ConstantStep) :
    ∃ new, (leftBy (runSteps pseudo (steps.map .ofConstant)) s).contents.items.toList =
        s.contents.items.toList ++ new ∧ ∀ item ∈ new, ∃ bytes, item = .data bytes none := by
  apply items_runSteps
  intro mnemonic operands reloc hmem e item hencode hitem
  obtain ⟨c, -, hc⟩ := List.mem_map.1 hmem
  cases hc
  have hreloc : e.reloc = none := reloc_eq_none_of_plain hcs c.plain.1 c.plain.2 hencode
  simp only [relocate, Encoded.item?, hreloc, Option.some.injEq] at hitem
  exact ⟨_, hitem.symm⟩

/-- What the upper part of an address is placed as. -/
theorem runStep_auipc (hcs : Catalogs.standard = .ok s.catalogs) (pseudo : String)
    (operands : List Char) {kind : RelocType} (hkind : BranchKind.ofReloc? kind = none)
    (target : Expr) :
    (∃ er, runStep pseudo (.insn "auipc" operands (some (kind, target))) s = .error er s) ∨
      ∃ bytes relaxable placed, bytes.length = 4 ∧ (∃ name addend, target = .symbol name addend) ∧
        runStep pseudo (.insn "auipc" operands (some (kind, target))) s =
          .ok placed (s.withItem (.data bytes (some ⟨kind, target, relaxable⟩))) := by
  obtain ⟨er, -, her⟩ | ⟨e, item, placed, hencode, hitem, hrun⟩ :=
    runStep_insn_cases pseudo "auipc" operands (some (kind, target)) s
  · exact .inl ⟨er, her⟩
  · obtain ⟨htarget, rfl⟩ := item?_relocate hkind hitem
    have hlength : e.toBytes.length = 4 := by
      rw [Encoded.toBytes, Word.length_toBytes, length_of_auipc hcs hencode]
    exact .inr ⟨_, _, placed, hlength, htarget, hrun⟩

open Expansion in
/-- An address in two parts: nothing is placed, or the upper part where the label stands, perhaps
with the low part against that label. -/
theorem items_throughUpper (hcs : Catalogs.standard = .ok s.catalogs) (pseudo : String)
    {upper low : RelocType} (hupper : BranchKind.ofReloc? upper = none)
    (hlow : BranchKind.ofReloc? low = none) (label : String) (base : Nat) (target : Expr)
    (mnemonic : String) (operands : List Char) :
    let s' := leftBy (runSteps pseudo
      (throughUpper label base target upper low mnemonic operands)) s
    s'.contents.items = s.contents.items ∨
      ∃ bytes relaxable more, bytes.length = 4 ∧ (∃ name addend, target = .symbol name addend) ∧
        s'.contents.items.toList =
          s.contents.items.toList ++ .data bytes (some ⟨upper, target, relaxable⟩) :: more ∧
        s'.contents.symbols[label]? = some s.contents.items.size ∧
        (more = [] ∨ ∃ bytes' relaxable',
          more = [.data bytes' (some ⟨low, .symbol label 0, relaxable'⟩)]) := by
  intro s'
  have hs' : s' = leftBy (runSteps pseudo
      (throughUpper label base target upper low mnemonic operands)) s := rfl
  rw [throughUpper, leftBy_runSteps_cons, runStep_label] at hs'
  by_cases hold : s.contents.defines label = true
  · rw [if_pos hold] at hs'
    exact .inl (by rw [hs'])
  rw [if_neg hold] at hs'
  dsimp only at hs'
  have hlabel : (s.withSymbol label).contents.symbols[label]? = some s.contents.items.size := by
    simp [withSymbol]
  rw [leftBy_runSteps_cons] at hs'
  obtain ⟨er, hrun⟩ | ⟨bytes, relaxable, placed, hlength, htarget, hrun⟩ :=
    runStep_auipc (s := s.withSymbol label) hcs pseudo (withZero base) hupper target
  · rw [hrun] at hs'
    exact .inl (by rw [hs']; rfl)
  rw [hrun] at hs'
  dsimp only at hs'
  refine .inr ⟨bytes, relaxable, ?_⟩
  rw [leftBy_runSteps_cons] at hs'
  obtain ⟨er, -, hrun'⟩ | ⟨e, item, placed', -, hitem, hrun'⟩ := runStep_insn_cases pseudo mnemonic
    operands (some (low, .symbol label 0))
    ((s.withSymbol label).withItem (.data bytes (some ⟨upper, target, relaxable⟩)))
  · rw [hrun'] at hs'
    refine ⟨[], hlength, htarget, ?_, ?_, .inl rfl⟩
    · rw [hs']
      simp [withItem, withSymbol, Section.push]
    · rw [hs']
      exact hlabel
  · rw [hrun'] at hs'
    obtain ⟨-, rfl⟩ := item?_relocate hlow hitem
    refine ⟨[.data e.toBytes (some ⟨low, .symbol label 0, low.mayRelax s.options.relax⟩)], hlength,
      htarget, ?_, ?_, .inr ⟨_, _, rfl⟩⟩
    · rw [hs']
      simp [leftBy, runSteps, withItem, withSymbol, Section.push, pure, EStateM.pure]
    · rw [hs']
      exact hlabel

/-- The call templates have no other relocations than those of calls. -/
theorem call_of_encode (hcs : Catalogs.standard = .ok s.catalogs) {ctx : Context}
    {mnemonic : String} {operands : List Char} {e : Encoded}
    (h : s.catalogs.instructions.encode ctx mnemonic operands = .ok e)
    (hcall : e.template.pseudo = some .call) {kind : RelocType} (hkind : e.reloc = some kind) :
    kind = .call ∨ kind = .callPlt := by
  obtain ⟨hmem, -, hencode⟩ := Catalog.exists_of_encode (build_of_standard hcs).1 h
  obtain ⟨op, hop, hrelocs⟩ := Template.mem_relocs_of_encode hencode hkind
  have hall := of_mem_standardTemplates (fun t => t.pseudo != some .call ||
    t.operands.all fun op => op.relocs.all fun kind => kind == .call || kind == .callPlt)
    (by decide +kernel) hmem
  rw [hcall] at hall
  have hkinds := List.all_eq_true.1 (List.all_eq_true.1 hall op hop) kind hrelocs
  simpa using hkinds

end

open Expansion in
/-- What an expansion placed that was given an expression: nothing; plain bytes for a constant; a
call, whose first part refers to the target; or an address in two parts, the low part against a label
where the upper part stands. -/
inductive Expanded (s s' : Session) : Option Expr → Prop where
  | nothing {imm : Option Expr} (same : s'.contents.items = s.contents.items) : Expanded s s' imm
  | constant {value : Int64} {new : List Item}
    (items : s'.contents.items.toList = s.contents.items.toList ++ new)
    (plain : ∀ item ∈ new, ∃ bytes, item = .data bytes none) :
    Expanded s s' (some (.constant value))
  | call {target : Expr} {bytes : List UInt8} {kind : RelocType} {relaxable : Bool}
    (more : List Item) (high : kind.isLowPart = false)
    (items : s'.contents.items.toList =
      s.contents.items.toList ++ .data bytes (some ⟨kind, target, relaxable⟩) :: more)
    (plain : ∀ item ∈ more, ∃ bytes, item = .data bytes none) : Expanded s s' (some target)
  | pair {target : Expr} {bytes : List UInt8} {upper : RelocType} {relaxable : Bool}
    {more : List Item} (length : bytes.length = 4) (high : upper.isUpperPart = true)
    (items : s'.contents.items.toList =
      s.contents.items.toList ++ .data bytes (some ⟨upper, target, relaxable⟩) :: more)
    (next : s.labels.nextUpper < s'.labels.nextUpper)
    (label : s'.contents.symbols[upperLabel s.labels.nextUpper]? = some s.contents.items.size)
    (low : more = [] ∨ ∃ low bytes' relaxable', low.isLowPart = true ∧
      more = [.data bytes' (some ⟨low, .symbol (upperLabel s.labels.nextUpper) 0, relaxable'⟩)]) :
    Expanded s s' (some target)

section

variable {s s₁ s' : Session} {imm : Option Expr}

theorem Expanded.of_idles (h : Idles s s₁) (hnext : s₁.labels.nextUpper = s.labels.nextUpper)
    (hexpanded : Expanded s₁ s' imm) : Expanded s s' imm := by
  have hsame := h.same
  cases hexpanded with
  | nothing same => exact .nothing (same.trans hsame)
  | constant items plain => exact .constant (hsame ▸ items) plain
  | call more high items plain => exact .call more high (hsame ▸ items) plain
  | pair length high items next label low =>
    rw [hnext, hsame] at label
    rw [hnext] at next low
    exact .pair length high (hsame ▸ items) next label low

/-- Only the second item of an expansion may refer to the low part of an address. -/
theorem Expanded.low (h : Expanded s s' imm) {i : Nat} (hi : s.contents.items.size ≤ i)
    {bytes : List UInt8} {f : Fixup}
    (hitem : s'.contents.items.toList[i]? = some (.data bytes (some f)))
    (hlow : f.kind.isLowPart = true) :
    i = s.contents.items.size + 1 ∧ s.labels.nextUpper < s'.labels.nextUpper ∧
      f.target = .symbol (Expansion.upperLabel s.labels.nextUpper) 0 ∧
      s'.contents.symbols[Expansion.upperLabel s.labels.nextUpper]? =
        some s.contents.items.size ∧
      ∃ bytes' f', s'.contents.items.toList[s.contents.items.size]? =
        some (.data bytes' (some f')) ∧ bytes'.length = 4 ∧ f'.kind.isUpperPart = true := by
  obtain ⟨j, rfl⟩ := Nat.exists_eq_add_of_le hi
  have hnew : ∀ new : List Item,
      s'.contents.items.toList = s.contents.items.toList ++ new →
        ∀ k, s'.contents.items.toList[s.contents.items.size + k]? = new[k]? := by
    intro new hitems k
    rw [hitems, ← Array.length_toList, List.getElem?_append_right (Nat.le_add_right _ _),
      Nat.add_sub_cancel_left]
  have hplain : ∀ {new : List Item} {k : Nat}, (∀ item ∈ new, ∃ bytes, item = .data bytes none) →
      new[k]? ≠ some (.data bytes (some f)) := by
    intro new k hnone hk
    obtain ⟨bytes', heq⟩ := hnone _ (List.mem_of_getElem? hk)
    cases heq
  cases h with
  | nothing same =>
    rw [hnew [] (by rw [same, List.append_nil])] at hitem
    cases hitem
  | constant items plain =>
    rw [hnew _ items] at hitem
    exact absurd hitem (hplain plain)
  | call more high items plain =>
    rw [hnew _ items] at hitem
    cases j with
    | zero =>
      cases hitem
      rw [high] at hlow
      cases hlow
    | succ j =>
      rw [List.getElem?_cons_succ] at hitem
      exact absurd hitem (hplain plain)
  | @pair target bytes' upper relaxable more length high items next label low =>
    rw [hnew _ items] at hitem
    have hfirst := hnew _ items 0
    cases j with
    | zero =>
      cases hitem
      rw [RelocType.isLowPart_of_isUpperPart high] at hlow
      cases hlow
    | succ j =>
      rw [List.getElem?_cons_succ] at hitem
      obtain rfl | ⟨kind, bytes₂, relaxable₂, -, rfl⟩ := low
      · cases hitem
      · cases j with
        | zero =>
          cases hitem
          exact ⟨rfl, next, rfl, label, bytes', ⟨upper, target, relaxable⟩, hfirst, length, high⟩
        | succ j => cases hitem

/-- The first item of an expansion refers to its target. -/
theorem Expanded.first {name : String} {addend : Int64}
    (h : Expanded s s' (some (.symbol name addend)))
    (hsize : s.contents.items.size < s'.contents.items.size) :
    ∃ item, s'.contents.items.toList[s.contents.items.size]? = some item ∧
      item.reference? = some (some name, addend) := by
  have hfirst : ∀ {item more}, s'.contents.items.toList = s.contents.items.toList ++ item :: more →
      s'.contents.items.toList[s.contents.items.size]? = some item := by
    intro item more hitems
    rw [hitems, ← Array.length_toList, List.getElem?_append_right (Nat.le_refl _), Nat.sub_self]
    rfl
  cases h with
  | nothing same =>
    rw [same] at hsize
    exact absurd hsize (Nat.lt_irrefl _)
  | call more high items plain => exact ⟨_, hfirst items, rfl⟩
  | pair length high items next label low => exact ⟨_, hfirst items, rfl⟩

open Expansion in
/-- **What an expansion places.** -/
theorem expanded_expand (hcs : Catalogs.standard = .ok s.catalogs) {kind : PseudoKind} {e : Encoded}
    (hcall : kind = .call → ∀ r, e.reloc = some r → r = .call ∨ r = .callPlt) :
    Expanded s (leftBy (expand kind e) s) e.imm := by
  generalize hs' : leftBy (expand kind e) s = s'
  unfold leftBy at hs'
  rw [expand_eq] at hs'
  cases hexpand : kind.expand e s.isa.xlen s.options.pic s.labels.nextUpper with
  | error cause =>
    rw [hexpand] at hs'
    exact .nothing (by rw [← hs'])
  | ok outcome =>
    obtain ⟨steps, next⟩ := outcome
    rw [hexpand] at hs'
    change leftBy (runSteps e.template.mnemonic steps) (s.withUpper next) = s' at hs'
    have hcs' : Catalogs.standard = .ok (s.withUpper next).catalogs := hcs
    have hgrows := grows_runSteps hcs' e.template.mnemonic steps
    rw [hs'] at hgrows
    obtain ⟨imm, himm, hforms⟩ := PseudoKind.forms_of_expand hexpand
    rw [himm]
    cases hforms with
    | constant =>
      obtain ⟨new, hnew, hplain⟩ := items_constant hcs' e.template.mnemonic _
      rw [hs'] at hnew
      exact .constant hnew hplain
    | @parts _ _ base _ low mnemonic operands _ high takesLow =>
      have hparts := items_throughUpper hcs' e.template.mnemonic
        (RelocType.ofReloc?_of_isUpperPart high)
        (RelocType.ofReloc?_of_isLowPart takesLow.isLowPart)
        (upperLabel s.labels.nextUpper) base imm mnemonic operands
      dsimp only at hparts
      rw [hs'] at hparts
      obtain hsame | ⟨bytes, relaxable, more, hlength, -, hitems, hsymbol, hmore⟩ := hparts
      · exact .nothing hsame
      · refine .pair hlength high hitems hgrows.nextUpper hsymbol (hmore.imp id ?_)
        rintro ⟨bytes', relaxable', rfl⟩
        exact ⟨low, bytes', relaxable', takesLow.isLowPart, rfl⟩
    | call =>
      have hkind : BranchKind.ofReloc? (e.reloc.getD .call) = none ∧
          (e.reloc.getD .call).isLowPart = false := by
        cases hreloc : e.reloc with
        | none => exact ⟨rfl, rfl⟩
        | some r =>
          rcases hcall rfl r hreloc with rfl | rfl
          · exact ⟨rfl, rfl⟩
          · exact ⟨rfl, rfl⟩
      rw [leftBy_runSteps_cons] at hs'
      obtain ⟨er, hrun⟩ | ⟨bytes, relaxable, placed, -, -, hrun⟩ :=
        runStep_auipc hcs' e.template.mnemonic (withZero (e.register .rs1)) hkind.1 imm
      · rw [hrun] at hs'
        exact .nothing (by rw [← hs']; rfl)
      rw [hrun] at hs'
      dsimp only at hs'
      rw [leftBy_runSteps_cons] at hs'
      obtain ⟨er, hrun'⟩ | ⟨bytes', placed', hrun'⟩ :=
        runStep_plain (s := (s.withUpper s.labels.nextUpper).withItem
          (.data bytes (some ⟨e.reloc.getD .call, imm, relaxable⟩))) hcs' e.template.mnemonic
          (by simp [plainMnemonics] : "jalr" ∈ plainMnemonics)
          (percent_notMem_jump (e.register .rd) (e.register .rs1))
      · rw [hrun'] at hs'
        have hitems : s'.contents.items.toList = s.contents.items.toList ++
            .data bytes (some ⟨e.reloc.getD .call, imm, relaxable⟩) :: [] := by
          rw [← hs']
          simp [withItem, withUpper, Section.push]
        exact .call [] hkind.2 hitems (List.forall_mem_nil _)
      · rw [hrun'] at hs'
        have hitems : s'.contents.items.toList = s.contents.items.toList ++
            .data bytes (some ⟨e.reloc.getD .call, imm, relaxable⟩) :: [.data bytes' none] := by
          rw [← hs']
          simp [leftBy, runSteps, withItem, withUpper, Section.push, pure, EStateM.pure]
        exact .call [.data bytes' none] hkind.2 hitems (by simp)

end

end Session

end RiscvAssembler
