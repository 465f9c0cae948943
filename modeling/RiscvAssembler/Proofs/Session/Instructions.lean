import RiscvAssembler.Proofs.Pseudo.Steps
import RiscvAssembler.Proofs.Section.Success
import RiscvAssembler.Session.Instruction

/-!
What instructions do to a session. They leave its tables and settings alone and append items whose
layout is still open (`Follows`), and with the basic evaluator no error of theirs ends the session
(`yields_instruction`, `yields_fieldInstruction`): expansions are encoded again, relocations are
against symbols, and branches are appended.
-/

namespace RiscvAssembler

/-! ### Encoded instructions -/

/-- An item as it is appended. If it has a wide form, its word can be given 32 bits. -/
def Item.Fresh (wide : Bool) : Item → Prop
  | .data _ fixup => ∀ f ∈ fixup, f.isListed = true
  | .branch b _ => ∃ k w name addend, b = .new k w name addend ∧
    (wide = true → k.isShort = true → ∃ w', BranchWord.expand w = .ok w')

/-- An encoded instruction that can be placed: its relocation is against a symbol. If it has a wide
form, the word of a compressed branch can be given 32 bits. -/
structure Encoded.Fit (wide : Bool) (e : Encoded) : Prop where
  symbolic : ∀ kind, e.reloc = some kind → ∃ name addend, e.imm = some (.symbol name addend)
  expands : ∀ kind k, e.reloc = some kind → BranchKind.ofReloc? kind = some k → wide = true →
    k.isShort = true → ∃ w, BranchWord.expand e.bits = .ok w

/-- An instruction as a catalog encodes it, but perhaps for the name of its symbol. -/
def Matched (c : Catalog) (ctx : Context) (e : Encoded) : Prop :=
  ∃ mnemonic operands e₀, c.encode ctx mnemonic operands = .ok e₀ ∧
    (e = e₀ ∨ ∃ name name' addend, e₀.imm = some (.symbol name addend) ∧
      e = { e₀ with imm := some (.symbol name' addend) })

section

variable {cs : Catalogs} {c : Catalog} {rows : List Row} {ctx : Context} {e : Encoded}

/-- What is known of an encoded instruction when it is placed or expanded. -/
theorem Matched.of_build (h : Matched c ctx e) (hc : Catalog.build rows = .ok c)
    (honce : ∀ t ∈ rows.map Row.asTemplate, t.defersOnce = true) :
    e.template ∈ rows.map Row.asTemplate ∧ e.template.eligible ctx = true ∧
      (∃ text e₀, e.template.encode ctx text = .ok e₀ ∧ e.bits = e₀.bits) ∧
      Leftover e.template.operands e.imm e.reloc := by
  obtain ⟨mnemonic, operands, e₀, hencode, hsame⟩ := h
  obtain ⟨hmem, heligible, hencode⟩ := Catalog.exists_of_encode hc hencode
  have hleft := Template.leftover_of_encode (honce _ hmem) hencode
  rcases hsame with rfl | ⟨name, name', addend, himm, rfl⟩
  · exact ⟨hmem, heligible, ⟨operands, e, hencode, rfl⟩, hleft⟩
  · refine ⟨hmem, heligible, ⟨operands, e₀, hencode, rfl⟩, ?_⟩
    rw [himm] at hleft
    dsimp only
    generalize e₀.reloc = reloc at hleft ⊢
    cases hleft with
    | symbol _ _ kind hbranch => exact .symbol name' addend kind hbranch

/-- Instructions can be placed, and their branches have wide forms. -/
theorem Matched.fit (h : Matched cs.instructions ctx e) (hcs : Catalogs.standard = .ok cs) :
    e.Fit true := by
  have hbuild := (build_of_standard hcs).1
  obtain ⟨hmem, -, ⟨text, e₀, hencode, hbits⟩, hleft⟩ :=
    h.of_build hbuild fun t ht => (Template.regular_of_mem ht).defersOnce
  refine ⟨?_, ?_⟩
  · intro kind hreloc
    rw [hreloc] at hleft
    exact hleft.symbol_of_reloc
  · intro kind k hreloc hk _ hshort
    rw [hreloc] at hleft
    have htarget : .target k ∈ e.template.operands := by
      generalize e.imm = imm at hleft
      cases hleft with
      | symbol _ _ _ hbranch => exact hbranch k hk
    -- A pseudo-instruction has no branch target.
    have hreal : e.template.isPseudo = false := by
      cases hpseudo : e.template.pseudo with
      | none => simp [Template.isPseudo, hpseudo]
      | some kind' =>
        have hexpandable := Template.isExpandable_of_mem hmem hpseudo
        simp only [Template.isExpandable, Bool.and_eq_true] at hexpandable
        cases List.all_eq_true.1 hexpandable.2 _ htarget
    have hvalid : e.template.validate (some e.template.length) = .ok () := by
      apply Catalog.validate_of_mem hbuild
      rw [templates_standard hcs]
      exact hmem
    rw [hbits]
    exact Template.expand_of_target (Template.regular_of_mem hmem).hasWideForm hreal hvalid hshort
      htarget hencode

/-- Instructions given field by field can be placed. -/
theorem Matched.fit_fieldTypes (h : Matched cs.fieldTypes ctx e)
    (hcs : Catalogs.standard = .ok cs) : e.Fit false := by
  obtain ⟨-, -, -, hleft⟩ :=
    h.of_build (build_of_standard hcs).2 fun t ht => Template.defersOnce_of_mem_fieldTypes ht
  refine ⟨?_, ?_⟩
  · intro kind hreloc
    rw [hreloc] at hleft
    exact hleft.symbol_of_reloc
  · intro kind k _ _ hwide
    cases hwide

/-- A step with a relocation of its own can be placed. -/
theorem Session.fit_relocate (h : e.Fit true) {mnemonic : String} {operands : List Char}
    {reloc : Option (RelocType × Expr)} (hbound : (Step.insn mnemonic operands reloc).Bound) :
    (relocate e reloc).Fit true := by
  cases reloc with
  | none => exact h
  | some pair =>
    obtain ⟨kind, target⟩ := pair
    obtain ⟨⟨name, addend, rfl⟩, hkind⟩ := hbound
    refine ⟨fun _ _ => ⟨name, addend, rfl⟩, ?_⟩
    intro kind' k hkind' hk
    cases hkind'
    rw [hkind] at hk
    cases hk

end

namespace Session

/-! ### Computations -/

section

variable {I : Session → Prop} {E : Error → Prop} {α β : Type} {Q : α → Prop} {R : β → Prop}

/-- A computation that keeps sessions as `I` says, returns what `Q` says, and fails as `E` says. -/
def Yields (I : Session → Prop) (E : Error → Prop) (x : AssemblerM α) (Q : α → Prop) : Prop :=
  ∀ s, I s →
    match x s with
    | .ok a s' => I s' ∧ Q a
    | .error e s' => I s' ∧ E e

theorem yields_pure {a : α} (h : Q a) : Yields I E (pure a) Q :=
  fun _ hs => ⟨hs, h⟩

theorem yields_throw {e : Error} (h : E e) : Yields I E (throw e) Q :=
  fun _ hs => ⟨hs, h⟩

theorem yields_get : Yields I E get I :=
  fun _ hs => ⟨hs, hs⟩

theorem yields_modify {f : Session → Session} (h : ∀ s, I s → I (f s)) :
    Yields I E (modify f) fun _ => True :=
  fun s hs => ⟨h s hs, trivial⟩

theorem yields_modifyGet {f : Session → α × Session} (h : ∀ s, I s → I (f s).2 ∧ Q (f s).1) :
    Yields I E (modifyGet f) Q :=
  h

theorem Yields.bind {x : AssemblerM α} (hx : Yields I E x Q) {f : α → AssemblerM β}
    (hf : ∀ a, Q a → Yields I E (f a) R) : Yields I E (x >>= f) R := by
  intro s hs
  have hrun := hx s hs
  change match EStateM.bind x f s with
    | .ok b s' => I s' ∧ R b
    | .error e s' => I s' ∧ E e
  unfold EStateM.bind
  cases h : x s with
  | ok a s' =>
    rw [h] at hrun
    exact hf a hrun.2 s' hrun.1
  | error e s' =>
    rw [h] at hrun
    exact hrun

theorem yields_update {f : Session → Except Error Session}
    (hok : ∀ s s', I s → f s = .ok s' → I s') (herror : ∀ s e, I s → f s = .error e → E e) :
    Yields I E (update f) fun _ => True := by
  refine yields_get.bind ?_
  intro s hs
  cases h : f s with
  | ok s' => exact fun _ _ => ⟨hok s s' hs h, trivial⟩
  | error e => exact yields_throw (herror s e hs h)

theorem yields_forM {xs : List α} {f : α → AssemblerM Unit}
    (h : ∀ a ∈ xs, Yields I E (f a) fun _ => True) : Yields I E (xs.forM f) fun _ => True := by
  induction xs with
  | nil => exact yields_pure trivial
  | cons a xs ih =>
    obtain ⟨ha, hxs⟩ := List.forall_mem_cons.1 h
    exact ha.bind fun _ _ => ih hxs

end

/-! ### Sessions -/

/-- What assembling makes of a session: tables and settings stay, and every new item is as `P`
says. -/
structure Follows (P : Item → Prop) (s₀ s : Session) : Prop where
  catalogs : s.catalogs = s₀.catalogs
  config : s.config = s₀.config
  evaluator : s.evaluator = s₀.evaluator
  isa : s.isa = s₀.isa
  options : s.options = s₀.options
  items : ∀ item ∈ s.contents.items.toList, item ∈ s₀.contents.items.toList ∨ P item

/-- An error that ends no session with the basic evaluator. -/
def Quiet (ev : Evaluator) (e : Error) : Prop :=
  ev = .basic → e.endsSession = false

section

variable {P : Item → Prop} {s₀ s : Session}

theorem Follows.refl (P : Item → Prop) (s : Session) : Follows P s s :=
  ⟨rfl, rfl, rfl, rfl, rfl, fun _ h => .inl h⟩

theorem Follows.context (h : Follows P s₀ s) (allow : Bool) :
    s.context allow = s₀.context allow := by
  unfold Session.context
  rw [h.isa, h.options, h.evaluator]

theorem Follows.push (h : Follows P s₀ s) {item : Item} (hitem : P item) :
    Follows P s₀ { s with contents := s.contents.push item } := by
  refine { h with items := ?_ }
  intro item' hmem
  simp only [Section.push, Array.toList_push, List.mem_append, List.mem_singleton] at hmem
  rcases hmem with hold | rfl
  · exact h.items item' hold
  · exact .inr hitem

/-! ### Symbols -/

theorem yields_addSymbol (name : String) :
    Yields (Follows P s₀) (Quiet s₀.evaluator) (addSymbol name) fun _ => True := by
  apply yields_update
  · intro s s' hs h
    unfold Section.define at h
    split at h
    · cases h
    · cases h
      exact { hs with items := hs.items }
  · intro s e _ h _
    unfold Section.define at h
    split at h
    · cases h
      rfl
    · cases h

theorem yields_addLabel (label : Label) :
    Yields (Follows P s₀) (Quiet s₀.evaluator) (addLabel label) fun _ => True := by
  cases label with
  | named name => exact yields_addSymbol name
  | numbered n =>
    refine (yields_modifyGet (Q := fun _ => True) fun s hs => ?_).bind fun name _ =>
      yields_addSymbol name
    exact ⟨{ hs with items := hs.items }, trivial⟩

theorem endsSession_of_resolveTokens {l : Labels} {tokens : List (List Char)} {e : Error}
    (h : (l.resolveTokens tokens).2 = .error e) : e.endsSession = false := by
  induction tokens generalizing l with
  | nil => cases h
  | cons token rest ih =>
    unfold Labels.resolveTokens at h
    cases htoken : l.resolveToken token with
    | error e' =>
      rw [htoken] at h
      cases h
      unfold Labels.resolveToken at htoken
      split at htoken
      · cases htoken
      · split at htoken
        · cases htoken
          rfl
        · cases htoken
      · cases htoken
    | ok pair =>
      obtain ⟨l', text⟩ := pair
      rw [htoken] at h
      dsimp only at h
      cases hrest : (l'.resolveTokens rest).2 with
      | ok more =>
        rw [hrest] at h
        cases h
      | error e' =>
        rw [hrest] at h
        cases h
        exact ih hrest

theorem yields_resolveReferences (operands : List Char) :
    Yields (Follows P s₀) (Quiet s₀.evaluator) (resolveReferences operands) fun _ => True := by
  refine (yields_modifyGet
    (Q := fun outcome => ∀ e, outcome = .error e → Quiet s₀.evaluator e) ?_).bind ?_
  · intro s hs
    exact ⟨{ hs with items := hs.items }, fun e h _ => endsSession_of_resolveTokens h⟩
  · intro outcome houtcome
    cases outcome with
    | ok text => exact yields_pure trivial
    | error e => exact yields_throw (houtcome e rfl)

theorem yields_nameDot {e : Encoded} {c : Catalog} {ctx : Context} {mnemonic : String}
    {operands : List Char} (h : c.encode ctx mnemonic operands = .ok e) :
    Yields (Follows P s₀) (Quiet s₀.evaluator) (nameDot e) (Matched c ctx) := by
  have hsame : Matched c ctx e := ⟨mnemonic, operands, e, h, .inl rfl⟩
  unfold nameDot
  split
  · rename_i name addend himm
    split
    · refine (yields_modifyGet (Q := fun _ => True) fun s hs => ?_).bind fun dot _ =>
        (yields_addSymbol dot).bind fun _ _ => yields_pure ?_
      · exact ⟨{ hs with items := hs.items }, trivial⟩
      · exact ⟨mnemonic, operands, e, h, .inr ⟨name, dot, addend, himm, rfl⟩⟩
    · exact yields_pure hsame
  · exact yields_pure hsame

/-! ### Placing -/

/-- A branch to a symbol is appended. -/
theorem appendBranch_symbol {kind : RelocType} {k : BranchKind}
    (h : BranchKind.ofReloc? kind = some k) (contents : Section) (insn : Word) (name : String)
    (addend : Int64) (relax : Bool) :
    contents.appendBranch insn kind (.symbol name addend) relax =
      .ok (contents.push (.branch (.new k insn name addend) relax)) := by
  unfold Section.appendBranch
  rw [h]

/-- **What can be placed is placed.** -/
theorem yields_place {wide : Bool} {e : Encoded} (he : e.Fit wide) {E : Error → Prop} :
    Yields (Follows (Item.Fresh wide) s₀) E (place e) fun _ => True := by
  refine yields_get.bind fun _ _ => yields_get.bind fun _ _ => ?_
  cases hreloc : e.reloc with
  | none =>
    refine (yields_modify fun s hs => ?_).bind fun _ _ => yields_pure trivial
    exact hs.push fun f hf => by cases hf
  | some kind =>
    obtain ⟨name, addend, himm⟩ := he.symbolic kind hreloc
    rw [himm]
    dsimp only
    cases hkind : BranchKind.ofReloc? kind with
    | none =>
      refine (yields_modify fun s hs => ?_).bind fun _ _ => yields_pure trivial
      refine hs.push ?_
      rintro f ⟨⟩
      rfl
    | some k =>
      refine (yields_update ?_ ?_).bind fun _ _ => yields_pure trivial
      · intro s s' hs h
        rw [appendBranch_symbol hkind] at h
        cases h
        exact hs.push ⟨k, e.bits, name, addend, rfl, he.expands kind k hreloc hkind⟩
      · intro s e' hs h
        rw [appendBranch_symbol hkind] at h
        cases h

/-! ### Expanding -/

theorem yields_runStep {cs : Catalogs} (hcs : Catalogs.standard = .ok cs) (hs₀ : s₀.catalogs = cs)
    {step : Step} (haccepted : s₀.evaluator = .basic → step.Accepted cs (s₀.context true))
    (hbound : step.Bound) (pseudo : String) :
    Yields (Follows (Item.Fresh true) s₀) (Quiet s₀.evaluator) (runStep pseudo step)
      fun _ => True := by
  cases step with
  | label name => exact (yields_addSymbol name).bind fun _ _ => yields_pure trivial
  | insn mnemonic operands reloc =>
    refine yields_get.bind fun s hs => ?_
    rw [hs.catalogs, hs.context, hs₀]
    split
    · rename_i cause hencode
      refine yields_throw fun hev => ?_
      obtain ⟨e, he⟩ := haccepted hev
      exact absurd (hencode.symm.trans he) (by simp)
    · rename_i e hencode
      have hfit : e.Fit true := Matched.fit ⟨mnemonic, operands, e, hencode, .inl rfl⟩ hcs
      exact (yields_place (fit_relocate hfit hbound)).bind fun _ _ => yields_pure trivial

theorem yields_runSteps {cs : Catalogs} (hcs : Catalogs.standard = .ok cs)
    (hs₀ : s₀.catalogs = cs) {steps : List Step}
    (haccepted : s₀.evaluator = .basic → ∀ step ∈ steps, step.Accepted cs (s₀.context true))
    (hbound : ∀ step ∈ steps, step.Bound) (pseudo : String) :
    Yields (Follows (Item.Fresh true) s₀) (Quiet s₀.evaluator) (runSteps pseudo steps)
      fun _ => True := by
  induction steps with
  | nil => exact yields_pure trivial
  | cons step steps ih =>
    obtain ⟨hhere, hmore⟩ := List.forall_mem_cons.1 hbound
    refine (yields_runStep hcs hs₀ (fun hev => haccepted hev step List.mem_cons_self) hhere
      pseudo).bind fun _ _ => ?_
    refine (ih (fun hev step' hstep' => haccepted hev step' (List.mem_cons_of_mem _ hstep'))
      hmore).bind fun _ _ => yields_pure trivial

/-- **A matched pseudo-instruction is expanded**, or refused by an error that ends nothing. -/
theorem yields_expand {cs : Catalogs} (hcs : Catalogs.standard = .ok cs) (hs₀ : s₀.catalogs = cs)
    (hbase : s₀.isa.has "i" = true) {e : Encoded} {kind : PseudoKind}
    (hkind : e.template.pseudo = some kind) (h : Matched cs.instructions (s₀.context true) e) :
    Yields (Follows (Item.Fresh true) s₀) (Quiet s₀.evaluator) (expand kind e) fun _ => True := by
  obtain ⟨hmem, heligible, ⟨text, e₀, hencode, hbits⟩, hleft⟩ :=
    h.of_build (build_of_standard hcs).1 fun t ht => (Template.regular_of_mem ht).defersOnce
  refine yields_get.bind fun s hs => ?_
  rw [hs.isa]
  split
  · exact yields_throw fun _ => rfl
  · rename_i steps next hsteps
    refine (yields_modify fun s hs => { hs with items := hs.items }).bind fun _ _ => ?_
    obtain ⟨imm, himm, hsteps⟩ := PseudoKind.steps_of_expand hsteps
    rw [himm] at hleft
    refine yields_runSteps hcs hs₀ ?_ (bound_of_steps hmem hkind hleft hsteps) _
    intro hev
    have hset : Setting cs (s₀.context true) := ⟨hcs, hev, hbase⟩
    exact accepted_of_steps hset hmem hkind heligible hencode hbits hsteps

/-! ### Instructions -/

theorem yields_encodeIn (catalog : Catalogs → Catalog) (mnemonic : String) (operands : List Char) :
    Yields (Follows P s₀) (Quiet s₀.evaluator) (encodeIn catalog mnemonic operands)
      (Matched (catalog s₀.catalogs) (s₀.context true)) := by
  refine (yields_modify fun s hs => { hs with items := hs.items }).bind fun _ _ => ?_
  refine (yields_resolveReferences operands).bind fun text _ => ?_
  refine yields_get.bind fun s hs => ?_
  rw [hs.catalogs, hs.context]
  split
  · exact yields_throw fun _ => rfl
  · rename_i e hencode
    exact yields_nameDot hencode

/-- **No instruction ends a session** with the basic evaluator. -/
theorem yields_instruction (hcs : Catalogs.standard = .ok s₀.catalogs)
    (hbase : s₀.isa.has "i" = true) (mnemonic : String) (operands : List Char) :
    Yields (Follows (Item.Fresh true) s₀) (Quiet s₀.evaluator) (instruction mnemonic operands)
      fun _ => True := by
  refine (yields_encodeIn Catalogs.instructions mnemonic operands).bind fun e he => ?_
  split
  · rename_i kind hkind
    exact yields_expand hcs rfl hbase hkind he
  · exact (yields_place (he.fit hcs)).bind fun _ _ => yields_pure trivial

theorem yields_fieldInstruction (hcs : Catalogs.standard = .ok s₀.catalogs) (text : List Char) :
    Yields (Follows (Item.Fresh false) s₀) (Quiet s₀.evaluator) (fieldInstruction text)
      fun _ => True := by
  unfold fieldInstruction
  obtain ⟨type, fields⟩ := Text.firstWord text
  dsimp only
  split
  · exact (yields_throw (Q := fun _ => False) fun _ => rfl).bind fun _ h => h.elim
  · refine (yields_encodeIn Catalogs.fieldTypes _ fields).bind fun e he => ?_
    exact (yields_place (he.fit_fieldTypes hcs)).bind fun _ _ => yields_pure trivial

end

end Session

end RiscvAssembler
