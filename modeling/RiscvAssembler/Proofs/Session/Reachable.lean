import RiscvAssembler.Proofs.Isa.WellFormed
import RiscvAssembler.Proofs.Session.Instructions
import RiscvAssembler.Session.Source

/-!
Sessions after any requests. They keep their tables and have an instruction set that was read, and
every item is as it was appended (`Settled`). So assembling a text in a session with the basic
evaluator reports errors and is never ended by one (`assembling_is_never_fatal`).
-/

namespace RiscvAssembler

theorem Item.Fresh.mono {item : Item} (h : item.Fresh true) (wide : Bool) : item.Fresh wide := by
  cases item with
  | data bytes fixup => exact h
  | branch b relax =>
    obtain ⟨k, w, name, addend, hb, hexpands⟩ := h
    exact ⟨k, w, name, addend, hb, fun _ => hexpands rfl⟩

namespace Session

/-- What holds of a session at any time. -/
structure Settled (cs : Catalogs) (ev : Evaluator) (wide : Bool) (s : Session) : Prop where
  catalogs : s.catalogs = cs
  evaluator : s.evaluator = ev
  isa : ∃ arch, Isa.parse s.config.versionOf arch = .ok s.isa
  items : ∀ item ∈ s.contents.items.toList, item.Fresh wide

section

variable {cs : Catalogs} {ev : Evaluator} {wide : Bool} {s s' : Session}

theorem Settled.has_base (h : Settled cs ev wide s) : s.isa.has "i" = true := by
  obtain ⟨arch, hparse⟩ := h.isa
  exact (Isa.WellFormed.of_read (Isa.read_of_parse hparse)).has_base

theorem Settled.of_follows {P : Item → Prop} (h : Settled cs ev wide s) (hs : Follows P s s')
    (hP : ∀ item, P item → item.Fresh wide) : Settled cs ev wide s' := by
  refine ⟨hs.catalogs.trans h.catalogs, hs.evaluator.trans h.evaluator, ?_, ?_⟩
  · rw [hs.config, hs.isa]
    exact h.isa
  · intro item hitem
    rcases hs.items item hitem with hold | hnew
    · exact h.items item hold
    · exact hP item hnew

/-- A computation that keeps the settings keeps sessions settled. -/
theorem yields_of_follows {α : Type} {x : AssemblerM α} {P : Item → Prop}
    (hP : ∀ item, P item → item.Fresh wide)
    (h : ∀ s, Settled cs ev wide s → Yields (Follows P s) (Quiet s.evaluator) x fun _ => True) :
    Yields (Settled cs ev wide) (Quiet ev) x fun _ => True := by
  intro s hs
  have hrun := h s hs s (Follows.refl P s)
  rw [hs.evaluator] at hrun
  cases hx : x s with
  | ok a s' =>
    rw [hx] at hrun
    exact ⟨hs.of_follows hrun.1 hP, trivial⟩
  | error e s' =>
    rw [hx] at hrun
    exact ⟨hs.of_follows hrun.1 hP, hrun.2⟩

/-! ### Settings -/

theorem Settled.useIsa (h : Settled cs ev wide s) {arch : List Char} (hs : s.useIsa arch = .ok s') :
    Settled cs ev wide s' := by
  unfold Session.useIsa at hs
  split at hs
  · cases hs
  · rename_i isa hparse
    cases hs
    exact { h with isa := ⟨arch, hparse⟩ }

theorem endsSession_of_useIsa {arch : List Char} {e : Error} (h : s.useIsa arch = .error e) :
    e.endsSession = false := by
  unfold Session.useIsa at h
  split at h
  · cases h
    rfl
  · cases h

theorem yields_useIsa (arch : List Char) :
    Yields (Settled cs ev wide) (Quiet ev) (update (·.useIsa arch)) fun _ => True :=
  yields_update (fun _ _ hs h => hs.useIsa h) fun _ _ _ h _ => endsSession_of_useIsa h

theorem Settled.declareArch (h : Settled cs ev wide s) {arch : List Char}
    (hs : s.declareArch arch = .ok s') : Settled cs ev wide s' := by
  unfold Session.declareArch at hs
  split at hs
  · cases hs
  · cases hisa : s.useIsa arch with
    | error e =>
      rw [hisa] at hs
      cases hs
    | ok s₁ =>
      rw [hisa] at hs
      cases hs
      exact { h.useIsa hisa with items := (h.useIsa hisa).items }

theorem endsSession_of_declareArch {arch : List Char} {e : Error}
    (h : s.declareArch arch = .error e) : e.endsSession = false := by
  unfold Session.declareArch at h
  split at h
  · cases h
    rfl
  · cases hisa : s.useIsa arch with
    | error e' =>
      rw [hisa] at h
      cases h
      exact endsSession_of_useIsa hisa
    | ok s₁ =>
      rw [hisa] at h
      cases h

theorem yields_declareArch (arch : List Char) :
    Yields (Settled cs ev wide) (Quiet ev) (update (·.declareArch arch)) fun _ => True :=
  yields_update (fun _ _ hs h => hs.declareArch h) fun _ _ _ h _ => endsSession_of_declareArch h

theorem yields_setAttribute (arguments : List Char) :
    Yields (Settled cs ev wide) (Quiet ev) (setAttribute arguments) fun _ => True := by
  unfold setAttribute
  cases Attribute.read arguments with
  | error m => exact yields_update (fun _ _ _ h => by cases h) fun _ _ _ h _ => by cases h; rfl
  | ok request =>
    cases request with
    | ignored =>
      apply yields_update
      · intro s s' hs h
        cases h
        exact hs
      · intro s e hs h
        cases h
    | arch text => exact yields_declareArch text

/-- An option command changes nothing but options, or fails as a directive. -/
theorem runOption_cases (s : Session) (command : OptionCommand) :
    (∃ options saved seen, s.runOption command =
        .ok { s with options := options, saved := saved, compressedSeen := seen }) ∨
      ∃ d, s.runOption command = .error (.directive d) := by
  unfold runOption
  split
  · exact .inl ⟨_, _, _, rfl⟩
  · exact .inl ⟨_, _, _, rfl⟩
  · exact .inl ⟨_, _, _, rfl⟩
  · exact .inl ⟨_, _, _, rfl⟩
  · exact .inl ⟨_, _, _, rfl⟩
  · split
    · exact .inr ⟨_, rfl⟩
    · exact .inl ⟨_, _, _, rfl⟩

theorem yields_option (name : String) :
    Yields (Settled cs ev wide) (Quiet ev) (update (·.option name)) fun _ => True := by
  unfold Session.option
  cases OptionCommand.ofName? name with
  | none => exact yields_update (fun _ _ _ h => by cases h) fun _ _ _ h _ => by cases h; rfl
  | some command =>
    apply yields_update
    · intro s s' hs h
      obtain ⟨options, saved, seen, hrun⟩ | ⟨d, hrun⟩ := runOption_cases s command
      · cases hrun.symm.trans h
        exact { hs with items := hs.items }
      · cases hrun.symm.trans h
    · intro s e _ h _
      obtain ⟨options, saved, seen, hrun⟩ | ⟨d, hrun⟩ := runOption_cases s command
      · cases hrun.symm.trans h
      · cases hrun.symm.trans h
        rfl

/-! ### Text -/

theorem yields_instruction_settled (hcs : Catalogs.standard = .ok cs) (mnemonic : String)
    (operands : List Char) :
    Yields (Settled cs ev wide) (Quiet ev) (instruction mnemonic operands) fun _ => True := by
  refine yields_of_follows (fun item (h : item.Fresh true) => h.mono wide) fun s hs => ?_
  exact yields_instruction (hs.catalogs ▸ hcs) hs.has_base mnemonic operands

theorem yields_fieldInstruction_settled (hcs : Catalogs.standard = .ok cs) (text : List Char) :
    Yields (Settled cs ev false) (Quiet ev) (fieldInstruction text) fun _ => True :=
  yields_of_follows (fun _ h => h) fun _ hs => yields_fieldInstruction (hs.catalogs ▸ hcs) text

theorem yields_statement (hcs : Catalogs.standard = .ok cs) {st : Statement}
    (hwide : wide = true → ∀ text, st ≠ .fields text) :
    Yields (Settled cs ev wide) (Quiet ev) (statement st) fun _ => True := by
  cases st with
  | nothing => exact yields_pure trivial
  | option name => exact yields_option name
  | fields text =>
    cases wide with
    | true => exact absurd rfl (hwide rfl text)
    | false =>
      exact (yields_fieldInstruction_settled hcs text).bind fun _ _ => yields_pure trivial
  | setAttribute arguments => exact yields_setAttribute arguments
  | unknownDirective name => exact yields_throw fun _ => rfl
  | instruction mnemonic operands =>
    exact (yields_instruction_settled hcs mnemonic operands).bind fun _ _ => yields_pure trivial

/-- **A line keeps a session settled**, and with the basic evaluator no error of it ends the
session. -/
theorem yields_line (hcs : Catalogs.standard = .ok cs) {text : List Char}
    (hwide : wide = true → ∀ fields, (Line.read text).statement ≠ .fields fields) :
    Yields (Settled cs ev wide) (Quiet ev) (line text) fun _ => True := by
  refine (yields_forM fun label _ => ?_).bind fun _ _ => yields_statement hcs hwide
  exact yields_of_follows (fun _ h => h) fun _ _ => yields_addLabel label

/-- A block keeps a session settled, and with the basic evaluator nothing ends it. -/
theorem Settled.statements (hcs : Catalogs.standard = .ok cs) {texts : List (List Char)}
    (h : Settled cs ev false s) :
    Settled cs ev false (s.statements texts).1 ∧
      (ev = .basic → (s.statements texts).2.fatal = none) := by
  induction texts generalizing s with
  | nil => exact ⟨h, fun _ => rfl⟩
  | cons text texts ih =>
    have hline : Yields (Settled cs ev false) (Quiet ev) (line text) fun _ => True :=
      yields_line hcs fun hwide => by cases hwide
    replace hline := hline s h
    unfold Session.statements
    cases hrun : line text s with
    | ok u s' =>
      rw [hrun] at hline
      exact ih hline.1
    | error e s' =>
      rw [hrun] at hline
      obtain ⟨hs', hquiet⟩ := hline
      dsimp only
      split
      · rename_i hends
        refine ⟨hs', fun hev => ?_⟩
        rw [hquiet hev] at hends
        cases hends
      · exact ih hs'

/-! ### Requests -/

/-- The session of a configuration whose instruction set can be read. -/
theorem new_of_parse {config : Config} {isa : Isa}
    (h : Isa.parse config.versionOf config.arch = .ok isa)
    (habi : config.checkAbi isa.xlen = .ok ()) :
    Session.new cs config = .ok
      { catalogs := cs, config := config, evaluator := .basic, isa := isa,
        options := { config.startOptions with rvc := isa.has "c" }, saved := [],
        contents := .empty, labels := .empty, started := false, archGiven := false,
        compressedSeen := isa.has "c" } := by
  simp only [Session.new, Session.useIsa, h, bind, Except.bind, withIsa, habi, Bool.false_or]
  rfl

theorem settled_new {config : Config} (h : Session.new cs config = .ok s) (wide : Bool) :
    Settled cs .basic wide s := by
  obtain ⟨s₁, hisa, h⟩ := bind_eq_ok_iff.1 h
  obtain ⟨_, -, h⟩ := bind_eq_ok_iff.1 h
  cases h
  unfold Session.useIsa at hisa
  split at hisa
  · cases hisa
  · rename_i isa hparse
    cases hisa
    exact ⟨rfl, rfl, ⟨config.arch, hparse⟩, fun item hitem => by cases hitem⟩

end

/-- What may be asked of a session. -/
inductive Request where
  /-- Another evaluator. -/
  | useEvaluator (ev : Evaluator)
  /-- Another instruction set. -/
  | useIsa (arch : List Char)
  /-- The instruction set of an attribute. -/
  | declareArch (arch : List Char)
  | option (name : String)
  | instruction (mnemonic : String) (operands : List Char)
  /-- An instruction given field by field. -/
  | fields (text : List Char)
  | line (text : List Char)
  | block (text : List Char)

/-- The session that a computation leaves, whether it succeeds or not. -/
def leftBy {α : Type} (x : AssemblerM α) (s : Session) : Session :=
  match x s with
  | .ok _ s' => s'
  | .error _ s' => s'

/-- The session after a request. -/
def Request.run (s : Session) : Request → Session
  | .useEvaluator ev => { s with evaluator := ev }
  | .useIsa arch => leftBy (update (·.useIsa arch)) s
  | .declareArch arch => leftBy (update (·.declareArch arch)) s
  | .option name => leftBy (update (·.option name)) s
  | .instruction mnemonic operands => leftBy (Session.instruction mnemonic operands) s
  | .fields text => leftBy (fieldInstruction text) s
  | .line text => leftBy (Session.line text) s
  | .block text => (s.block text).1

/-- Sessions after some requests, of which any may have failed. -/
def Reachable (cs : Catalogs) (s : Session) : Prop :=
  ∃ config start requests, Session.new cs config = .ok start ∧
    s = List.foldl Request.run start requests

section

variable {cs : Catalogs} {ev : Evaluator} {s : Session}

theorem Yields.leftBy {α : Type} {I : Session → Prop} {E : Error → Prop} {x : AssemblerM α}
    {Q : α → Prop} (h : Yields I E x Q) (hs : I s) : I (leftBy x s) := by
  have hrun := h s hs
  unfold Session.leftBy
  cases hx : x s with
  | ok a s' =>
    rw [hx] at hrun
    exact hrun.1
  | error e s' =>
    rw [hx] at hrun
    exact hrun.1

/-- **A request keeps a session settled**, with its evaluator unless it asks for another. -/
theorem Settled.run_of_keeps (hcs : Catalogs.standard = .ok cs) (h : Settled cs ev false s)
    {request : Request} (hkeeps : ∀ ev', request = .useEvaluator ev' → ev' = ev) :
    Settled cs ev false (request.run s) := by
  cases request with
  | useEvaluator ev' =>
    obtain rfl := hkeeps ev' rfl
    exact { h with evaluator := rfl }
  | useIsa arch => exact (yields_useIsa arch).leftBy h
  | declareArch arch => exact (yields_declareArch arch).leftBy h
  | option name => exact (yields_option name).leftBy h
  | instruction mnemonic operands =>
    exact (yields_instruction_settled hcs mnemonic operands).leftBy h
  | fields text => exact (yields_fieldInstruction_settled hcs text).leftBy h
  | line text => exact (yields_line hcs fun hwide => by cases hwide).leftBy h
  | block text => exact (h.statements hcs).1

theorem Settled.run (hcs : Catalogs.standard = .ok cs) (h : Settled cs ev false s)
    (request : Request) : ∃ ev', Settled cs ev' false (request.run s) := by
  by_cases hkeeps : ∀ ev', request = .useEvaluator ev' → ev' = ev
  · exact ⟨ev, h.run_of_keeps hcs hkeeps⟩
  · obtain ⟨ev', hrest⟩ := Classical.not_forall.1 hkeeps
    obtain ⟨rfl, -⟩ := Classical.not_imp.1 hrest
    exact ⟨ev', { h with evaluator := rfl }⟩

theorem Reachable.settled (hcs : Catalogs.standard = .ok cs) (h : Reachable cs s) :
    Settled cs s.evaluator false s := by
  obtain ⟨config, start, requests, hnew, rfl⟩ := h
  have hrun : ∀ (requests : List Request) (s : Session) (ev : Evaluator),
      Settled cs ev false s → ∃ ev', Settled cs ev' false (requests.foldl Request.run s) := by
    intro requests
    induction requests with
    | nil => exact fun s ev hs => ⟨ev, hs⟩
    | cons request requests ih =>
      intro s ev hs
      obtain ⟨ev', hs'⟩ := hs.run hcs request
      exact ih _ ev' hs'
  obtain ⟨ev, hs⟩ := hrun requests start .basic (settled_new hnew false)
  exact { hs with evaluator := rfl }

/-- **Assembling is never fatal.** In a session with the basic evaluator, after any requests, every
text is assembled to its end. Every step of an expansion is encoded and has symbols for its
relocations; and a matched relocation is against a symbol, to which a branch can be appended. -/
theorem assembling_is_never_fatal (hcs : Catalogs.standard = .ok cs) (hs : Reachable cs s)
    (hev : s.evaluator = .basic) :
    (∀ text, (s.block text).2.fatal = none) ∧
      (∀ e kind, Matched cs.instructions (s.context true) e → e.template.pseudo = some kind →
        ∀ pic next steps next', kind.expand e s.isa.xlen pic next = .ok (steps, next') →
          ∀ step ∈ steps, step.Accepted cs (s.context true) ∧ step.Bound) ∧
      ∀ c ∈ [cs.instructions, cs.fieldTypes], ∀ e kind, Matched c (s.context true) e →
        e.reloc = some kind → ∃ name addend, e.imm = some (.symbol name addend) ∧
          ∀ k, BranchKind.ofReloc? kind = some k → ∀ (contents : Section) relax, ∃ contents',
            contents.appendBranch e.bits kind (.symbol name addend) relax = .ok contents' := by
  have hsettled := hs.settled hcs
  refine ⟨?_, ?_, ?_⟩
  · intro text
    exact (hsettled.statements hcs).2 hev
  · intro e kind he hkind pic next steps next' hexpand step hstep
    obtain ⟨hmem, heligible, ⟨text, e₀, hencode, hbits⟩, hleft⟩ :=
      he.of_build (build_of_standard hcs).1 fun t ht => (Template.regular_of_mem ht).defersOnce
    obtain ⟨imm, himm, hsteps⟩ := PseudoKind.steps_of_expand hexpand
    rw [himm] at hleft
    have hset : Setting cs (s.context true) := ⟨hcs, hev, hsettled.has_base⟩
    exact ⟨accepted_of_steps hset hmem hkind heligible hencode hbits hsteps step hstep,
      bound_of_steps hmem hkind hleft hsteps step hstep⟩
  · intro c hc e kind he hreloc
    have hsymbolic : ∃ name addend, e.imm = some (.symbol name addend) := by
      rcases List.mem_pair.1 hc with rfl | rfl
      · exact (he.fit hcs).symbolic kind hreloc
      · exact (he.fit_fieldTypes hcs).symbolic kind hreloc
    obtain ⟨name, addend, himm⟩ := hsymbolic
    refine ⟨name, addend, himm, ?_⟩
    intro k hk contents relax
    exact ⟨_, appendBranch_symbol hk contents e.bits name addend relax⟩

/-- Sixteen registers, after another evaluator was tried. -/
theorem assembling_is_never_fatal_embedded :
    ∃ cs s, Catalogs.standard = .ok cs ∧ Reachable cs s ∧ s.evaluator = .basic ∧
      (s.block "li x15, 0x12345678; call f\nsw x16, f, x5".toList).2.fatal = none := by
  obtain ⟨cs, hcs⟩ := Catalogs.exists_standard
  let config := Config.ofArch "rv32e".toList
  let requests : List Request := [.useEvaluator .hex, .option "push", .useEvaluator .basic]
  have hparse : (Isa.parse config.versionOf config.arch).isOk = true := by decide +kernel
  obtain ⟨isa, hisa⟩ := exists_ok_of_isOk hparse
  have hnew : Session.new cs config = .ok _ := new_of_parse hisa rfl
  have hs : Reachable cs (requests.foldl Request.run _) := ⟨config, _, requests, hnew, rfl⟩
  exact ⟨cs, _, hcs, hs, rfl, (assembling_is_never_fatal hcs hs rfl).1 _⟩

end

end Session

end RiscvAssembler
