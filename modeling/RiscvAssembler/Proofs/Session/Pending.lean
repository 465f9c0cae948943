import RiscvAssembler.Proofs.Session.Calls

/-!
References to later definitions are written down and not read. A computation that is oblivious to them
does the same whatever was noted before, and adds the same references (`Oblivious`); this is so for
every line, and so for every request (`oblivious_line`, `Request.oblivious`). Only the end of a session
looks at what was noted.
-/

namespace RiscvAssembler

/-- The labels with other references noted. -/
def Labels.withPending (l : Labels) (p : Array (Nat × Nat)) : Labels :=
  { l with pending := p }

/-- Replacing references does not read those noted before. -/
theorem Labels.resolveTokens_withPending (l : Labels) (tokens : List (List Char)) :
    ∃ added, ∀ p, (l.withPending p).resolveTokens tokens =
      ((l.resolveTokens tokens).1.withPending (p ++ added), (l.resolveTokens tokens).2) := by
  induction tokens generalizing l with
  | nil => exact ⟨#[], fun p => by simp [resolveTokens, withPending]⟩
  | cons token tokens ih =>
    unfold resolveTokens
    cases hreference : Label.reference? token with
    | none =>
      obtain ⟨added, hadded⟩ := ih l
      refine ⟨added, fun p => ?_⟩
      simp only [resolveToken, hreference, hadded p]
    | some reference =>
      obtain ⟨n, direction⟩ := reference
      have hcount : ∀ p, (l.withPending p).count n = l.count n := fun _ => rfl
      cases direction with
      | backward =>
        cases hn : l.count n with
        | zero =>
          refine ⟨#[], fun p => ?_⟩
          simp only [resolveToken, hreference, hcount, hn, Array.append_empty]
        | succ k =>
          obtain ⟨added, hadded⟩ := ih l
          refine ⟨added, fun p => ?_⟩
          simp only [resolveToken, hreference, hcount, hn, hadded p]
      | forward =>
        obtain ⟨added, hadded⟩ := ih { l with pending := l.pending.push (n, l.count n) }
        refine ⟨#[(n, l.count n)] ++ added, fun p => ?_⟩
        have hpush := hadded (p.push (n, l.count n))
        simp only [resolveToken, hreference, hcount]
        simp only [withPending] at hpush ⊢
        rw [hpush]
        simp

namespace Session

/-- The session with other references noted. -/
def withPending (s : Session) (p : Array (Nat × Nat)) : Session :=
  { s with labels := s.labels.withPending p }

@[simp] theorem withPending_pending (s : Session) : s.withPending s.labels.pending = s :=
  rfl

/-! ### Computations -/

/-- The result of a computation with other references noted at its end. -/
def withPendingResult {α : Type} (r : EStateM.Result Error Session α) (p : Array (Nat × Nat)) :
    EStateM.Result Error Session α :=
  match r with
  | .ok a s => .ok a (s.withPending p)
  | .error e s => .error e (s.withPending p)

/-- A computation that does the same whatever was noted, and notes the same references. -/
def Oblivious {α : Type} (x : AssemblerM α) : Prop :=
  ∀ s, ∃ added, ∀ p, x (s.withPending p) = withPendingResult (x s) (p ++ added)

section

variable {α β : Type} {x : AssemblerM α} {f : α → AssemblerM β}

/-- A computation that notes nothing. -/
theorem Oblivious.of_eq (h : ∀ s p, x (s.withPending p) = withPendingResult (x s) p) :
    Oblivious x :=
  fun s => ⟨#[], fun p => by rw [Array.append_empty, h]⟩

theorem oblivious_pure (a : α) : Oblivious (pure a) :=
  .of_eq fun _ _ => rfl

theorem oblivious_throw (e : Error) : Oblivious (throw e : AssemblerM α) :=
  .of_eq fun _ _ => rfl

theorem Oblivious.bind (hx : Oblivious x) (hf : ∀ a, Oblivious (f a)) : Oblivious (x >>= f) := by
  intro s
  obtain ⟨added, hadded⟩ := hx s
  cases hrun : x s with
  | ok a s₁ =>
    obtain ⟨added', hadded'⟩ := hf a s₁
    refine ⟨added ++ added', fun p => ?_⟩
    rw [run_bind_eq, run_bind_eq, hadded p, hrun]
    dsimp only [withPendingResult]
    rw [hadded' (p ++ added), Array.append_assoc]
    rfl
  | error e s₁ =>
    refine ⟨added, fun p => ?_⟩
    rw [run_bind_eq, run_bind_eq, hadded p, hrun]
    rfl

theorem oblivious_forM {xs : List α} {f : α → AssemblerM Unit} (h : ∀ a ∈ xs, Oblivious (f a)) :
    Oblivious (xs.forM f) := by
  induction xs with
  | nil => exact oblivious_pure ()
  | cons a xs ih =>
    exact (h a List.mem_cons_self).bind fun _ => ih fun b hb => h b (List.mem_cons_of_mem a hb)

theorem oblivious_update {f : Session → Except Error Session}
    (h : ∀ s p, f (s.withPending p) = (f s).map fun s' => s'.withPending p) :
    Oblivious (update f) := by
  refine .of_eq fun s p => ?_
  rw [update_eq, update_eq, h]
  cases f s <;> rfl

end

/-! ### Steps -/

theorem oblivious_addSymbol (name : String) : Oblivious (addSymbol name) := by
  refine oblivious_update fun s p => ?_
  have hcontents : (s.withPending p).contents = s.contents := rfl
  rw [hcontents]
  cases s.contents.define name <;> rfl

theorem oblivious_addLabel (label : Label) : Oblivious (addLabel label) := by
  cases label with
  | named name => exact oblivious_addSymbol name
  | numbered n =>
    refine Oblivious.bind (.of_eq fun s p => ?_) oblivious_addSymbol
    rfl

theorem oblivious_nameDot (e : Encoded) : Oblivious (nameDot e) := by
  refine .of_eq fun s p => ?_
  rw [nameDot_eq, nameDot_eq]
  cases e.dotAddend? with
  | none => rfl
  | some addend =>
    dsimp only
    have hdefines : (s.withPending p).contents.defines
        (Label.dotSymbol (s.withPending p).labels.nextDot) =
          s.contents.defines (Label.dotSymbol s.labels.nextDot) := rfl
    rw [hdefines]
    cases s.contents.defines (Label.dotSymbol s.labels.nextDot) <;> rfl

theorem oblivious_encodeIn (catalog : Catalogs → Catalog) (mnemonic : String)
    (operands : List Char) : Oblivious (encodeIn catalog mnemonic operands) := by
  intro s
  obtain ⟨added, hadded⟩ := s.labels.resolveTokens_withPending (Labels.tokens operands)
  have hresolve : ∀ p, (s.withPending p).labels.resolve operands =
      ((s.labels.resolve operands).1.withPending (p ++ added), (s.labels.resolve operands).2) :=
    hadded
  have hbegun : ∀ labels p q, (s.withPending p).begun (labels.withPending q) =
      (s.begun labels).withPending q := fun _ _ _ => rfl
  cases hlabels : s.labels.resolve operands with
  | mk labels outcome =>
    rw [hlabels] at hresolve
    cases outcome with
    | error e =>
      refine ⟨added, fun p => ?_⟩
      rw [encodeIn_eq, encodeIn_eq, hresolve, hlabels]
      rfl
    | ok text =>
      have hcontext : ∀ p, (s.withPending p).context true = s.context true := fun _ => rfl
      have hcatalogs : ∀ p, (s.withPending p).catalogs = s.catalogs := fun _ => rfl
      cases hencode : (catalog s.catalogs).encode (s.context true) mnemonic text with
      | error cause =>
        refine ⟨added, fun p => ?_⟩
        rw [encodeIn_eq, encodeIn_eq, hresolve, hlabels]
        dsimp only
        rw [hcatalogs, hcontext, hencode]
        rfl
      | ok e =>
        obtain ⟨added', hadded'⟩ := oblivious_nameDot e (s.begun labels)
        refine ⟨added ++ added', fun p => ?_⟩
        rw [encodeIn_eq, encodeIn_eq, hresolve, hlabels]
        dsimp only
        rw [hcatalogs, hcontext, hencode]
        dsimp only
        rw [hbegun, hadded', Array.append_assoc]

theorem oblivious_place (e : Encoded) : Oblivious (place e) := by
  refine .of_eq fun s p => ?_
  unfold place
  cases e.reloc with
  | none => rfl
  | some kind =>
    cases e.imm with
    | none => rfl
    | some target =>
      cases target with
      | constant v => rfl
      | register r => rfl
      | symbol name addend =>
        cases kind <;> rfl

theorem oblivious_runStep (pseudo : String) (step : Step) : Oblivious (runStep pseudo step) := by
  cases step with
  | label name => exact (oblivious_addSymbol name).bind fun _ => oblivious_pure []
  | insn mnemonic operands reloc =>
    intro s
    have hcatalogs : ∀ p, (s.withPending p).catalogs = s.catalogs := fun _ => rfl
    have hcontext : ∀ p compress, (s.withPending p).context compress = s.context compress :=
      fun _ _ => rfl
    cases hencode : s.catalogs.instructions.encode
        (s.context (Step.insn mnemonic operands reloc).mayCompress) mnemonic operands with
    | error cause =>
      refine ⟨#[], fun p => ?_⟩
      rw [runStep_insn_eq, runStep_insn_eq, hcatalogs, hcontext, hencode, Array.append_empty]
      rfl
    | ok e =>
      obtain ⟨added, hadded⟩ :=
        (oblivious_place (relocate e reloc)).bind (fun placed => oblivious_pure [placed]) s
      refine ⟨added, fun p => ?_⟩
      rw [runStep_insn_eq, runStep_insn_eq, hcatalogs, hcontext, hencode]
      exact hadded p

theorem oblivious_runSteps (pseudo : String) (steps : List Step) :
    Oblivious (runSteps pseudo steps) := by
  induction steps with
  | nil => exact oblivious_pure []
  | cons step steps ih =>
    exact (oblivious_runStep pseudo step).bind fun here => ih.bind fun more =>
      oblivious_pure (here ++ more)

theorem oblivious_expand (kind : PseudoKind) (e : Encoded) : Oblivious (expand kind e) := by
  intro s
  have hsame : ∀ p, kind.expand e (s.withPending p).isa.xlen (s.withPending p).options.pic
      (s.withPending p).labels.nextUpper =
        kind.expand e s.isa.xlen s.options.pic s.labels.nextUpper := fun _ => rfl
  cases hexpand : kind.expand e s.isa.xlen s.options.pic s.labels.nextUpper with
  | error cause =>
    refine ⟨#[], fun p => ?_⟩
    rw [expand_eq, expand_eq, hsame, hexpand, Array.append_empty]
    rfl
  | ok outcome =>
    obtain ⟨steps, next⟩ := outcome
    obtain ⟨added, hadded⟩ := oblivious_runSteps e.template.mnemonic steps (s.withUpper next)
    refine ⟨added, fun p => ?_⟩
    rw [expand_eq, expand_eq, hsame, hexpand]
    exact hadded p

theorem oblivious_instruction (mnemonic : String) (operands : List Char) :
    Oblivious (instruction mnemonic operands) := by
  refine (oblivious_encodeIn Catalogs.instructions mnemonic operands).bind fun e => ?_
  cases e.template.pseudo with
  | none => exact (oblivious_place e).bind fun placed => oblivious_pure [placed]
  | some kind => exact oblivious_expand kind e

theorem oblivious_fieldInstruction (text : List Char) : Oblivious (fieldInstruction text) := by
  unfold fieldInstruction
  dsimp only
  split
  · exact oblivious_throw _
  · exact (oblivious_encodeIn Catalogs.fieldTypes _ _).bind fun e =>
      (oblivious_place e).bind fun placed => oblivious_pure [placed]

/-! ### Lines -/

theorem useIsa_withPending (arch : List Char) (s : Session) (p : Array (Nat × Nat)) :
    (s.withPending p).useIsa arch = (s.useIsa arch).map fun s' => s'.withPending p := by
  unfold useIsa
  have hconfig : (s.withPending p).config = s.config := rfl
  rw [hconfig]
  cases Isa.parse s.config.versionOf arch <;> rfl

theorem declareArch_withPending (arch : List Char) (s : Session) (p : Array (Nat × Nat)) :
    (s.withPending p).declareArch arch = (s.declareArch arch).map fun s' => s'.withPending p := by
  unfold declareArch
  have hstarted : (s.withPending p).started = s.started := rfl
  rw [hstarted, useIsa_withPending]
  cases s.started with
  | true => rfl
  | false => cases s.useIsa arch <;> rfl

theorem option_withPending (name : String) (s : Session) (p : Array (Nat × Nat)) :
    (s.withPending p).option name = (s.option name).map fun s' => s'.withPending p := by
  unfold Session.option
  cases OptionCommand.ofName? name with
  | none => rfl
  | some command =>
    cases command with
    | rvc on => cases on <;> rfl
    | pic on => rfl
    | relax on => rfl
    | push => rfl
    | pop =>
      dsimp only [runOption]
      have hsaved : (s.withPending p).saved = s.saved := rfl
      rw [hsaved]
      cases s.saved <;> rfl

theorem oblivious_useIsa (arch : List Char) : Oblivious (update (·.useIsa arch)) :=
  oblivious_update (useIsa_withPending arch)

theorem oblivious_declareArch (arch : List Char) : Oblivious (update (·.declareArch arch)) :=
  oblivious_update (declareArch_withPending arch)

theorem oblivious_option (name : String) : Oblivious (update (·.option name)) :=
  oblivious_update (option_withPending name)

theorem oblivious_statement (st : Statement) : Oblivious (statement st) := by
  cases st with
  | nothing => exact oblivious_pure ()
  | option name => exact oblivious_option name
  | fields text => exact (oblivious_fieldInstruction text).bind fun _ => oblivious_pure ()
  | setAttribute arguments =>
    refine oblivious_update fun s p => ?_
    cases Attribute.read arguments with
    | error m => rfl
    | ok found =>
      cases found with
      | ignored => rfl
      | arch text => exact declareArch_withPending text s p
  | unknownDirective name => exact oblivious_throw _
  | instruction mnemonic operands =>
    exact (oblivious_instruction mnemonic operands).bind fun _ => oblivious_pure ()

/-- A line does the same whatever was noted before. -/
theorem oblivious_line (text : List Char) : Oblivious (line text) :=
  (oblivious_forM fun label _ => oblivious_addLabel label).bind fun _ => oblivious_statement _

/-! ### Requests -/

/-- What a computation returns. -/
def outcome {α : Type} (x : AssemblerM α) (s : Session) : Except Error α :=
  match x s with
  | .ok a _ => .ok a
  | .error e _ => .error e

/-- What a session answers to a request. -/
inductive Answer where
  | done (outcome : Except Error Unit)
  | placed (outcome : Except Error (List Placed))
  | report (report : Report)

/-- The answer to a request. -/
def Request.answer (s : Session) : Request → Answer
  | .useEvaluator _ => .done (.ok ())
  | .useIsa arch => .done (outcome (update (·.useIsa arch)) s)
  | .declareArch arch => .done (outcome (update (·.declareArch arch)) s)
  | .option name => .done (outcome (update (·.option name)) s)
  | .instruction mnemonic operands => .placed (outcome (Session.instruction mnemonic operands) s)
  | .fields text => .placed (outcome (fieldInstruction text) s)
  | .line text => .done (outcome (Session.line text) s)
  | .block text => .report (s.block text).2

/-- The answers to requests, one after the other. -/
def answers : Session → List Request → List Answer
  | _, [] => []
  | s, request :: requests => request.answer s :: answers (request.run s) requests

/-- Sessions that no requests tell apart, neither by their answers nor by how the session ends. -/
def Indistinct (s s' : Session) : Prop :=
  ∀ requests : List Request, answers s requests = answers s' requests ∧
    let t := requests.foldl Request.run s
    let t' := requests.foldl Request.run s'
    t.finish = t'.finish ∧ t.recordedArch? = t'.recordedArch? ∧ t.objectFlags = t'.objectFlags

section

variable {α : Type} {x : AssemblerM α}

theorem Oblivious.leftBy_outcome (h : Oblivious x) (s : Session) :
    ∃ added, ∀ p, leftBy x (s.withPending p) = (leftBy x s).withPending (p ++ added) ∧
      outcome x (s.withPending p) = outcome x s := by
  obtain ⟨added, hadded⟩ := h s
  refine ⟨added, fun p => ?_⟩
  unfold leftBy outcome
  rw [hadded p]
  cases x s <;> exact ⟨rfl, rfl⟩

theorem statements_withPending (texts : List (List Char)) (s : Session) :
    ∃ added, ∀ p, (s.withPending p).statements texts =
      ((s.statements texts).1.withPending (p ++ added), (s.statements texts).2) := by
  induction texts generalizing s with
  | nil => exact ⟨#[], fun p => by rw [Array.append_empty]; rfl⟩
  | cons text texts ih =>
    obtain ⟨added, hadded⟩ := oblivious_line text s
    unfold statements
    cases hline : line text s with
    | ok u s₁ =>
      rw [hline] at hadded
      obtain ⟨added', hadded'⟩ := ih s₁
      refine ⟨added ++ added', fun p => ?_⟩
      rw [hadded p]
      dsimp only [withPendingResult]
      rw [hadded', Array.append_assoc]
    | error e s₁ =>
      rw [hline] at hadded
      cases hends : e.endsSession with
      | true =>
        refine ⟨added, fun p => ?_⟩
        rw [hadded p]
        simp only [withPendingResult, hends, if_true]
      | false =>
        obtain ⟨added', hadded'⟩ := ih s₁
        refine ⟨added ++ added', fun p => ?_⟩
        rw [hadded p]
        simp only [withPendingResult, hends, hadded', Array.append_assoc, Bool.false_eq_true,
          if_false]

/-- **A request does the same whatever was noted before.** -/
theorem Request.withPending (request : Request) (s : Session) :
    ∃ added, ∀ p, request.run (s.withPending p) = (request.run s).withPending (p ++ added) ∧
      request.answer (s.withPending p) = request.answer s := by
  cases request with
  | useEvaluator ev => exact ⟨#[], fun p => ⟨by rw [Array.append_empty]; rfl, rfl⟩⟩
  | useIsa arch =>
    obtain ⟨added, h⟩ := (oblivious_useIsa arch).leftBy_outcome s
    exact ⟨added, fun p => ⟨(h p).1, congrArg Answer.done (h p).2⟩⟩
  | declareArch arch =>
    obtain ⟨added, h⟩ := (oblivious_declareArch arch).leftBy_outcome s
    exact ⟨added, fun p => ⟨(h p).1, congrArg Answer.done (h p).2⟩⟩
  | option name =>
    obtain ⟨added, h⟩ := (oblivious_option name).leftBy_outcome s
    exact ⟨added, fun p => ⟨(h p).1, congrArg Answer.done (h p).2⟩⟩
  | instruction mnemonic operands =>
    obtain ⟨added, h⟩ := (oblivious_instruction mnemonic operands).leftBy_outcome s
    exact ⟨added, fun p => ⟨(h p).1, congrArg Answer.placed (h p).2⟩⟩
  | fields text =>
    obtain ⟨added, h⟩ := (oblivious_fieldInstruction text).leftBy_outcome s
    exact ⟨added, fun p => ⟨(h p).1, congrArg Answer.placed (h p).2⟩⟩
  | line text =>
    obtain ⟨added, h⟩ := (oblivious_line text).leftBy_outcome s
    exact ⟨added, fun p => ⟨(h p).1, congrArg Answer.done (h p).2⟩⟩
  | block text =>
    obtain ⟨added, h⟩ := statements_withPending (Statement.ofBlock text) s
    have hblock : ∀ p, (s.withPending p).block text =
        ((s.block text).1.withPending (p ++ added), (s.block text).2) := h
    refine ⟨added, fun p => ⟨congrArg Prod.fst (hblock p), ?_⟩⟩
    exact congrArg (fun outcome => Answer.report outcome.2) (hblock p)

theorem run_withPending (requests : List Request) (s : Session) :
    ∃ added, ∀ p, requests.foldl Request.run (s.withPending p) =
        (requests.foldl Request.run s).withPending (p ++ added) ∧
      answers (s.withPending p) requests = answers s requests := by
  induction requests generalizing s with
  | nil => exact ⟨#[], fun p => ⟨by rw [Array.append_empty]; rfl, rfl⟩⟩
  | cons request requests ih =>
    obtain ⟨added, h⟩ := request.withPending s
    obtain ⟨added', h'⟩ := ih (request.run s)
    refine ⟨added ++ added', fun p => ?_⟩
    unfold answers
    rw [List.foldl_cons, List.foldl_cons, (h p).1, (h p).2, (h' (p ++ added)).1,
      (h' (p ++ added)).2, Array.append_assoc]
    exact ⟨rfl, rfl⟩

/-- References that were noted before may be noted again. -/
theorem find?_append_subset {p q added : Array (Nat × Nat)} (h : ∀ a ∈ q.toList, a ∈ p.toList)
    (f : Nat × Nat → Bool) : (p ++ q ++ added).find? f = (p ++ added).find? f := by
  rw [Array.find?_append, Array.find?_append, Array.find?_append]
  cases hp : p.find? f with
  | some a => rfl
  | none =>
    have hq : q.find? f = none := by
      refine Array.find?_eq_none.2 fun a ha => Array.find?_eq_none.1 hp a ?_
      exact Array.mem_toList_iff.1 (h a (Array.mem_toList_iff.2 ha))
    rw [hq]
    rfl

theorem finish_withPending {s : Session} {p p' : Array (Nat × Nat)}
    (h : ∀ f, p.find? f = p'.find? f) : (s.withPending p).finish = (s.withPending p').finish := by
  have hunresolved : ∀ p, (s.withPending p).labels.unresolved? =
      (p.find? fun a => s.labels.count a.1 ≤ a.2).map (·.1) := fun _ => unresolved?_eq_find? _
  unfold finish
  rw [hunresolved, hunresolved, h]
  rfl

/-- **Noting references again makes no difference.** -/
theorem indistinct_of_subset {s : Session} {q : Array (Nat × Nat)}
    (h : ∀ a ∈ q.toList, a ∈ s.labels.pending.toList) :
    Indistinct s (s.withPending (s.labels.pending ++ q)) := by
  intro requests
  obtain ⟨added, hadded⟩ := run_withPending requests s
  obtain ⟨hrun, hanswers⟩ := hadded (s.labels.pending ++ q)
  obtain ⟨hsame, -⟩ := hadded s.labels.pending
  rw [withPending_pending] at hsame
  refine ⟨hanswers.symm, ?_⟩
  dsimp only
  rw [hrun]
  refine ⟨?_, rfl, rfl⟩
  calc (requests.foldl Request.run s).finish
      = ((requests.foldl Request.run s).withPending (s.labels.pending ++ added)).finish := by
        rw [← hsame]
    _ = _ := finish_withPending fun f => (find?_append_subset h f).symm

end

end Session

end RiscvAssembler
