import RiscvAssembler.Proofs.Session.Growth

/-!
Runs of a session as sequences of calls. Lines, blocks and requests come down to the instructions they
give, each to a session that is settled, and nothing is placed between two of them (`passes_run`). So
the items of a session are those of its calls, in order (`Passes.items`), and what a call leaves is
still there at the end (`Passes.of_mem`). What labels, calls and directives keep holds before every
call of a run and at its end (`Kept.run`), and what holds after one of its calls holds on to its end
(`KeptByLines.of_calls`).
-/

namespace RiscvAssembler

/-! ### The calls of a run -/

namespace Session

/-- An instruction as it is written. -/
inductive Written where
  | instruction (mnemonic : String) (operands : List Char)
  /-- Field by field, after its type. -/
  | fields (text : List Char)

/-- Assembles an instruction as it is written. -/
def Written.run : Written → AssemblerM (List Placed)
  | .instruction mnemonic operands => Session.instruction mnemonic operands
  | .fields text => fieldInstruction text

/-- The catalog that an instruction is looked up in. -/
def Written.catalog : Written → Catalogs → Catalog
  | .instruction _ _ => Catalogs.instructions
  | .fields _ => Catalogs.fieldTypes

/-- The mnemonic, or the type of an instruction given field by field. -/
def Written.mnemonic : Written → String
  | .instruction mnemonic _ => mnemonic
  | .fields text => String.ofList (Text.firstWord text).1

/-- The operand text. -/
def Written.operands : Written → List Char
  | .instruction _ operands => operands
  | .fields text => (Text.firstWord text).2

/-- Expands or places an encoded instruction. -/
def Written.assemble (w : Written) (e : Encoded) : AssemblerM (List Placed) :=
  match w, e.template.pseudo with
  | .instruction _ _, some kind => expand kind e
  | _, _ => do return [← place e]

/-- The instruction of a statement. -/
def written? : Statement → Option Written
  | .instruction mnemonic operands => some (.instruction mnemonic operands)
  | .fields text => some (.fields text)
  | _ => none

/-- An instruction that a session was given. -/
structure Call where
  before : Session
  written : Written

/-- The session after a call, whether it succeeds or not. -/
def Call.after (c : Call) : Session :=
  leftBy c.written.run c.before

/-- The operand text that a call is encoded with, numeric references replaced. -/
def Call.text? (c : Call) : Option (List Char) :=
  (c.before.labels.resolve c.written.operands).2.toOption

/-- The instruction as it is encoded, if it can be. -/
def Call.encoded? (c : Call) : Option Encoded :=
  c.text?.bind fun text => ((c.written.catalog c.before.catalogs).encode (c.before.context true)
    c.written.mnemonic text).toOption

/-- Whether a call is one of a pseudo-instruction. -/
def Call.expands (c : Call) : Bool :=
  match c.written with
  | .instruction _ _ => c.encoded?.any (·.template.isPseudo)
  | .fields _ => false

/-- The items that a call appends. -/
def Call.items (c : Call) : List Item :=
  c.after.contents.items.toList.drop c.before.contents.items.size

/-- The instruction that a line gives, once its labels are defined. -/
def lineCalls (s : Session) (text : List Char) : List Call :=
  match (Line.read text).labels.forM addLabel s with
  | .ok _ s₁ => ((written? (Line.read text).statement).map (Call.mk s₁)).toList
  | .error _ _ => []

/-- The instructions that statements give. -/
def statementCalls : Session → List (List Char) → List Call
  | _, [] => []
  | s, text :: rest =>
    s.lineCalls text ++
      match line text s with
      | .ok _ s => s.statementCalls rest
      | .error e s => if e.endsSession then [] else s.statementCalls rest

/-- The instructions that a request gives. -/
def Request.calls (s : Session) : Request → List Call
  | .instruction mnemonic operands => [⟨s, .instruction mnemonic operands⟩]
  | .fields text => [⟨s, .fields text⟩]
  | .line text => s.lineCalls text
  | .block text => s.statementCalls (Statement.ofBlock text)
  | _ => []

/-- The instructions that requests give, in order. -/
def calls : Session → List Request → List Call
  | _, [] => []
  | s, request :: requests => request.calls s ++ calls (request.run s) requests

section

variable {w : Written} {s : Session}

/-- An instruction is encoded and then assembled, unless its type is missing. -/
theorem Written.run_cases (w : Written) (s : Session) :
    w.run s = (encodeIn w.catalog w.mnemonic w.operands >>= w.assemble) s ∨
      w.run s = .error (.directive (.malformed .missingInstructionType)) s := by
  cases w with
  | instruction mnemonic operands =>
    refine .inl (congrArg (fun f => (encodeIn Catalogs.instructions mnemonic operands >>= f) s) ?_)
    funext e
    unfold assemble
    cases e.template.pseudo <;> rfl
  | fields text =>
    unfold run fieldInstruction
    by_cases htype : (Text.firstWord text).1.isEmpty = true
    · refine .inr ?_
      dsimp only
      rw [if_pos htype]
      rfl
    · refine .inl ?_
      dsimp only
      rw [if_neg htype]
      rfl

/-- **What a call leaves.** It places nothing, or its encoded instruction, with a dot named, is
assembled where the call found the section. -/
theorem Call.after_cases (c : Call) :
    Idles c.before c.after ∨
      ∃ e s₁, c.encoded? = some e ∧ Idles c.before s₁ ∧
        (∀ allow, s₁.context allow = c.before.context allow) ∧
        s₁.labels.nextUpper = c.before.labels.nextUpper ∧
        (e.dotAddend?.isSome = true →
          s₁.contents.symbols[Label.dotSymbol c.before.labels.nextDot]? =
            some c.before.contents.items.size) ∧
        c.after = leftBy (c.written.assemble (e.named c.before.labels.nextDot)) s₁ := by
  obtain ⟨s, w⟩ := c
  have hidles := idles_encodeIn w.catalog w.mnemonic w.operands s
  rcases w.run_cases s with hrun | hrun
  · have hafter : Call.after ⟨s, w⟩ =
        leftBy (encodeIn w.catalog w.mnemonic w.operands >>= w.assemble) s := by
      unfold Call.after leftBy
      rw [hrun]
    rw [leftBy_bind] at hafter
    cases hencode : encodeIn w.catalog w.mnemonic w.operands s with
    | error er s₁ =>
      rw [hencode] at hafter
      rw [leftBy_of_error hencode] at hidles
      exact .inl (hafter ▸ hidles)
    | ok e s₁ =>
      rw [hencode] at hafter
      rw [leftBy_of_ok hencode] at hidles
      obtain ⟨labels, text, e₀, hresolve, hencoded, hnamed⟩ := exists_of_encodeIn hencode
      have hlabels : labels.nextDot = s.labels.nextDot ∧ labels.nextUpper = s.labels.nextUpper := by
        obtain ⟨done, -, -, hdone, -⟩ := s.labels.resolveTokens_fst (Labels.tokens w.operands)
        have hfirst : labels = s.labels.noting done := by
          rw [← hdone]
          exact (congrArg Prod.fst hresolve).symm
        rw [hfirst]
        exact ⟨rfl, rfl⟩
      obtain ⟨rfl, hdot⟩ := eq_of_nameDot hnamed
      refine .inr ⟨e₀, s₁, ?_, hidles, ?_, ?_, ?_, ?_⟩
      · have htext : Call.text? ⟨s, w⟩ = some text := by
          unfold Call.text?
          rw [hresolve]
          rfl
        unfold Call.encoded?
        rw [htext, Option.bind_some, hencoded]
        rfl
      · intro allow
        rcases hdot with ⟨-, rfl⟩ | ⟨-, -, rfl⟩
        · rfl
        · rfl
      · rcases hdot with ⟨-, rfl⟩ | ⟨-, -, rfl⟩
        · exact hlabels.2
        · exact hlabels.2
      · intro hsome
        rcases hdot with ⟨hnone, -⟩ | ⟨-, -, rfl⟩
        · rw [hnone] at hsome
          cases hsome
        · dsimp only [begun]
          rw [hlabels.1]
          simp [withSymbol, withDotUsed]
      · rw [hafter]
        dsimp only [begun]
        rw [hlabels.1]
  · refine .inl ?_
    have hafter : Call.after ⟨s, w⟩ = s := leftBy_of_error hrun
    rw [hafter]
    exact .refl s

end

section

variable {c : Call} {e : Encoded}

theorem leftBy_map {α β : Type} (x : AssemblerM α) (f : α → β) (s : Session) :
    leftBy (x >>= fun a => pure (f a)) s = leftBy x s := by
  rw [leftBy_bind, leftBy]
  cases x s <;> rfl

theorem Call.assemble_of_expands (h : c.expands = true) (he : c.encoded? = some e) :
    ∃ mnemonic operands kind, c.written = .instruction mnemonic operands ∧
      e.template.pseudo = some kind ∧
      ∀ n, c.written.assemble (e.named n) = expand kind (e.named n) := by
  unfold Call.expands at h
  split at h
  · rename_i mnemonic operands hwritten
    rw [he] at h
    obtain ⟨kind, hkind⟩ := Option.isSome_iff_exists.1 h
    refine ⟨mnemonic, operands, kind, hwritten, hkind, fun n => ?_⟩
    rw [hwritten]
    unfold Written.assemble
    rw [Encoded.template_named, hkind]
  · cases h

theorem Call.leftBy_assemble (h : c.expands = false) (he : c.encoded? = some e) (n : Nat)
    (s : Session) : leftBy (c.written.assemble (e.named n)) s = leftBy (place (e.named n)) s := by
  have hassemble : c.written.assemble (e.named n) = (do return [← place (e.named n)]) := by
    unfold Call.expands at h
    cases hwritten : c.written with
    | instruction mnemonic operands =>
      rw [hwritten] at h
      rw [he] at h
      have hpseudo : (e.named n).template.pseudo = none := by
        rw [Encoded.template_named]
        exact Option.not_isSome_iff_eq_none.1 fun hsome => by
          rw [← Template.isPseudo] at hsome
          rw [show (some e).any (·.template.isPseudo) = e.template.isPseudo from rfl, hsome] at h
          cases h
      unfold Written.assemble
      rw [hpseudo]
    | fields text =>
      unfold Written.assemble
      cases (e.named n).template.pseudo <;> rfl
  rw [hassemble]
  exact leftBy_map (place (e.named n)) _ s

end

/-- Calls one after the other, each from a session as `I` says, with nothing placed between
them. -/
def Passes (I : Session → Prop) : Session → List Call → Session → Prop
  | s, [], s' => Idles s s'
  | s, c :: cs, s' => Idles s c.before ∧ I c.before ∧ Passes I c.after cs s'

section

variable {I J : Session → Prop} {s s' s'' : Session} {c : Call} {cs cs' : List Call}

theorem Passes.of_idles (h : Idles s s') (hpasses : Passes I s' cs s'') : Passes I s cs s'' := by
  cases cs with
  | nil => exact h.trans hpasses
  | cons c cs => exact ⟨h.trans hpasses.1, hpasses.2⟩

theorem Passes.append (h : Passes I s cs s') (h' : Passes I s' cs' s'') :
    Passes I s (cs ++ cs') s'' := by
  induction cs generalizing s with
  | nil => exact h'.of_idles h
  | cons c cs ih => exact ⟨h.1, h.2.1, ih h.2.2⟩

theorem Passes.grows (hI : ∀ c : Call, I c.before → Grows c.before c.after)
    (h : Passes I s cs s') : Grows s s' := by
  induction cs generalizing s with
  | nil => exact h.toGrows
  | cons c cs ih => exact (h.1.toGrows.trans (hI c h.2.1)).trans (ih h.2.2)

/-- The items of a session are those of the calls. -/
theorem Passes.items (hI : ∀ c : Call, I c.before → Grows c.before c.after)
    (h : Passes I s cs s') :
    s'.contents.items.toList = s.contents.items.toList ++ cs.flatMap Call.items := by
  induction cs generalizing s with
  | nil => simp [h.same]
  | cons c cs ih =>
    obtain ⟨hidles, hIc, hrest⟩ := h
    obtain ⟨new, hnew, -⟩ := (hI c hIc).items
    rw [ih hrest, List.flatMap_cons, Call.items, hnew, hidles.same]
    simp

/-- A new item is that of a call. -/
theorem Passes.exists_of_lt (h : Passes I s cs s') {i : Nat} (hi : s.contents.items.size ≤ i)
    (hlt : i < s'.contents.items.size) :
    ∃ c ∈ cs, c.before.contents.items.size ≤ i ∧ i < c.after.contents.items.size := by
  induction cs generalizing s with
  | nil =>
    rw [h.same] at hlt
    omega
  | cons c cs ih =>
    obtain ⟨hidles, -, hrest⟩ := h
    by_cases hcall : i < c.after.contents.items.size
    · exact ⟨c, List.mem_cons_self, hidles.same ▸ hi, hcall⟩
    · obtain ⟨c', hc', hwithin⟩ := ih hrest (Nat.le_of_not_lt hcall)
      exact ⟨c', List.mem_cons_of_mem _ hc', hwithin⟩

/-- What a call starts from was there before, and what it leaves is there afterwards. -/
theorem Passes.of_mem (hI : ∀ c : Call, I c.before → Grows c.before c.after)
    (h : Passes I s cs s') (hc : c ∈ cs) : Grows s c.before ∧ I c.before ∧ Grows c.after s' := by
  induction cs generalizing s with
  | nil => cases hc
  | cons c₀ cs ih =>
    obtain ⟨hidles, hI₀, hrest⟩ := h
    rcases List.mem_cons.1 hc with rfl | hc
    · exact ⟨hidles.toGrows, hI₀, hrest.grows hI⟩
    · obtain ⟨hbefore, hIc, hafter⟩ := ih hrest hc
      exact ⟨(hidles.toGrows.trans (hI c₀ hI₀)).trans hbefore, hIc, hafter⟩

/-- A later call starts from what an earlier one left. -/
theorem Passes.pairwise (hI : ∀ c : Call, I c.before → Grows c.before c.after)
    (h : Passes I s cs s') : cs.Pairwise fun c c' => Grows c.after c'.before := by
  induction cs generalizing s with
  | nil => exact .nil
  | cons c cs ih =>
    exact .cons (fun c' hc' => (h.2.2.of_mem hI hc').1) (ih h.2.2)

theorem Passes.mono (h : Passes I s cs s') (hI : ∀ s, I s → J s) : Passes J s cs s' := by
  induction cs generalizing s with
  | nil => exact h
  | cons c cs ih => exact ⟨h.1, hI _ h.2.1, ih h.2.2⟩

end

section

variable {cs : Catalogs} {ev : Evaluator} {s : Session}

theorem grows_call (hcs : Catalogs.standard = .ok cs) {c : Call} (h : Settled cs ev false c.before) :
    Grows c.before c.after := by
  have hcs' : Catalogs.standard = .ok c.before.catalogs := h.catalogs ▸ hcs
  unfold Call.after
  cases c.written with
  | instruction mnemonic operands => exact grows_instruction hcs' mnemonic operands
  | fields text => exact grows_fieldInstruction hcs' text

theorem settled_forM_addLabel (h : Settled cs ev false s) (labels : List Label) :
    Settled cs ev false (leftBy (labels.forM addLabel) s) := by
  refine Yields.leftBy (E := Quiet ev) (Q := fun _ => True) (yields_forM fun label _ => ?_) h
  exact yields_of_follows (fun _ h => h) fun _ _ => yields_addLabel label

theorem leftBy_statement_of_written? {st : Statement} {w : Written} (h : written? st = some w) :
    leftBy (statement st) s = leftBy w.run s := by
  cases st with
  | instruction mnemonic operands =>
    cases h
    exact leftBy_map (Session.instruction mnemonic operands) _ s
  | fields text =>
    cases h
    exact leftBy_map (fieldInstruction text) _ s
  | _ => cases h

theorem sets_statement_of_written? {st : Statement} (h : written? st = none) (s : Session) :
    Sets s (leftBy (statement st) s) := by
  refine sets_statement ?_ ?_ s
  · rintro m o rfl
    cases h
  · rintro t rfl
    cases h

/-- A line is one call at most. -/
theorem passes_line (h : Settled cs ev false s) (text : List Char) :
    Passes (Settled cs ev false) s (s.lineCalls text) (leftBy (line text) s) := by
  have hidles := idles_forM_addLabel (Line.read text).labels s
  have hsettled := settled_forM_addLabel h (Line.read text).labels
  unfold lineCalls line
  rw [leftBy_bind]
  cases hlabels : (Line.read text).labels.forM addLabel s with
  | error e s₁ =>
    rw [leftBy_of_error hlabels] at hidles
    exact hidles
  | ok u s₁ =>
    rw [leftBy_of_ok hlabels] at hidles hsettled
    dsimp only
    cases hwritten : written? (Line.read text).statement with
    | none =>
      exact hidles.trans (sets_statement_of_written? hwritten s₁).idles
    | some w =>
      refine ⟨hidles, hsettled, ?_⟩
      rw [leftBy_statement_of_written? hwritten]
      exact Idles.refl _

theorem passes_statements (hcs : Catalogs.standard = .ok cs) (h : Settled cs ev false s)
    (texts : List (List Char)) :
    Passes (Settled cs ev false) s (s.statementCalls texts) (s.statements texts).1 := by
  induction texts generalizing s with
  | nil => exact Idles.refl s
  | cons text texts ih =>
    have hline := passes_line h text
    have hsettled : Settled cs ev false (leftBy (line text) s) :=
      (yields_line hcs fun hwide => by cases hwide).leftBy h
    unfold statementCalls statements
    cases hrun : line text s with
    | ok u s₁ =>
      rw [leftBy_of_ok hrun] at hline hsettled
      exact hline.append (ih hsettled)
    | error e s₁ =>
      rw [leftBy_of_error hrun] at hline hsettled
      dsimp only
      split
      · rw [List.append_nil]
        exact hline
      · exact hline.append (ih hsettled)

/-- **A request is a sequence of calls**, with nothing placed between them. -/
theorem passes_request (hcs : Catalogs.standard = .ok cs) (h : Settled cs ev false s)
    (request : Request) :
    Passes (Settled cs ev false) s (request.calls s) (request.run s) := by
  cases request with
  | useEvaluator ev' => exact ⟨{ Grows.refl s with catalogs := rfl }, rfl⟩
  | useIsa arch => exact (sets_update fun _ h => sets_useIsa h).idles
  | declareArch arch => exact (sets_update fun _ h => sets_declareArch h).idles
  | option name => exact (sets_update fun _ h => sets_option h).idles
  | instruction mnemonic operands => exact ⟨.refl s, h, .refl _⟩
  | fields text => exact ⟨.refl s, h, .refl _⟩
  | line text => exact passes_line h text
  | block text => exact passes_statements hcs h _

/-- The calls of a whole run, each from a settled session. -/
theorem passes_run (hcs : Catalogs.standard = .ok cs) (h : Settled cs ev false s)
    (requests : List Request) :
    Passes (fun s => ∃ ev, Settled cs ev false s) s (calls s requests)
      (requests.foldl Request.run s) := by
  induction requests generalizing s ev with
  | nil => exact Idles.refl s
  | cons request requests ih =>
    obtain ⟨ev', h'⟩ := h.run hcs request
    exact ((passes_request hcs h request).mono fun _ h => ⟨ev, h⟩).append (ih h')

/-- The calls of a run with one evaluator. -/
theorem passes_run_of_keeps (hcs : Catalogs.standard = .ok cs) (h : Settled cs ev false s)
    {requests : List Request} (hkeeps : ∀ ev', .useEvaluator ev' ∈ requests → ev' = ev) :
    Passes (Settled cs ev false) s (calls s requests) (requests.foldl Request.run s) := by
  induction requests generalizing s with
  | nil => exact Idles.refl s
  | cons request requests ih =>
    refine (passes_request hcs h request).append (ih (h.run_of_keeps hcs ?_) ?_)
    · rintro ev' rfl
      exact hkeeps ev' List.mem_cons_self
    · exact fun ev' hmem => hkeeps ev' (List.mem_cons_of_mem _ hmem)

end

/-! ### Invariants of runs -/

/-- What labels, calls and directives keep, each of which may fail. -/
structure KeptByLines (I : Session → Prop) : Prop where
  labels : ∀ s (labels : List Label), I s → I (leftBy (labels.forM addLabel) s)
  call : ∀ c : Call, I c.before → I c.after
  declareArch : ∀ s s' arch, I s → s.declareArch arch = .ok s' → I s'
  option : ∀ s s' name, I s → s.option name = .ok s' → I s'

/-- What another instruction set keeps as well, which no line can ask for. -/
structure Kept (I : Session → Prop) : Prop extends KeptByLines I where
  useIsa : ∀ s s' arch, I s → s.useIsa arch = .ok s' → I s'

section

variable {I : Session → Prop} {s : Session}

theorem leftBy_update_of {f : Session → Except Error Session} (hs : I s)
    (h : ∀ s', f s = .ok s' → I s') : I (leftBy (update f) s) := by
  unfold leftBy
  rw [update_eq]
  cases hf : f s with
  | ok s' => exact h s' hf
  | error e => exact hs

theorem KeptByLines.statement (h : KeptByLines I) {st : Statement} (hst : written? st = none)
    (hs : I s) : I (leftBy (statement st) s) := by
  cases st with
  | nothing => exact hs
  | option name => exact leftBy_update_of hs fun s' => h.option s s' name hs
  | fields text => cases hst
  | setAttribute arguments =>
    refine leftBy_update_of hs fun s' hs' => ?_
    split at hs'
    · cases hs'
    · cases hs'
      exact hs
    · exact h.declareArch s s' _ hs hs'
  | unknownDirective name => exact hs
  | instruction mnemonic operands => cases hst

theorem KeptByLines.line (h : KeptByLines I) (hs : I s) (text : List Char) :
    (∀ c ∈ s.lineCalls text, I c.before) ∧ I (leftBy (line text) s) := by
  have hlabels := h.labels s (Line.read text).labels hs
  unfold lineCalls Session.line
  rw [leftBy_bind]
  cases hrun : (Line.read text).labels.forM addLabel s with
  | error e s₁ =>
    rw [leftBy_of_error hrun] at hlabels
    exact ⟨List.forall_mem_nil _, hlabels⟩
  | ok u s₁ =>
    rw [leftBy_of_ok hrun] at hlabels
    dsimp only
    cases hwritten : written? (Line.read text).statement with
    | none => exact ⟨List.forall_mem_nil _, h.statement hwritten hlabels⟩
    | some w =>
      rw [leftBy_statement_of_written? hwritten]
      exact ⟨List.forall_mem_singleton.2 hlabels, h.call ⟨s₁, w⟩ hlabels⟩

theorem KeptByLines.statements (h : KeptByLines I) (hs : I s) (texts : List (List Char)) :
    (∀ c ∈ s.statementCalls texts, I c.before) ∧ I (s.statements texts).1 := by
  induction texts generalizing s with
  | nil => exact ⟨List.forall_mem_nil _, hs⟩
  | cons text texts ih =>
    obtain ⟨hcalls, hline⟩ := h.line hs text
    unfold statementCalls Session.statements
    cases hrun : Session.line text s with
    | ok u s₁ =>
      rw [leftBy_of_ok hrun] at hline
      obtain ⟨hrest, hend⟩ := ih hline
      exact ⟨List.forall_mem_append.2 ⟨hcalls, hrest⟩, hend⟩
    | error e s₁ =>
      rw [leftBy_of_error hrun] at hline
      dsimp only
      split
      · exact ⟨List.forall_mem_append.2 ⟨hcalls, List.forall_mem_nil _⟩, hline⟩
      · obtain ⟨hrest, hend⟩ := ih hline
        exact ⟨List.forall_mem_append.2 ⟨hcalls, hrest⟩, hend⟩

theorem KeptByLines.request (h : KeptByLines I) (hs : I s) {request : Request}
    (hisa : ∀ arch, request = .useIsa arch → ∀ s', s.useIsa arch = .ok s' → I s')
    (hev : ∀ ev, request = .useEvaluator ev → I { s with evaluator := ev }) :
    (∀ c ∈ request.calls s, I c.before) ∧ I (request.run s) := by
  cases request with
  | useEvaluator ev => exact ⟨List.forall_mem_nil _, hev ev rfl⟩
  | useIsa arch => exact ⟨List.forall_mem_nil _, leftBy_update_of hs (hisa arch rfl)⟩
  | declareArch arch =>
    exact ⟨List.forall_mem_nil _, leftBy_update_of hs fun s' => h.declareArch s s' arch hs⟩
  | option name =>
    exact ⟨List.forall_mem_nil _, leftBy_update_of hs fun s' => h.option s s' name hs⟩
  | instruction mnemonic operands =>
    exact ⟨List.forall_mem_singleton.2 hs, h.call ⟨s, .instruction mnemonic operands⟩ hs⟩
  | fields text => exact ⟨List.forall_mem_singleton.2 hs, h.call ⟨s, .fields text⟩ hs⟩
  | line text => exact h.line hs text
  | block text => exact h.statements hs _

/-- **What every step keeps holds throughout a run**: before each of its calls and at its end. -/
theorem KeptByLines.run (h : KeptByLines I) {requests : List Request} (hs : I s)
    (hisa : ∀ arch, .useIsa arch ∈ requests → ∀ s s', I s → s.useIsa arch = .ok s' → I s')
    (hev : ∀ ev, .useEvaluator ev ∈ requests → ∀ s, I s → I { s with evaluator := ev }) :
    (∀ c ∈ calls s requests, I c.before) ∧ I (requests.foldl Request.run s) := by
  induction requests generalizing s with
  | nil => exact ⟨List.forall_mem_nil _, hs⟩
  | cons request requests ih =>
    have hhere : ∀ arch, request = .useIsa arch → ∀ s', s.useIsa arch = .ok s' → I s' := by
      rintro arch rfl s'
      exact hisa arch List.mem_cons_self s s' hs
    have hhere' : ∀ ev, request = .useEvaluator ev → I { s with evaluator := ev } := by
      rintro ev rfl
      exact hev ev List.mem_cons_self s hs
    obtain ⟨hcalls, hrequest⟩ := h.request hs hhere hhere'
    obtain ⟨hrest, hend⟩ := ih hrequest (fun arch hmem => hisa arch (List.mem_cons_of_mem _ hmem))
      fun ev hmem => hev ev (List.mem_cons_of_mem _ hmem)
    exact ⟨List.forall_mem_append.2 ⟨hcalls, hrest⟩, hend⟩

theorem Kept.run (h : Kept I) {requests : List Request} (hs : I s)
    (hev : ∀ ev, .useEvaluator ev ∈ requests → ∀ s, I s → I { s with evaluator := ev }) :
    (∀ c ∈ calls s requests, I c.before) ∧ I (requests.foldl Request.run s) :=
  h.toKeptByLines.run hs (fun arch _ s s' => h.useIsa s s' arch) hev

/-! ### After a call of a run -/

variable {c : Call}

theorem after_of_mem_lineCalls {text : List Char} (hc : c ∈ s.lineCalls text) :
    c.after = leftBy (Session.line text) s := by
  unfold lineCalls at hc
  unfold Session.line
  rw [leftBy_bind]
  split at hc
  · rename_i u s₁ hlabels
    rw [hlabels]
    obtain ⟨w, hwritten, rfl⟩ := Option.map_eq_some_iff.1 (Option.mem_toList.1 hc)
    exact (leftBy_statement_of_written? hwritten).symm
  · cases hc

theorem KeptByLines.of_statementCalls (h : KeptByLines I) {texts : List (List Char)}
    (hc : c ∈ s.statementCalls texts) (hafter : I c.after) : I (s.statements texts).1 := by
  induction texts generalizing s with
  | nil => cases hc
  | cons text texts ih =>
    unfold statementCalls at hc
    unfold Session.statements
    cases hrun : Session.line text s with
    | ok u s₁ =>
      rw [hrun] at hc
      rcases List.mem_append.1 hc with hline | hrest
      · rw [after_of_mem_lineCalls hline, leftBy_of_ok hrun] at hafter
        exact (h.statements hafter texts).2
      · exact ih hrest
    | error e s₁ =>
      rw [hrun] at hc
      dsimp only at hc ⊢
      split at hc
      · rename_i hends
        rw [List.append_nil] at hc
        rw [after_of_mem_lineCalls hc, leftBy_of_error hrun] at hafter
        rw [if_pos hends]
        exact hafter
      · rename_i hends
        rw [if_neg hends]
        rcases List.mem_append.1 hc with hline | hrest
        · rw [after_of_mem_lineCalls hline, leftBy_of_error hrun] at hafter
          exact (h.statements hafter texts).2
        · exact ih hrest

theorem KeptByLines.of_request (h : KeptByLines I) {request : Request} (hc : c ∈ request.calls s)
    (hafter : I c.after) : I (request.run s) := by
  cases request with
  | useEvaluator ev => cases hc
  | useIsa arch => cases hc
  | declareArch arch => cases hc
  | option name => cases hc
  | instruction mnemonic operands =>
    obtain rfl := List.mem_singleton.1 hc
    exact hafter
  | fields text =>
    obtain rfl := List.mem_singleton.1 hc
    exact hafter
  | line text =>
    rw [after_of_mem_lineCalls hc] at hafter
    exact hafter
  | block text => exact h.of_statementCalls hc hafter

/-- What holds after a call of a run and is kept by every step holds at the end of the run. -/
theorem KeptByLines.of_calls (h : KeptByLines I) {requests : List Request}
    (hc : c ∈ calls s requests) (hafter : I c.after)
    (hisa : ∀ arch, .useIsa arch ∈ requests → ∀ s s', I s → s.useIsa arch = .ok s' → I s')
    (hev : ∀ ev, .useEvaluator ev ∈ requests → ∀ s, I s → I { s with evaluator := ev }) :
    I (requests.foldl Request.run s) := by
  induction requests generalizing s with
  | nil => cases hc
  | cons request requests ih =>
    have hisa' := fun arch hmem => hisa arch (List.mem_cons_of_mem _ hmem)
    have hev' := fun ev hmem => hev ev (List.mem_cons_of_mem _ hmem)
    rcases List.mem_append.1 hc with hhere | hrest
    · exact (h.run (h.of_request hhere hafter) hisa' hev').2
    · exact ih hrest hisa' hev'

end

/-! ### Runs of a new session -/

section

variable {cs : Catalogs} {config : Config} {start s : Session}

theorem empty_of_new (h : Session.new cs config = .ok start) :
    start.contents = .empty ∧ start.labels = .empty := by
  obtain ⟨s₁, hisa, h⟩ := bind_eq_ok_iff.1 h
  obtain ⟨_, -, h⟩ := bind_eq_ok_iff.1 h
  cases h
  unfold Session.useIsa at hisa
  split at hisa
  · cases hisa
  · cases hisa
    exact ⟨rfl, rfl⟩

theorem unresolved?_eq_find? (l : Labels) :
    l.unresolved? = (l.pending.find? fun p => l.count p.1 ≤ p.2).map (·.1) :=
  rfl

theorem finish_of_pending (h : s.labels.pending = #[]) : s.finish = s.contents.layout.2 := by
  unfold finish
  rw [unresolved?_eq_find?, h]
  rfl

theorem exists_laidOut_of_finish {l : Layout} (h : s.finish = .ok l) :
    ∃ mid pieces, Section.LaidOut s.contents s.contents.layout.1 l mid pieces := by
  unfold finish at h
  split at h
  · cases h
  · exact Section.laidOut_of_layout (Prod.ext rfl h)

/-- What a run from a new session leaves. -/
structure Trace (cs : Catalogs) (start : Session) (run : List Call) (s : Session) : Prop where
  grows : Grows start s
  calls : ∀ c ∈ run, c.before.catalogs = cs ∧ Grows c.before c.after ∧ Grows c.after s
  pairwise : run.Pairwise fun c c' => Grows c.after c'.before
  bounded : s.contents.Bounded
  positive : ∀ item ∈ s.contents.items.toList, 0 < item.size

theorem trace_of_new (hcs : Catalogs.standard = .ok cs) (hnew : Session.new cs config = .ok start)
    (requests : List Request) :
    Trace cs start (calls start requests) (requests.foldl Request.run start) := by
  have hpasses := passes_run hcs (settled_new hnew false) requests
  have hcall : ∀ c : Call, (∃ ev, Settled cs ev false c.before) → Grows c.before c.after :=
    fun c ⟨_, h⟩ => grows_call hcs h
  have hgrows := hpasses.grows hcall
  obtain ⟨hcontents, -⟩ := empty_of_new hnew
  refine ⟨hgrows, ?_, hpasses.pairwise hcall, hgrows.bounded ?_, ?_⟩
  · intro c hc
    obtain ⟨-, ⟨ev, hsettled⟩, hafter⟩ := hpasses.of_mem hcall hc
    exact ⟨hsettled.catalogs, hcall c ⟨ev, hsettled⟩, hafter⟩
  · rw [hcontents]
    exact Section.bounded_build []
  · obtain ⟨new, hnew, hpos⟩ := hgrows.items
    rw [hcontents] at hnew
    rw [hnew]
    exact hpos

end

end Session

end RiscvAssembler
